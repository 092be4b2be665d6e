/-
  Scriptling.Value — what expressions evaluate to.

  A value is an integer, a truth value, an array, a dictionary or the unit value. Integers stay
  within 64 bits (see `Scriptling.Arithmetic`); a dictionary is the list of its entries in
  ascending order of their keys (see `Scriptling.Value.Order`).
-/

namespace Scriptling

inductive Value where
  | int (value : Int)
  | bool (value : Bool)
  | array (items : List Value)
  | dictionary (entries : List (Value × Value))
  | unit
  deriving Repr, Inhabited

/-- The kinds of values, in the order in which values are sorted by kind. -/
inductive Kind where
  | integer
  | boolean
  | array
  | dictionary
  | unit
  deriving DecidableEq, Repr, Inhabited

namespace Kind

def name : Kind → String
  | integer => "integer"
  | boolean => "boolean"
  | array => "array"
  | dictionary => "dictionary"
  | unit => "unit"

def rank : Kind → Nat
  | integer => 0
  | boolean => 1
  | array => 2
  | dictionary => 3
  | unit => 4

end Kind

def Value.kind : Value → Kind
  | .int _ => .integer
  | .bool _ => .boolean
  | .array _ => .array
  | .dictionary _ => .dictionary
  | .unit => .unit

mutual

/-- How a value is printed. Only ASCII characters are used. -/
def Value.render : Value → String
  | .int value => toString value
  | .bool true => "true"
  | .bool false => "false"
  | .array items => "[" ++ ", ".intercalate (renderItems items) ++ "]"
  | .dictionary entries => "\x7b" ++ ", ".intercalate (renderEntries entries) ++ "\x7d"
  | .unit => "()"

def renderItems : List Value → List String
  | [] => []
  | v :: vs => v.render :: renderItems vs

def renderEntries : List (Value × Value) → List String
  | [] => []
  | (k, v) :: rest => (k.render ++ ": " ++ v.render) :: renderEntries rest

end

end Scriptling
