/-
  Scriptling.Operator — the binary operators and how they are written.
-/

namespace Scriptling

inductive Operator where
  | add
  | subtract
  | multiply
  | divide
  | less
  | lessOrEqual
  | greater
  | greaterOrEqual
  | equal
  | notEqual
  deriving DecidableEq, Repr, Inhabited

namespace Operator

def symbol : Operator → String
  | add => "+"
  | subtract => "-"
  | multiply => "*"
  | divide => "/"
  | less => "<"
  | lessOrEqual => "<="
  | greater => ">"
  | greaterOrEqual => ">="
  | equal => "=="
  | notEqual => "!="

def all : List Operator :=
  [add, subtract, multiply, divide, less, lessOrEqual, greater, greaterOrEqual, equal, notEqual]

theorem mem_all (op : Operator) : op ∈ all := by cases op <;> decide

def ofSymbol? (text : String) : Option Operator := all.find? (fun op => op.symbol == text)

theorem ofSymbol?_symbol (op : Operator) : ofSymbol? op.symbol = some op := by
  cases op <;> decide

def isComparison : Operator → Bool
  | less | lessOrEqual | greater | greaterOrEqual | equal | notEqual => true
  | _ => false

def isAdditive : Operator → Bool
  | add | subtract => true
  | _ => false

def isMultiplicative : Operator → Bool
  | multiply | divide => true
  | _ => false

end Operator

end Scriptling
