/-
  Scriptling.Expr — expressions, functions and programs.

  Everything that is evaluated is an expression, lines and loops included. A program is a list
  of definitions: global variables and functions.
  - `Expr.size` and `Expr.height` measure a tree.
  - Equality of trees is decidable: `Expr.same_iff`.
-/

import Scriptling.Operator

namespace Scriptling

/-- An expression. Labelled arguments keep the order they were written in. -/
inductive Expr where
  | int (value : Int)
  | bool (value : Bool)
  | array (items : List Expr)
  | var (name : String)
  | binary (op : Operator) (left right : Expr)
  | assign (name : String) (value : Expr)
  | block (lines : List Expr)
  | ifThen (condition body : Expr)
  | ifElse (condition body orElse : Expr)
  | whileDo (condition body : Expr)
  | call (function : String) (arguments : List Expr)
  | labelledCall (function : String) (arguments : List (String × Expr))
  | println (argument : Expr)
  deriving Repr, Inhabited

structure Function where
  name : String
  params : List String
  body : Expr
  deriving Repr, Inhabited

inductive Definition where
  | global (name : String) (value : Expr)
  | function (function : Function)
  deriving Repr, Inhabited

abbrev Program := List Definition

/-! ## Size and height -/

mutual

def Expr.size : Expr → Nat
  | .int _ | .bool _ | .var _ => 1
  | .array items => sizeAll items + 1
  | .binary _ left right => left.size + right.size + 1
  | .assign _ value => value.size + 1
  | .block lines => sizeAll lines + 1
  | .ifThen condition body => condition.size + body.size + 1
  | .ifElse condition body orElse => condition.size + body.size + orElse.size + 1
  | .whileDo condition body => condition.size + body.size + 1
  | .call _ arguments => sizeAll arguments + 1
  | .labelledCall _ arguments => sizeLabelled arguments + 1
  | .println argument => argument.size + 1

def sizeAll : List Expr → Nat
  | [] => 0
  | e :: es => e.size + sizeAll es

def sizeLabelled : List (String × Expr) → Nat
  | [] => 0
  | (_, e) :: es => e.size + sizeLabelled es

end

mutual

def Expr.height : Expr → Nat
  | .int _ | .bool _ | .var _ => 1
  | .array items => heightAll items + 1
  | .binary _ left right => max left.height right.height + 1
  | .assign _ value => value.height + 1
  | .block lines => heightAll lines + 1
  | .ifThen condition body => max condition.height body.height + 1
  | .ifElse condition body orElse => max condition.height (max body.height orElse.height) + 1
  | .whileDo condition body => max condition.height body.height + 1
  | .call _ arguments => heightAll arguments + 1
  | .labelledCall _ arguments => heightLabelled arguments + 1
  | .println argument => argument.height + 1

def heightAll : List Expr → Nat
  | [] => 0
  | e :: es => max e.height (heightAll es)

def heightLabelled : List (String × Expr) → Nat
  | [] => 0
  | (_, e) :: es => max e.height (heightLabelled es)

end

/-- The expression at the root of a definition: the initial value of a variable, or the body of
    a function. -/
def Definition.root : Definition → Expr
  | .global _ value => value
  | .function f => f.body

/-! ## Equality -/

mutual

def Expr.same : Expr → Expr → Bool
  | .int m, .int n => m == n
  | .bool a, .bool b => a == b
  | .array as, .array bs => sameAll as bs
  | .var x, .var y => x == y
  | .binary op a b, .binary op' a' b' => op == op' && a.same a' && b.same b'
  | .assign x a, .assign y b => x == y && a.same b
  | .block as, .block bs => sameAll as bs
  | .ifThen a b, .ifThen a' b' => a.same a' && b.same b'
  | .ifElse a b c, .ifElse a' b' c' => a.same a' && b.same b' && c.same c'
  | .whileDo a b, .whileDo a' b' => a.same a' && b.same b'
  | .call f as, .call g bs => f == g && sameAll as bs
  | .labelledCall f as, .labelledCall g bs => f == g && sameLabelled as bs
  | .println a, .println b => a.same b
  | _, _ => false

def sameAll : List Expr → List Expr → Bool
  | [], [] => true
  | a :: as, b :: bs => a.same b && sameAll as bs
  | _, _ => false

def sameLabelled : List (String × Expr) → List (String × Expr) → Bool
  | [], [] => true
  | (x, a) :: as, (y, b) :: bs => x == y && a.same b && sameLabelled as bs
  | _, _ => false

end

mutual

theorem Expr.same_iff (a b : Expr) : a.same b = true ↔ a = b := by
  cases a <;> cases b <;>
    simp [Expr.same, Expr.same_iff, sameAll_iff, sameLabelled_iff, and_assoc]

theorem sameAll_iff (as bs : List Expr) : sameAll as bs = true ↔ as = bs := by
  cases as <;> cases bs <;> simp [sameAll, Expr.same_iff, sameAll_iff]

theorem sameLabelled_iff (as bs : List (String × Expr)) : sameLabelled as bs = true ↔ as = bs := by
  match as, bs with
  | [], [] => simp [sameLabelled]
  | [], _ :: _ => simp [sameLabelled]
  | _ :: _, [] => simp [sameLabelled]
  | (x, a) :: as, (y, b) :: bs => simp [sameLabelled, Expr.same_iff, sameLabelled_iff]

end

instance : DecidableEq Expr := fun a b => decidable_of_iff _ (Expr.same_iff a b)

deriving instance DecidableEq for Function, Definition

end Scriptling
