/-
  Scriptling.Proofs.Ideal.Semantics — evaluation as it would be without limits.

  `Runs functions w e trace ending w'` says that evaluating `e` in the world `w` comes to `ending`
  and `w'`. Integers are as large as they need to be, division goes toward zero, and calls nest as
  deep as they need to. What the limits of a machine would object to is on the `trace`, in order:
  the results of arithmetic operators, and the calls with how many others were active.

  An evaluation is also observed before its end: it is `pending` when it has not begun, and may be
  left pending when nothing but its end is missing (`Runs.begin`, `Runs.pause`). So an evaluation
  that never ends has a trace too, piece by piece.
-/

import Scriptling.Proofs.Eval.Arrangement
import Scriptling.Proofs.Ideal.World

namespace Scriptling

/-- What the operator makes of two values if integers have no bounds. The left one is looked at
    first. -/
def Operator.ideal (op : Operator) (left right : Value) : Except Fault Value :=
  match left, right with
  | .int m, .int n =>
    match op with
    | add => .ok (.int (m + n))
    | subtract => .ok (.int (m - n))
    | multiply => .ok (.int (m * n))
    | divide => if n = 0 then .error .divisionByZero else .ok (.int (m.tdiv n))
    | less => .ok (.bool (m < n))
    | lessOrEqual => .ok (.bool (m ≤ n))
    | greater => .ok (.bool (m > n))
    | greaterOrEqual => .ok (.bool (m ≥ n))
    | equal => .ok (.bool (m = n))
    | notEqual => .ok (.bool (m ≠ n))
  | .int _, v | v, _ => .error (.kind .integer v.kind ("operator '" ++ op.symbol ++ "'"))

namespace Ideal

/-! ## Traces -/

inductive Event where
  /-- An arithmetic operator has the result `n`. -/
  | result (op : Operator) (n : Int)
  /-- A call is made while so many others are active. -/
  | call (active : Nat)

namespace Event

def exceeds : Event → Bool
  | result _ n => !isWord n
  | call active => maxCalls ≤ active

def fault : Event → Fault
  | result op _ => .overflow op
  | call _ => .tooManyCalls

end Event

def firstExcess (trace : List Event) : Option Event := trace.find? Event.exceeds

def results (op : Operator) (left right : Value) : List Event :=
  match op.ideal left right with
  | .ok (.int n) => [.result op n]
  | _ => []

/-! ## Endings -/

inductive Stop where
  | fault (fault : Fault)
  /-- Only the beginning has been observed. -/
  | pending

inductive Ending (α : Type) where
  | value (value : α)
  | stop (stop : Stop)

def Ending.ofExcept {α : Type} : Except Fault α → Ending α
  | .ok a => .value a
  | .error e => .stop (.fault e)

/-! ## Rules -/

/-- The expression is a call of `f` with these arguments, in the order of its parameters. -/
inductive Calls (functions : Functions) : Expr → Function → List Expr → Prop
  | positional {name : String} {f : Function} {arguments : List Expr} :
      functions.find? name = some f → arguments.length = f.params.length →
      Calls functions (.call name arguments) f arguments
  | labelled {name : String} {f : Function} {arguments : List (String × Expr)} {arranged : List Expr} :
      functions.find? name = some f → f.TakesLabels (arguments.map Prod.fst) → f.Places arguments arranged →
      Calls functions (.labelledCall name arguments) f arranged

inductive Misses (functions : Functions) : Expr → Fault → Prop
  | unknown {name : String} {arguments : List Expr} :
      functions.find? name = none → Misses functions (.call name arguments) (.undefinedFunction name)
  | arity {name : String} {f : Function} {arguments : List Expr} :
      functions.find? name = some f → arguments.length ≠ f.params.length →
      Misses functions (.call name arguments) (.arity name f.params.length arguments.length)
  | unknownLabelled {name : String} {arguments : List (String × Expr)} :
      functions.find? name = none → Misses functions (.labelledCall name arguments) (.undefinedFunction name)
  | labels {name : String} {f : Function} {arguments : List (String × Expr)} {e : LabelFault} :
      functions.find? name = some f → f.RefusesLabels (arguments.map Prod.fst) e →
      Misses functions (.labelledCall name arguments) (.labels name e)

inductive Tests : Expr → Expr → String → Prop
  | ifThen (c b : Expr) : Tests (.ifThen c b) c "if condition"
  | ifElse (c b o : Expr) : Tests (.ifElse c b o) c "if condition"
  | whileDo (c b : Expr) : Tests (.whileDo c b) c "while condition"

/-- The expression begins with an evaluation of another one, and is over when that does not come to
    a value. -/
inductive Begins (functions : Functions) : Expr → Expr → Prop
  | array (e : Expr) (es : List Expr) : Begins functions (.array (e :: es)) e
  | binary (op : Operator) (l r : Expr) : Begins functions (.binary op l r) l
  | assign (x : String) (e : Expr) : Begins functions (.assign x e) e
  | block (e : Expr) (es : List Expr) : Begins functions (.block (e :: es)) e
  | test {e c : Expr} {context : String} : Tests e c context → Begins functions e c
  | arguments {e : Expr} {f : Function} {es : List Expr} : Calls functions e f es → Begins functions e (.array es)
  | println (e : Expr) : Begins functions (.println e) e

/-- Evaluating an expression in a world comes to an ending and another world. Arguments are
    evaluated like the items of an array. -/
inductive Runs (functions : Functions) : World → Expr → List Event → Ending Value → World → Prop
  | int {w : World} (n : Int) : Runs functions w (.int n) [] (.value (.int n)) w
  | bool {w : World} (b : Bool) : Runs functions w (.bool b) [] (.value (.bool b)) w
  | arrayNil {w : World} : Runs functions w (.array []) [] (.value (.array [])) w
  | arrayCons {w w₁ w₂ : World} {e : Expr} {es : List Expr} {t u : List Event} {v : Value} {vs : List Value} :
      Runs functions w e t (.value v) w₁ → Runs functions w₁ (.array es) u (.value (.array vs)) w₂ →
      Runs functions w (.array (e :: es)) (t ++ u) (.value (.array (v :: vs))) w₂
  | arrayStop {w w₁ w₂ : World} {e : Expr} {es : List Expr} {t u : List Event} {v : Value} {s : Stop} :
      Runs functions w e t (.value v) w₁ → Runs functions w₁ (.array es) u (.stop s) w₂ →
      Runs functions w (.array (e :: es)) (t ++ u) (.stop s) w₂
  | var {w : World} {x : String} {v : Value} : w.read x = some v → Runs functions w (.var x) [] (.value v) w
  | undefined {w : World} {x : String} : w.read x = none →
      Runs functions w (.var x) [] (.stop (.fault (.undefinedVariable x))) w
  | binary {w w₁ w₂ : World} {op : Operator} {l r : Expr} {t u : List Event} {a b : Value} :
      Runs functions w l t (.value a) w₁ → Runs functions w₁ r u (.value b) w₂ →
      Runs functions w (.binary op l r) (t ++ (u ++ results op a b)) (.ofExcept (op.ideal a b)) w₂
  | binaryStop {w w₁ w₂ : World} {op : Operator} {l r : Expr} {t u : List Event} {a : Value} {s : Stop} :
      Runs functions w l t (.value a) w₁ → Runs functions w₁ r u (.stop s) w₂ →
      Runs functions w (.binary op l r) (t ++ u) (.stop s) w₂
  | assign {w w₁ : World} {x : String} {e : Expr} {t : List Event} {v : Value} :
      Runs functions w e t (.value v) w₁ → Runs functions w (.assign x e) t (.value v) (w₁.assign x v)
  | blockNil {w : World} : Runs functions w (.block []) [] (.value .unit) w
  | blockLast {w w₁ : World} {e : Expr} {t : List Event} {v : Value} :
      Runs functions w e t (.value v) w₁ → Runs functions w (.block [e]) t (.value v) w₁
  | blockCons {w w₁ w₂ : World} {e e' : Expr} {es : List Expr} {t u : List Event} {v : Value} {r : Ending Value} :
      Runs functions w e t (.value v) w₁ → Runs functions w₁ (.block (e' :: es)) u r w₂ →
      Runs functions w (.block (e :: e' :: es)) (t ++ u) r w₂
  | thenTrue {w w₁ w₂ : World} {c b : Expr} {t u : List Event} {r : Ending Value} :
      Runs functions w c t (.value (.bool true)) w₁ → Runs functions w₁ b u r w₂ →
      Runs functions w (.ifThen c b) (t ++ u) r w₂
  | thenFalse {w w₁ : World} {c b : Expr} {t : List Event} :
      Runs functions w c t (.value (.bool false)) w₁ → Runs functions w (.ifThen c b) t (.value .unit) w₁
  | elseTrue {w w₁ w₂ : World} {c b o : Expr} {t u : List Event} {r : Ending Value} :
      Runs functions w c t (.value (.bool true)) w₁ → Runs functions w₁ b u r w₂ →
      Runs functions w (.ifElse c b o) (t ++ u) r w₂
  | elseFalse {w w₁ w₂ : World} {c b o : Expr} {t u : List Event} {r : Ending Value} :
      Runs functions w c t (.value (.bool false)) w₁ → Runs functions w₁ o u r w₂ →
      Runs functions w (.ifElse c b o) (t ++ u) r w₂
  | whileTrue {w w₁ w₂ w₃ : World} {c b : Expr} {t u v : List Event} {a : Value} {r : Ending Value} :
      Runs functions w c t (.value (.bool true)) w₁ → Runs functions w₁ b u (.value a) w₂ →
      Runs functions w₂ (.whileDo c b) v r w₃ → Runs functions w (.whileDo c b) (t ++ (u ++ v)) r w₃
  | whileStop {w w₁ w₂ : World} {c b : Expr} {t u : List Event} {s : Stop} :
      Runs functions w c t (.value (.bool true)) w₁ → Runs functions w₁ b u (.stop s) w₂ →
      Runs functions w (.whileDo c b) (t ++ u) (.stop s) w₂
  | whileFalse {w w₁ : World} {c b : Expr} {t : List Event} :
      Runs functions w c t (.value (.bool false)) w₁ → Runs functions w (.whileDo c b) t (.value (.bool true)) w₁
  | notBool {w w₁ : World} {e c : Expr} {context : String} {t : List Event} {v : Value} :
      Tests e c context → Runs functions w c t (.value v) w₁ → v.kind ≠ .boolean →
      Runs functions w e t (.stop (.fault (.kind .boolean v.kind context))) w₁
  | call {w w₁ w₂ : World} {e : Expr} {f : Function} {es : List Expr} {t u : List Event} {vs : List Value}
      {r : Ending Value} :
      Calls functions e f es → Runs functions w (.array es) t (.value (.array vs)) w₁ →
      Runs functions (w₁.enter (f.params.zip vs)) f.body u r w₂ →
      Runs functions w e (t ++ .call w₁.active :: u) r w₂.leave
  | misses {w : World} {e : Expr} {fault : Fault} : Misses functions e fault →
      Runs functions w e [] (.stop (.fault fault)) w
  | println {w w₁ : World} {e : Expr} {t : List Event} {v : Value} :
      Runs functions w e t (.value v) w₁ → Runs functions w (.println e) t (.value v) (w₁.print v.render)
  | first {w w₁ : World} {e c : Expr} {t : List Event} {s : Stop} :
      Begins functions e c → Runs functions w c t (.stop s) w₁ → Runs functions w e t (.stop s) w₁
  | begin {w : World} {e : Expr} : Runs functions w e [] (.stop .pending) w
  | pause {w w₁ : World} {e : Expr} {t : List Event} {r : Ending Value} :
      Runs functions w e t r w₁ → Runs functions w e t (.stop .pending) w₁

end Ideal

end Scriptling
