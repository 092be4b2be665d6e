/-
  Scriptling.Proofs.Eval.Alike — evaluations that go alike.

  If the nodes below a node are evaluated alike by two evaluators, and so are the bodies of the
  functions it calls, then the node is: `evalNode_alike`. What depends on the relation of the two
  machines is reading, assigning, printing and calling.
-/

import Scriptling.Proofs.Eval.Node
import Scriptling.Proofs.Run.Alike

namespace Scriptling

open Run

/-! ## What a node raises itself is never a misuse -/

theorem Functions.eq_of_get_error {functions : Functions} {name : String} {fault : Fault}
    (h : functions.get name = .error fault) : functions.find? name = none ∧ fault = .undefinedFunction name := by
  unfold get at h
  split at h
  · cases h
  · cases h
    exact ⟨‹_›, rfl⟩

theorem Function.eq_of_checkArity_error {f : Function} {name : String} {count : Nat} {fault : Fault}
    (h : f.checkArity name count = .error fault) :
    count ≠ f.params.length ∧ fault = .arity name f.params.length count := by
  unfold checkArity at h
  split at h
  · cases h
  · cases h
    exact ⟨‹_›, rfl⟩

theorem Function.eq_of_arrange_error {f : Function} {name : String} {arguments : List (String × Expr)} {fault : Fault}
    (h : (f.arrange arguments).mapError (Fault.labels name) = .error fault) :
    ∃ e, f.arrange arguments = .error e ∧ fault = .labels name e := by
  cases harrange : f.arrange arguments with
  | ok arranged => rw [harrange] at h; cases h
  | error e =>
    rw [harrange] at h
    exact ⟨e, rfl, (Except.error.inj h).symm⟩

theorem Expr.Raises.ne_misuse {functions : Functions} {e : Expr} {fault : Fault} (h : e.Raises functions fault)
    (misuse : Misuse) : fault ≠ .misuse misuse := by
  rintro rfl
  cases h with
  | operator op l r h => cases Operator.apply_ofValues h
  | condition context v h => cases Value.toBool_ofValues h
  | callee h | labelledCallee h => cases (Functions.eq_of_get_error h).2
  | arity _ h => cases (Function.eq_of_checkArity_error h).2
  | labels _ h =>
    obtain ⟨_, -, heq⟩ := Function.eq_of_arrange_error h
    cases heq

/-! ## One node -/

variable {R : Machine → Machine → Prop} {eval eval' : Expr → Eval Value}
  {evalBody evalBody' : Nat → Expr → Eval Value}

/-- A node goes alike if the nodes below it do, and reading, assigning, printing and calling. -/
theorem evalNode_alike {functions : Functions} {rounds frame : Nat} {e : Expr}
    (hchild : ∀ c ∈ e.children, Alike R (eval c) (eval' c))
    (hread : ∀ x, e = .var x → Alike R (Eval.read frame x) (Eval.read frame x))
    (hassign : ∀ x c, e = .assign x c → ∀ v, Alike R (Eval.assign frame x v) (Eval.assign frame x v))
    (hprint : ∀ text, Alike R (Eval.printLine text) (Eval.printLine text))
    (hinvoke : ∀ name f, functions.get name = .ok f → ∀ values,
      Alike R (invoke evalBody f values frame) (invoke evalBody' f values frame)) :
    Alike R (evalNode functions rounds eval evalBody frame e)
      (evalNode functions rounds eval' evalBody' frame e) := by
  rw [← evalNodeBy_invoke, ← evalNodeBy_invoke]
  exact evalNodeOn_related (K := Alike.congruence R) hchild (fun _ h => Alike.raise h.ne_misuse) hread hassign
    (fun v => hprint v.render) (fun _ _ _ _ hc hb => Congruence.repeatWhile Alike.giveUp hc hb rounds)
    (fun name f hf values _ => hinvoke name f hf values)

end Scriptling
