/-
  Scriptling.Proofs.Eval.Guarded — which calls an evaluation makes.

  `evalGuarded` ends in an alarm as soon as a function is called with values that are not allowed. An
  evaluation only calls functions that it finds by a name, each with as many values as it has
  parameters. Where all of these are allowed there is no alarm, whatever the alarm would do
  (`evalGuarded_eq`).
-/

import Scriptling.Proofs.Eval.Node

namespace Scriptling

open Run

namespace Run

variable {σ α : Type}

def Congruence.equality (σ : Type) : Congruence σ σ where
  Rel run run' := run = run'
  pure _ := rfl
  bind h hf := by rw [h, funext hf]

def guarded (allowed : Prop) [Decidable allowed] (alarm : Outcome σ α) (run : Run σ α) : Run σ α := fun s =>
  if allowed then run s else alarm

theorem guarded_eq {allowed : Prop} [Decidable allowed] (h : allowed) (alarm : Outcome σ α) (run : Run σ α) :
    guarded allowed alarm run = run := by
  funext s
  exact if_pos h

end Run

variable (Allowed : Function → List Value → Prop) [∀ f values, Decidable (Allowed f values)]
  (alarm : Outcome Machine Value) (functions : Functions)

/-- Evaluates an expression, and ends in `alarm` if a function is called with values that are not
    allowed. -/
def evalGuarded : (fuel frame : Nat) → Expr → Eval Value
  | 0, _, _ => giveUp
  | fuel + 1, frame, e =>
    evalNodeBy functions fuel (evalGuarded fuel frame)
      (fun f values => guarded (Allowed f values) alarm (invoke (evalGuarded fuel) f values frame)) frame e

theorem evalGuarded_succ (fuel frame : Nat) (e : Expr) :
    evalGuarded Allowed alarm functions (fuel + 1) frame e =
      evalNodeBy functions fuel (evalGuarded Allowed alarm functions fuel frame)
        (fun f values =>
          guarded (Allowed f values) alarm (invoke (evalGuarded Allowed alarm functions fuel) f values frame))
        frame e := rfl

/-- Only functions that are found are called, and with as many values as they have parameters. -/
theorem evalGuarded_eq
    (h : ∀ name f, functions.find? name = some f → ∀ values, values.length = f.params.length → Allowed f values)
    (fuel frame : Nat) (e : Expr) : evalGuarded Allowed alarm functions fuel frame e = eval functions fuel frame e := by
  induction fuel generalizing frame e with
  | zero => rfl
  | succ fuel ih =>
    have hbody : evalGuarded Allowed alarm functions fuel = eval functions fuel := by
      funext frame e
      exact ih frame e
    rw [evalGuarded_succ, eval_succ, ← evalNodeBy_invoke, hbody]
    refine evalNodeOn_related (K := Congruence.equality Machine) (fun _ _ => rfl) (fun _ _ => rfl)
      (fun _ _ => rfl) (fun _ _ _ _ => rfl) (fun _ => rfl) (fun _ _ _ _ _ _ => rfl) (fun name f hf values hlen => ?_)
    exact guarded_eq (h name f (Functions.find?_of_get hf) values hlen) alarm _

end Scriptling
