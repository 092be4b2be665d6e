/-
  Scriptling.Eval.Fuel — fuel decides only whether a run ends.

  A run `Extends` another if it gives every answer that the other gives. This is a congruence of runs,
  and a loop with more rounds extends one with fewer.
  - `eval_extends`: more fuel keeps every answer.
  - `eval_eq_of_ends`: two amounts of fuel that both suffice give the same answer.
-/

import Scriptling.Proofs.Eval.Node

namespace Scriptling

namespace Run

variable {σ α β : Type}

/-- `more` gives every answer that `less` gives. -/
def Extends (less more : Run σ α) : Prop := ∀ s, less s ≠ .unfinished → more s = less s

theorem Extends.refl (run : Run σ α) : Extends run run := fun _ _ => rfl

theorem extends_giveUp (run : Run σ α) : Extends giveUp run := fun _ h => absurd rfl h

theorem Extends.bind {less more : Run σ α} {f g : α → Run σ β} (h : Extends less more)
    (hfg : ∀ a, Extends (f a) (g a)) : Extends (less >>= f) (more >>= g) := by
  intro s hs
  have hne : less s ≠ .unfinished := by
    intro h0
    simp [h0] at hs
  rw [bind_apply, bind_apply, h s hne]
  cases hr : less s with
  | done a s' =>
    rw [bind_apply, hr] at hs
    exact hfg a s' hs
  | fault e s' => rfl
  | unfinished => exact absurd hr hne

def Extends.congruence (σ : Type) : Congruence σ σ where
  Rel less more := Extends less more
  pure _ := Extends.refl _
  bind := Extends.bind

theorem Extends.attempt {less more : Run σ α} (h : Extends less more) :
    Extends (attempt less) (attempt more) := by
  intro s hs
  have hne : less s ≠ .unfinished := by
    intro h0
    simp [Run.attempt, h0] at hs
  simp only [Run.attempt, h s hne]

theorem Extends.repeatWhile {test test' : Run σ Bool} {body body' : Run σ α} (ht : Extends test test')
    (hb : Extends body body') {m n : Nat} (hmn : m ≤ n) :
    Extends (repeatWhile test body m) (repeatWhile test' body' n) := by
  induction m generalizing n with
  | zero => exact extends_giveUp _
  | succ m ih =>
    cases n with
    | zero => omega
    | succ n =>
      refine ht.bind fun holds => ?_
      cases holds with
      | false => exact Extends.refl _
      | true => exact hb.bind fun _ => ih (by omega)

end Run

open Run

theorem evalTest_extends {eval eval' : Expr → Eval Value} (h : ∀ e, Extends (eval e) (eval' e))
    (context : String) (e : Expr) : Extends (evalTest eval context e) (evalTest eval' context e) :=
  (h e).bind fun _ => Extends.refl _

theorem invoke_extends {eval eval' : Nat → Expr → Eval Value}
    (h : ∀ frame e, Extends (eval frame e) (eval' frame e)) (f : Function) (values : List Value) (caller : Nat) :
    Extends (invoke eval f values caller) (invoke eval' f values caller) :=
  (Extends.refl _).bind fun _ => (Extends.refl _).bind fun frame => (Extends.refl _).bind fun _ =>
    (h frame f.body).attempt.bind fun _ => Extends.refl _

/-- More fuel keeps every answer. -/
theorem eval_extends (functions : Functions) {m n : Nat} (hmn : m ≤ n) (frame : Nat) (e : Expr) :
    Extends (eval functions m frame e) (eval functions n frame e) := by
  induction m generalizing n frame e with
  | zero => exact extends_giveUp _
  | succ m ih =>
    cases n with
    | zero => omega
    | succ n =>
      have hmn : m ≤ n := by omega
      rw [eval_succ, eval_succ, ← evalNodeBy_invoke, ← evalNodeBy_invoke]
      exact evalNodeOn_related (K := Extends.congruence Machine) (fun c _ => ih hmn frame c) (fun _ _ => Extends.refl _)
        (fun _ _ => Extends.refl _) (fun _ _ _ _ => Extends.refl _) (fun _ => Extends.refl _)
        (fun _ _ _ _ hc hb => hc.repeatWhile hb hmn) (fun _ f _ values _ => invoke_extends (ih hmn) f values frame)

/-- Two amounts of fuel that both suffice give the same answer. -/
theorem eval_eq_of_ends (functions : Functions) {m n : Nat} {frame : Nat} {e : Expr} {s : Machine}
    (hm : eval functions m frame e s ≠ .unfinished) (hn : eval functions n frame e s ≠ .unfinished) :
    eval functions m frame e s = eval functions n frame e s := by
  rcases Nat.le_total m n with h | h
  · exact (eval_extends functions h frame e s hm).symm
  · exact eval_extends functions h frame e s hn

end Scriptling
