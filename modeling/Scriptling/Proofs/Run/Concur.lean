/-
  Scriptling.Proofs.Run.Concur — equal runs with values of a kind.

  Two runs `Concur` if, from every state that has `P`, they end the same, in a state that has `P`
  again, and with a value that has `Q` if with a value at all. A congruence of runs says nothing about
  values; here, what comes after a run may count on `Q`.
  - `Concur.bind`, `Concur.mapM`, `Concur.foldlM` and so on: this carries over to what is put together.
  - `inspected`: a run that ends in an alarm if it does not keep `P` and `Q`. Where runs concur there is
    no alarm (`Concur.inspected`).
-/

import Scriptling.Proofs.Run.Leads

namespace Scriptling

variable {σ α β γ : Type}

def Outcome.Keeps (P : σ → Prop) (Q : α → Prop) : Outcome σ α → Prop
  | .done a s => Q a ∧ P s
  | .fault _ s => P s
  | .unfinished => True

instance Outcome.decidableKeeps {P : σ → Prop} {Q : α → Prop} [DecidablePred P] [DecidablePred Q] :
    DecidablePred (Outcome.Keeps P Q)
  | .done a s => inferInstanceAs (Decidable (Q a ∧ P s))
  | .fault _ s => inferInstanceAs (Decidable (P s))
  | .unfinished => isTrue trivial

namespace Run

def Concur (P : σ → Prop) (Q : α → Prop) (run run' : Run σ α) : Prop :=
  ∀ s, P s → run s = run' s ∧ (run' s).Keeps P Q

variable {P : σ → Prop} {Q : α → Prop} {R : β → Prop} {run run' : Run σ α} {f g : α → Run σ β}

namespace Concur

theorem pure {a : α} (h : Q a) : Concur P Q (pure a) (pure a) := fun _ hs => ⟨rfl, h, hs⟩

theorem raise (e : Fault) : Concur P Q (raise e) (raise e) := fun _ hs => ⟨rfl, hs⟩

theorem giveUp : Concur P Q giveUp giveUp := fun _ _ => ⟨rfl, trivial⟩

theorem bind (h : Concur P Q run run') (hfg : ∀ a, Q a → Concur P R (f a) (g a)) :
    Concur P R (run >>= f) (run' >>= g) := by
  intro s hs
  obtain ⟨heq, hkeeps⟩ := h s hs
  rw [bind_apply, bind_apply, heq]
  cases hrun : run' s with
  | done a mid =>
    rw [hrun] at hkeeps
    exact hfg a hkeeps.1 mid hkeeps.2
  | fault e mid =>
    rw [hrun] at hkeeps
    exact ⟨rfl, hkeeps⟩
  | unfinished => exact ⟨rfl, trivial⟩

theorem ofExcept_bind {x : Except Fault α} (h : ∀ a, x = .ok a → Concur P R (f a) (g a)) :
    Concur P R (Run.ofExcept x >>= f) (Run.ofExcept x >>= g) := by
  cases x with
  | ok a => exact h a rfl
  | error e => exact raise e

theorem ofExcept {x : Except Fault α} (h : ∀ a, x = .ok a → Q a) :
    Concur P Q (Run.ofExcept x) (Run.ofExcept x) := by
  cases x with
  | ok a => exact pure (h a rfl)
  | error e => exact raise e

theorem mapM {f g : γ → Run σ α} {as : List γ} (h : ∀ a ∈ as, Concur P Q (f a) (g a)) :
    Concur P (fun bs => ∀ b ∈ bs, Q b) (as.mapM f) (as.mapM g) := by
  induction as with
  | nil => exact pure fun b hb => by cases hb
  | cons a as ih =>
    rw [List.mapM_cons, List.mapM_cons]
    refine bind (h a (List.mem_cons_self ..)) fun b hb => ?_
    refine bind (ih fun c hc => h c (List.mem_cons_of_mem _ hc)) fun bs hbs => ?_
    exact pure (List.forall_mem_cons.mpr ⟨hb, hbs⟩)

theorem foldlM {f g : α → γ → Run σ α} {as : List γ} (h : ∀ c ∈ as, ∀ a, Concur P Q (f a c) (g a c)) {a : α}
    (ha : Q a) : Concur P Q (as.foldlM f a) (as.foldlM g a) := by
  induction as generalizing a with
  | nil => exact pure ha
  | cons c as ih =>
    rw [List.foldlM_cons, List.foldlM_cons]
    refine bind (h c (List.mem_cons_self ..) a) fun b hb => ?_
    exact ih (fun d hd => h d (List.mem_cons_of_mem _ hd)) hb

theorem forM {f g : γ → Run σ Unit} {as : List γ} (h : ∀ a ∈ as, Concur P (fun _ => True) (f a) (g a)) :
    Concur P (fun _ => True) (as.forM f) (as.forM g) := by
  induction as with
  | nil => exact pure trivial
  | cons a as ih =>
    exact bind (h a (List.mem_cons_self ..)) fun _ _ => ih fun c hc => h c (List.mem_cons_of_mem _ hc)

theorem repeatWhile {test test' : Run σ Bool} (ht : Concur P (fun _ => True) test test') (hb : Concur P Q run run')
    (rounds : Nat) :
    Concur P (fun _ => True) (Run.repeatWhile test run rounds) (Run.repeatWhile test' run' rounds) := by
  induction rounds with
  | zero => exact giveUp
  | succ rounds ih =>
    refine bind ht fun holds _ => ?_
    cases holds with
    | false => exact pure trivial
    | true => exact bind hb fun _ _ => ih

theorem of_done (h : Concur P Q run run') {s s' : σ} (hs : P s) {a : α} (hrun : run' s = .done a s') : Q a ∧ P s' := by
  have hkeeps := (h s hs).2
  rwa [hrun] at hkeeps

theorem of_endsIn (h : Concur P Q run run') {s s' : σ} (hs : P s) (hends : (run' s).EndsIn s') : P s' := by
  have hkeeps := (h s hs).2
  rcases hends with ⟨a, hrun⟩ | ⟨e, hrun⟩
  · rw [hrun] at hkeeps
    exact hkeeps.2
  · rwa [hrun] at hkeeps

end Concur

/-- The run; but `alarm` is how it ends if it begins in a state that does not have `P`, or if it does not
    keep `P` and `Q`. -/
def inspected (P : σ → Prop) (Q : α → Prop) [DecidablePred P] [DecidablePred Q] (alarm : Outcome σ α)
    (run : Run σ α) : Run σ α := fun s =>
  if P s ∧ (run s).Keeps P Q then run s else alarm

theorem Concur.inspected [DecidablePred P] [DecidablePred Q] (h : Concur P Q run run') (alarm : Outcome σ α) :
    Concur P Q (Run.inspected P Q alarm run) run' := by
  intro s hs
  obtain ⟨heq, hkeeps⟩ := h s hs
  have hquiet : P s ∧ (run s).Keeps P Q := ⟨hs, heq ▸ hkeeps⟩
  exact ⟨(if_pos hquiet).trans heq, hkeeps⟩

end Run

end Scriptling
