/-
  Scriptling.Proofs.Run.Leads — where runs lead.

  A run ends in a state with a value or with a fault (`Outcome.EndsIn`). It `Leads` along a relation
  of states if the state in which it ends is related to the one it began in. Where the relation is
  reflexive and transitive, this carries over to what is put together from runs.
-/

import Scriptling.Proofs.Run.Congruence

namespace Scriptling

variable {σ α β : Type}

def Outcome.EndsIn (x : Outcome σ α) (s : σ) : Prop := (∃ a, x = .done a s) ∨ ∃ e, x = .fault e s

namespace Outcome

@[simp] theorem endsIn_done {a : α} {s s' : σ} : (Outcome.done a s).EndsIn s' ↔ s = s' := by
  simp [EndsIn]

@[simp] theorem endsIn_fault {e : Fault} {s s' : σ} : (Outcome.fault e s : Outcome σ α).EndsIn s' ↔ s = s' := by
  simp [EndsIn]

@[simp] theorem endsIn_unfinished {s' : σ} : ¬ (Outcome.unfinished : Outcome σ α).EndsIn s' := by
  simp [EndsIn]

end Outcome

namespace Run

theorem endsIn_bind {run : Run σ α} {f : α → Run σ β} {s s' : σ} (h : ((run >>= f) s).EndsIn s') :
    (∃ a mid, run s = .done a mid ∧ (f a mid).EndsIn s') ∨ ∃ e, run s = .fault e s' := by
  rw [bind_apply] at h
  cases hrun : run s with
  | done a mid =>
    rw [hrun] at h
    exact .inl ⟨a, mid, rfl, h⟩
  | fault e mid =>
    rw [hrun] at h
    obtain rfl := Outcome.endsIn_fault.mp h
    exact .inr ⟨e, rfl⟩
  | unfinished =>
    rw [hrun] at h
    exact absurd h Outcome.endsIn_unfinished

/-- However the run ends, it leads from a state to one that is related to it. -/
def Leads (T : σ → σ → Prop) (run : Run σ α) : Prop := ∀ s s', (run s).EndsIn s' → T s s'

variable {T : σ → σ → Prop}

theorem leads_giveUp : Leads T (giveUp : Run σ α) :=
  fun _ _ h => absurd h Outcome.endsIn_unfinished

/-- A run that stays in its state leads along a reflexive relation. -/
theorem leads_of_stays (refl : ∀ s, T s s) {run : Run σ α} (h : ∀ s s', (run s).EndsIn s' → s = s') : Leads T run := by
  intro s s' hends
  obtain rfl := h s s' hends
  exact refl s

theorem leads_pure (refl : ∀ s, T s s) (a : α) : Leads T (pure a : Run σ α) :=
  leads_of_stays refl fun _ _ => Outcome.endsIn_done.mp

theorem leads_raise (refl : ∀ s, T s s) (e : Fault) : Leads T (raise e : Run σ α) :=
  leads_of_stays refl fun _ _ => Outcome.endsIn_fault.mp

theorem Leads.bind (trans : ∀ s s' s'', T s s' → T s' s'' → T s s'') {run : Run σ α} {f : α → Run σ β}
    (h : Leads T run) (hf : ∀ a, Leads T (f a)) : Leads T (run >>= f) := by
  intro s s' hends
  rcases endsIn_bind hends with ⟨a, mid, hrun, hends⟩ | ⟨e, hrun⟩
  · exact trans s mid s' (h s mid (.inl ⟨a, hrun⟩)) (hf a mid s' hends)
  · exact h s s' (.inr ⟨e, hrun⟩)

def Leads.congruence (T : σ → σ → Prop) (refl : ∀ s, T s s) (trans : ∀ s s' s'', T s s' → T s' s'' → T s s'') :
    Congruence σ σ where
  Rel run _ := Leads T run
  pure := leads_pure refl
  bind := Leads.bind trans

end Run

end Scriptling
