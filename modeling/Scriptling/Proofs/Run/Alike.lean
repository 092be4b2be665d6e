/-
  Scriptling.Proofs.Run.Alike — two runs that go alike.

  Two runs go `Alike` under a relation of states if, from related states, they end with the same
  value or the same fault and in related states again, or are both given up. The fault is never a
  misuse of the frames.
  - `Alike.congruence`: this carries over to what is put together from runs.
  - Runs `Agree` if they are equal on the states with some property and keep it.
-/

import Scriptling.Proofs.Run.Leads

namespace Scriptling

variable {σ τ α β : Type}

/-- The same ending with related states, and no misuse. -/
inductive Outcome.Alike (R : σ → τ → Prop) : Outcome σ α → Outcome τ α → Prop
  | done (a : α) {s : σ} {t : τ} : R s t → Outcome.Alike R (.done a s) (.done a t)
  | fault {e : Fault} {s : σ} {t : τ} : (∀ misuse, e ≠ .misuse misuse) → R s t →
      Outcome.Alike R (.fault e s) (.fault e t)
  | unfinished : Outcome.Alike R .unfinished .unfinished

theorem Outcome.Alike.imp {R S : σ → τ → Prop} {x : Outcome σ α} {y : Outcome τ α} (h : x.Alike R y)
    (hRS : ∀ s t, R s t → S s t) : x.Alike S y := by
  cases h with
  | done a h => exact .done a (hRS _ _ h)
  | fault he h => exact .fault he (hRS _ _ h)
  | unfinished => exact .unfinished

namespace Run

def Alike (R : σ → τ → Prop) (run : Run σ α) (run' : Run τ α) : Prop :=
  ∀ s t, R s t → (run s).Alike R (run' t)

variable {R : σ → τ → Prop}

theorem Alike.pure (a : α) : Alike R (pure a) (pure a) := fun _ _ h => .done a h

theorem Alike.raise {e : Fault} (he : ∀ misuse, e ≠ .misuse misuse) :
    Alike R (raise e : Run σ α) (raise e) := fun _ _ h => .fault he h

theorem Alike.giveUp : Alike R (giveUp : Run σ α) giveUp := fun _ _ _ => .unfinished

theorem bind_alike {run : Run σ α} {run' : Run τ α} {f : α → Run σ β} {g : α → Run τ β} {s : σ} {t : τ}
    (h : (run s).Alike R (run' t)) (hfg : ∀ a, Alike R (f a) (g a)) :
    ((run >>= f) s).Alike R ((run' >>= g) t) := by
  simp only [bind_apply]
  generalize run s = x, run' t = y at h ⊢
  cases h with
  | done a hst => exact hfg a _ _ hst
  | fault he hst => exact .fault he hst
  | unfinished => exact .unfinished

theorem Alike.bind {run : Run σ α} {run' : Run τ α} {f : α → Run σ β} {g : α → Run τ β}
    (h : Alike R run run') (hfg : ∀ a, Alike R (f a) (g a)) : Alike R (run >>= f) (run' >>= g) :=
  fun s t hst => bind_alike (h s t hst) hfg

/-- Two runs that end alike end alike again with something done after each, however they have ended. -/
theorem finally_alike {S : σ → τ → Prop} {run : Run σ α} {run' : Run τ α} {s : σ} {t : τ} {after : Run σ Unit}
    {after' : Run τ Unit} (h : (run s).Alike S (run' t)) (hafter : ∀ s t, S s t → (after s).Alike R (after' t)) :
    ((attempt run >>= fun result => after >>= fun _ => ofExcept result : Run σ α) s).Alike R
      ((attempt run' >>= fun result => after' >>= fun _ => ofExcept result : Run τ α) t) := by
  rw [bind_apply, bind_apply, attempt, attempt]
  generalize run s = x, run' t = y at h ⊢
  cases h with
  | done a hst => exact bind_alike (hafter _ _ hst) fun _ => Alike.pure a
  | fault he hst => exact bind_alike (hafter _ _ hst) fun _ => Alike.raise he
  | unfinished => exact .unfinished

def Alike.congruence (R : σ → τ → Prop) : Congruence σ τ where
  Rel := Alike R
  pure := Alike.pure
  bind := Alike.bind

theorem Alike.foldlM {γ : Type} {f : β → γ → Run σ β} {g : β → γ → Run τ β} {as : List γ}
    (h : ∀ a ∈ as, ∀ b, Alike R (f b a) (g b a)) (b : β) : Alike R (as.foldlM f b) (as.foldlM g b) :=
  Congruence.foldlM (K := Alike.congruence R) h b

/-! ## Equal runs -/

/-- From every state with `P` the two runs end the same, and in a state with `P` again. -/
def Agree (P : σ → Prop) (run run' : Run σ α) : Prop := Alike (fun s t => s = t ∧ P s) run run'

variable {P : σ → Prop} {run run' : Run σ α} {s s' : σ}

theorem Agree.eq (h : Agree P run run') (hs : P s) : run s = run' s := by
  have hrun := h s s ⟨rfl, hs⟩
  generalize run s = x, run' s = y at hrun
  cases hrun with
  | done a h => rw [h.1]
  | fault he h => rw [h.1]
  | unfinished => rfl

theorem Agree.right (h : Agree P run run') : Agree P run' run' := by
  intro s s' h'
  obtain ⟨rfl, hs⟩ := h'
  have hends := h s s ⟨rfl, hs⟩
  rwa [h.eq hs] at hends

theorem Agree.of_done (h : Agree P run run') (hs : P s) {a : α} (hrun : run' s = .done a s') : P s' := by
  have hends := h s s ⟨rfl, hs⟩
  rw [h.eq hs, hrun] at hends
  cases hends with
  | done _ h => exact h.2

theorem Agree.of_fault (h : Agree P run run') (hs : P s) {e : Fault} (hrun : run' s = .fault e s') :
    P s' ∧ ∀ misuse, e ≠ .misuse misuse := by
  have hends := h s s ⟨rfl, hs⟩
  rw [h.eq hs, hrun] at hends
  cases hends with
  | fault he h => exact ⟨h.2, he⟩

theorem Agree.of_endsIn (h : Agree P run run') (hs : P s) (hends : (run' s).EndsIn s') : P s' := by
  rcases hends with ⟨a, hrun⟩ | ⟨e, hrun⟩
  · exact h.of_done hs hrun
  · exact (h.of_fault hs hrun).1

end Run

end Scriptling
