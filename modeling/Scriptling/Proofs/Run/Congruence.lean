/-
  Scriptling.Proofs.Run.Congruence — relations of runs that carry over to what is put together.

  A `Congruence` relates runs that only give a value, and runs that are put together one after
  another from related ones. It then relates all that is made of related runs: runs over lists,
  and loops. A property of runs is a congruence that does not look at the second run.
-/

import Scriptling.Run

namespace Scriptling.Run

/-- A relation of runs that is respected by doing one run after another. -/
structure Congruence (σ τ : Type) where
  Rel : {α : Type} → Run σ α → Run τ α → Prop
  pure : ∀ {α : Type} (a : α), Rel (Pure.pure a) (Pure.pure a)
  bind : ∀ {α β : Type} {run : Run σ α} {run' : Run τ α} {f : α → Run σ β} {g : α → Run τ β},
    Rel run run' → (∀ a, Rel (f a) (g a)) → Rel (run >>= f) (run' >>= g)

namespace Congruence

variable {σ τ α β γ : Type} (K : Congruence σ τ)

def Allows (fault : Fault) : Prop := ∀ {α : Type}, K.Rel (raise fault : Run σ α) (raise fault)

variable {K}

theorem ofExcept_bind {x : Except Fault α} {f : α → Run σ β} {g : α → Run τ β}
    (hfault : ∀ e, x = .error e → K.Allows e) (h : ∀ a, x = .ok a → K.Rel (f a) (g a)) :
    K.Rel (Run.ofExcept x >>= f) (Run.ofExcept x >>= g) := by
  cases x with
  | ok a => exact h a rfl
  | error e => exact hfault e rfl

theorem ofExcept {x : Except Fault α} (hfault : ∀ e, x = .error e → K.Allows e) :
    K.Rel (Run.ofExcept x) (Run.ofExcept x) := by
  cases x with
  | ok a => exact K.pure a
  | error e => exact hfault e rfl

/-- What comes after a run over a list may count on as many results. -/
theorem mapM_bind {f : γ → Run σ α} {g : γ → Run τ α} {as : List γ} {k : List α → Run σ β} {l : List α → Run τ β}
    (h : ∀ a ∈ as, K.Rel (f a) (g a)) (hkl : ∀ results, results.length = as.length → K.Rel (k results) (l results)) :
    K.Rel (as.mapM f >>= k) (as.mapM g >>= l) := by
  induction as generalizing k l with
  | nil => exact hkl [] rfl
  | cons a as ih =>
    rw [List.mapM_cons, List.mapM_cons, bind_assoc, bind_assoc]
    refine K.bind (h a (List.mem_cons_self ..)) fun b => ?_
    rw [bind_assoc, bind_assoc]
    refine ih (fun c hc => h c (List.mem_cons_of_mem _ hc)) fun results hlen => ?_
    exact hkl (b :: results) (congrArg Nat.succ hlen)

theorem foldlM {f : β → γ → Run σ β} {g : β → γ → Run τ β} {as : List γ} (h : ∀ a ∈ as, ∀ b, K.Rel (f b a) (g b a))
    (b : β) : K.Rel (as.foldlM f b) (as.foldlM g b) := by
  induction as generalizing b with
  | nil => exact K.pure b
  | cons a as ih =>
    rw [List.foldlM_cons, List.foldlM_cons]
    refine K.bind (h a (List.mem_cons_self ..) b) fun c => ?_
    exact ih (fun d hd => h d (List.mem_cons_of_mem _ hd)) c

theorem forM {f : γ → Run σ Unit} {g : γ → Run τ Unit} {as : List γ} (h : ∀ a ∈ as, K.Rel (f a) (g a)) :
    K.Rel (as.forM f) (as.forM g) := by
  induction as with
  | nil => exact K.pure ()
  | cons a as ih => exact K.bind (h a (List.mem_cons_self ..)) fun _ => ih fun c hc => h c (List.mem_cons_of_mem _ hc)

theorem repeatWhile {test : Run σ Bool} {test' : Run τ Bool} {body : Run σ α} {body' : Run τ α}
    (hgiveUp : K.Rel (giveUp : Run σ Unit) giveUp) (ht : K.Rel test test') (hb : K.Rel body body') (rounds : Nat) :
    K.Rel (Run.repeatWhile test body rounds) (Run.repeatWhile test' body' rounds) := by
  induction rounds with
  | zero => exact hgiveUp
  | succ rounds ih =>
    refine K.bind ht fun holds => ?_
    cases holds with
    | false => exact K.pure ()
    | true => exact K.bind hb fun _ => ih

end Congruence

end Scriptling.Run
