/-
  Scriptling.Proofs.Eval.Termination — without loops every evaluation ends.

  A call evaluates a body that is no part of the calling expression, but it also opens a frame, and
  no more than `maxCalls` frames can be open above the global one. So evaluations nest no deeper
  than the height of the expression and, for each call that can still be made, that of the highest
  body (`eval_ends`).
-/

import Scriptling.Proofs.Eval.Containment

namespace Scriptling

/-! ## Trees without loops -/

def Expr.isLoop : Expr → Bool
  | .whileDo _ _ => true
  | _ => false

def Expr.LoopFree (e : Expr) : Prop := ∀ node : Expr, node.OccursIn e → node.isLoop = false

instance (e : Expr) : Decidable e.LoopFree :=
  inferInstanceAs (Decidable (∀ node : Expr, node.OccursIn e → node.isLoop = false))

theorem Expr.LoopFree.child {e c : Expr} (h : e.LoopFree) (hc : c ∈ e.children) : c.LoopFree :=
  fun node hnode => h node (.child hc hnode)

theorem Expr.height_pos (e : Expr) : 0 < e.height := by
  cases e <;> exact Nat.succ_pos _

/-- No body of a function has a loop, or is higher than `bound`. -/
def Functions.Plain (bound : Nat) (functions : Functions) : Prop :=
  ∀ name f, functions.find? name = some f → f.body.LoopFree ∧ f.body.height ≤ bound

/-! ## Runs that end -/

namespace Run

variable {σ α β : Type} {P : σ → Prop}

def Ends (P : σ → Prop) (run : Run σ α) : Prop := ∀ s, P s → ∃ s', (run s).EndsIn s' ∧ P s'

theorem Ends.pure (a : α) : Ends P (pure a : Run σ α) := fun s hs => ⟨s, .inl ⟨a, rfl⟩, hs⟩

theorem Ends.raise (e : Fault) : Ends P (raise e : Run σ α) := fun s hs => ⟨s, .inr ⟨e, rfl⟩, hs⟩

theorem Ends.bind {run : Run σ α} {f : α → Run σ β} (h : Ends P run) (hf : ∀ a, Ends P (f a)) :
    Ends P (run >>= f) := by
  intro s hs
  obtain ⟨s', hends, hs'⟩ := h s hs
  rcases hends with ⟨a, hrun⟩ | ⟨e, hrun⟩
  · rw [bind_apply, hrun]
    exact hf a s' hs'
  · rw [bind_apply, hrun]
    exact ⟨s', .inr ⟨e, rfl⟩, hs'⟩

def Ends.congruence (P : σ → Prop) : Congruence σ σ where
  Rel run _ := Ends P run
  pure := Ends.pure
  bind := Ends.bind

theorem Ends.foldlM {γ : Type} {f : β → γ → Run σ β} {as : List γ} (h : ∀ a ∈ as, ∀ b, Ends P (f b a)) (b : β) :
    Ends P (as.foldlM f b) :=
  Congruence.foldlM (K := Ends.congruence P) (g := f) h b

end Run

open Run

/-! ## Evaluations that end -/

abbrev Eval.EndsAt {α : Type} (frame : Nat) (evaluation : Eval α) : Prop :=
  Ends (fun m : Machine => m.frames.OnTop frame) evaluation

variable {frame : Nat}

theorem Eval.read_ends (x : String) : Eval.EndsAt frame (Eval.read frame x) := by
  intro m hm
  unfold Eval.read
  cases m.frames.read? frame x with
  | some v => exact ⟨m, .inl ⟨v, rfl⟩, hm⟩
  | none => exact ⟨m, .inr ⟨_, rfl⟩, hm⟩

theorem Eval.assign_ends (x : String) (v : Value) : Eval.EndsAt frame (Eval.assign frame x v) := by
  intro m hm
  simp only [Eval.assign, Eval.changeFrames, hm.1.assign_eq hm.live]
  exact ⟨_, .inl ⟨(), rfl⟩, hm.assigned x v⟩

theorem Eval.printLine_ends (text : String) : Eval.EndsAt frame (Eval.printLine text) := by
  intro m hm
  unfold Eval.printLine
  dsimp only
  split
  · exact ⟨_, .inl ⟨(), rfl⟩, hm⟩
  · exact ⟨_, .inr ⟨_, rfl⟩, hm⟩

/-- A call ends if its body does, and it has one only as long as calls may be made. -/
theorem invoke_ends {evalBody : Nat → Expr → Eval Value} {f : Function}
    (hbody : frame < maxCalls → Eval.EndsAt (frame + 1) (evalBody (frame + 1) f.body)) (values : List Value) :
    Eval.EndsAt frame (invoke evalBody f values frame) := by
  intro m hm
  rw [invoke_eq, Frames.nextId, ← hm.2]
  split
  · split
    · exact ⟨m, .inr ⟨_, rfl⟩, hm⟩
    · rename_i hcalls
      obtain ⟨m₁, hends, hm₁⟩ := hbody (by omega)
        { m with frames := m.frames.enter frame (f.params.zip values) } (hm.enter (f.params.zip values))
      obtain ⟨left, hpop, hleft, -⟩ := hm₁.pop
      refine ⟨{ m₁ with frames := left }, ?_, hleft⟩
      rcases hends with ⟨v, hrun⟩ | ⟨e, hrun⟩
      · rw [hrun]
        simp only [Outcome.leave, hpop]
        exact .inl ⟨v, rfl⟩
      · rw [hrun]
        simp only [Outcome.leave, hpop]
        exact .inr ⟨e, rfl⟩
  · exact ⟨m, .inr ⟨_, rfl⟩, hm⟩

/-- A node that is no loop ends if the nodes below it do, and the calls it makes. -/
theorem evalNode_ends {functions : Functions} {rounds : Nat} {eval : Expr → Eval Value}
    {evalBody : Nat → Expr → Eval Value} {e : Expr} (hloop : e.isLoop = false)
    (hchild : ∀ c ∈ e.children, Eval.EndsAt frame (eval c))
    (hinvoke : ∀ name f, functions.get name = .ok f → ∀ values, Eval.EndsAt frame (invoke evalBody f values frame)) :
    Eval.EndsAt frame (evalNode functions rounds eval evalBody frame e) := by
  rw [← evalNodeBy_invoke]
  let call (f : Function) (values : List Value) : Eval Value := invoke evalBody f values frame
  have hnode : (Ends.congruence fun m : Machine => m.frames.OnTop frame).Rel
      (evalNodeBy functions rounds eval call frame e) (evalNodeBy functions rounds eval call frame e) := by
    refine evalNodeOn_related hchild (fun fault _ => Ends.raise fault) (fun x _ => Eval.read_ends x)
      (fun x _ _ v => Eval.assign_ends x v) (fun v => Eval.printLine_ends v.render) ?_
      (fun name f hf values _ => hinvoke name f hf values)
    intro c b he
    subst he
    cases hloop
  exact hnode

/-- Evaluations nest no deeper than the expression is high and, for each call that can still be
    made, the highest body. -/
theorem eval_ends {functions : Functions} {bound : Nat} (hplain : functions.Plain bound) {fuel : Nat} {e : Expr}
    (he : e.LoopFree) (hfuel : e.height + (maxCalls - frame) * bound ≤ fuel) :
    Eval.EndsAt frame (eval functions fuel frame e) := by
  induction fuel generalizing frame e with
  | zero =>
    have := e.height_pos
    omega
  | succ fuel ih =>
    rw [eval_succ]
    refine evalNode_ends (he e (.root e)) (fun c hc => ?_) fun name f hf values => ?_
    · have hlt := Expr.height_lt_of_mem_children hc
      exact ih (he.child hc) (by omega)
    · obtain ⟨hloop, hheight⟩ := hplain name f (Functions.find?_of_get hf)
      refine invoke_ends (fun hcalls => ih hloop ?_) values
      -- The call takes one of those that could be made, and with it the height of one body.
      have hone : (maxCalls - frame) * bound = (maxCalls - (frame + 1)) * bound + bound := by
        rw [← Nat.succ_mul]
        congr 1
        omega
      have := e.height_pos
      omega

end Scriptling
