/-
  Scriptling.Proofs.Eval.Containment — what an evaluation does to the names in scope.

  Evaluating an expression in the last frame of a stack leaves the names of the frames below as
  they are, and adds names to that frame only where the expression itself assigns them: a call
  may give the variables of its callers other values, but neither adds nor removes one
  (`eval_contained`). So a name that has been readable in an activation stays readable until that
  activation returns.
-/

import Scriptling.Proofs.Eval.Remembering

namespace Scriptling

open Run

namespace Frames

/-- What is said of the frame of an evaluation and of whether frame `k` binds `x` is an invariant
    if it stands entering and leaving a call, and assigning, which may add `x` to the frame of the
    evaluation. -/
def tracking (k : Nat) (x : String) (Holds : Nat → Prop → Prop)
    (le : ∀ {frame B}, Holds frame B → k ≤ frame)
    (assign : ∀ {frame B B'}, Holds frame B → (B → B') → (B' → B ∨ k = frame) → Holds frame B')
    (enter : ∀ {frame B}, Holds frame B → Holds (frame + 1) B)
    (leave : ∀ {frame B B'}, Holds frame B → Holds (frame + 1) B' → Holds frame B') : Invariant where
  Holds _ frame frames := frames.OnTop frame ∧ Holds frame (frames.Binds k x)
  onTop h := h.1
  assign := by
    intro _ frame frames h y v
    obtain ⟨htop, h⟩ := h
    refine ⟨htop.assigned y v, assign h (fun hb => hb.assigned htop.live y v) fun hb => ?_⟩
    exact (binds_assigned htop.live hb).imp_right And.left
  enter := by
    intro _ frame frames h _ entries
    obtain ⟨htop, h⟩ := h
    have hlive : k < frames.depth := Nat.lt_of_le_of_lt (le h) htop.live
    exact ⟨htop.enter entries, by rw [binds_enter hlive]; exact enter h⟩
  leave := by
    intro _ frame before frames frames' hbefore h hpop
    obtain ⟨htop', hown⟩ := h.1.of_pop hpop
    refine ⟨htop', ?_⟩
    rw [binds_congr (hown k (le hbefore.2))]
    exact leave hbefore.2 h.2

def fixed (k : Nat) (x : String) (bound : Prop) : Invariant :=
  tracking k x (fun frame B => k < frame ∧ (B ↔ bound)) (fun h => Nat.le_of_lt h.1)
    (fun h hto hfrom => ⟨h.1, ⟨fun hB' => h.2.mp ((hfrom hB').resolve_right (Nat.ne_of_lt h.1)),
      fun hb => hto (h.2.mpr hb)⟩⟩)
    (fun h => ⟨Nat.lt_succ_of_lt h.1, h.2⟩) (fun h h' => ⟨h.1, h'.2⟩)

/-- A name that is bound in frame `i` stays bound there, as long as no frame up to `j` is released. -/
def lasting {i j : Nat} (hij : i ≤ j) (x : String) : Invariant :=
  tracking i x (fun frame B => j ≤ frame ∧ B) (fun h => Nat.le_trans hij h.1) (fun h hto _ => ⟨h.1, hto h.2⟩)
    (fun h => ⟨Nat.le_succ_of_le h.1, h.2⟩) (fun h h' => ⟨h.1, h'.2⟩)

end Frames

/-! ## Evaluations -/

variable {functions : Functions} {fuel k : Nat}

/-- A call neither adds nor removes a name in the frames of its callers. -/
theorem invoke_binds (f : Function) (values : List Value) {j : Nat} (hj : j ≤ k) (x : String) (bound : Prop) :
    Eval.Agree (fun frames => frames.OnTop k ∧ (frames.Binds j x ↔ bound))
      (invoke (eval functions fuel) f values k) (invoke (eval functions fuel) f values k) := by
  -- Seen from the body, the frames of the callers are below the top.
  have hbody := (Frames.fixed j x bound).eval_agree functions fuel 1 (k + 1) f.body
  refine invoke_agree (fun _ h => h.1.2) ?_ hbody ?_
  · intro frames entries h _
    obtain ⟨htop, hbound⟩ := h
    refine ⟨htop.enter entries, Nat.lt_succ_of_le hj, ?_⟩
    rwa [Frames.binds_enter (Nat.lt_of_le_of_lt hj htop.live)]
  · intro before frames _ h
    obtain ⟨htop, -, hbound⟩ := h
    obtain ⟨frames', hpop, htop', hown⟩ := htop.pop
    refine ⟨frames', hpop, htop', ?_⟩
    rwa [Frames.binds_congr (hown j hj)]

/-- A name that the expression does not assign is not added to the frame. -/
theorem eval_not_binds {e : Expr} {x : String} (hx : ∀ c, ¬ (Expr.assign x c).OccursIn e) :
    Eval.Agree (fun frames => frames.OnTop k ∧ (frames.Binds k x ↔ False)) (eval functions fuel k e)
      (eval functions fuel k e) := by
  induction fuel generalizing e with
  | zero => exact Alike.giveUp
  | succ fuel ih =>
    rw [eval_succ]
    refine evalNode_agree (fun c hc => ih fun d hd => hx d (.child hc hd)) ?_ fun f values => ?_
    · intro y c he v frames h
      subst he
      obtain ⟨htop, hnot⟩ := h
      refine ⟨_, htop.1.assign_eq htop.live y v, htop.assigned y v, fun hb => ?_, False.elim⟩
      rcases Frames.binds_assigned htop.live hb with hb | ⟨-, rfl⟩
      · exact hnot.mp hb
      · exact hx c (.root _)
    · exact invoke_binds f values (Nat.le_refl k) x False

/-- Evaluating an expression in the last frame `k` of a stack, whether it ends with a value or
    with a fault, leaves the names of the frames below as they are and removes none from frame
    `k`; the names it adds there are assigned in the expression itself. A call leaves the names
    of all its callers as they are. A name that can be read from frame `k` or one below it can be
    read there in the end. A name that has once been readable from a frame, whether of the evaluation
    or of a call made on the way, is readable from it whenever an evaluation begins or ends until the
    frame is released. -/
theorem eval_contained (functions : Functions) (fuel : Nat) (e : Expr) {k : Nat} {m : Machine}
    (stack : m.frames.IsStack) (top : k + 1 = m.frames.depth) :
    (∀ m', (eval functions fuel k e m).EndsIn m' →
      m'.frames.OnTop k ∧
        (∀ j < k, ∀ x, m'.frames.Binds j x ↔ m.frames.Binds j x) ∧
          (∀ x, m.frames.Binds k x → m'.frames.Binds k x) ∧
            ∀ x, m'.frames.Binds k x → ¬ m.frames.Binds k x → ∃ c, (Expr.assign x c).OccursIn e) ∧
      (∀ f values m', (invoke (eval functions fuel) f values k m).EndsIn m' →
        ∀ j ≤ k, ∀ x, m'.frames.Binds j x ↔ m.frames.Binds j x) ∧
        (∀ j ≤ k, ∀ x, (m.frames.read? j x).isSome →
          ∀ m', (eval functions fuel k e m).EndsIn m' → (m'.frames.read? j x).isSome) ∧
          ∀ j x alarm, (evalRemembering j x alarm functions fuel k e ⟨m, false⟩).map Watch.machine =
            eval functions fuel k e m := by
  have htop : m.frames.OnTop k := ⟨stack, top⟩
  refine ⟨fun m' hends => ⟨?_, ?_, ?_, ?_⟩, fun f values m' hends j hj x => ?_, fun j hj x hread m' hends => ?_,
    fun j x alarm => ?_⟩
  · exact (Frames.topmost.eval_agree functions fuel 0 k e).of_endsIn htop hends
  · intro j hj x
    have hfixed := (Frames.fixed j x (m.frames.Binds j x)).eval_agree functions fuel 0 k e
    exact (hfixed.of_endsIn ⟨htop, hj, Iff.rfl⟩ hends).2.2
  · intro x hbinds
    have hlasting := (Frames.lasting (Nat.le_refl k) x).eval_agree functions fuel 0 k e
    exact (hlasting.of_endsIn ⟨htop, Nat.le_refl k, hbinds⟩ hends).2.2
  · intro x hbinds hnot
    refine Classical.byContradiction fun hnone => ?_
    have hx : ∀ c, ¬ (Expr.assign x c).OccursIn e := fun c hc => hnone ⟨c, hc⟩
    exact ((eval_not_binds hx).of_endsIn ⟨htop, iff_false_intro hnot⟩ hends).2.mp hbinds
  · exact ((invoke_binds f values hj x (m.frames.Binds j x)).of_endsIn ⟨htop, Iff.rfl⟩ hends).2
  · -- The frame that binds the name keeps it, and it is seen from frame `j` as long as that is there.
    obtain ⟨i, hi, hbinds⟩ := (htop.read?_isSome_iff hj x).mp hread
    have hlasting := (Frames.lasting hi x).eval_agree functions fuel 0 k e
    obtain ⟨htop', -, hbinds'⟩ := hlasting.of_endsIn ⟨htop, hj, hbinds⟩ hends
    exact (htop'.read?_isSome_iff hj x).mpr ⟨i, hi, hbinds'⟩
  · have hfollows : Watch.Follows j x k ⟨m, false⟩ m := ⟨rfl, htop, fun h => by cases h⟩
    exact (evalRemembering_alike j x alarm functions fuel k e _ _ hfollows).map_eq fun _ _ h => h.1

/-- `f` gives a variable of its caller another value, makes a local one, and fails. -/
def Functions.overwriting : Functions := Bindings.empty.insert "f" ⟨"f", ["p"],
  .block [.assign "x" (.var "p"), .assign "y" (.int 3), .binary .divide (.var "x") (.int 0)]⟩

def Expr.overwriter : Expr := .block [.block [.assign "z" (.int 2), .println (.var "z")], .call "f" [.var "z"]]

def Machine.oneVariable : Machine := { frames := Frames.initial.bind 0 "x" (.int 1) }

theorem eval_contained_overwriting :
    Machine.oneVariable.frames.IsStack ∧ 0 + 1 = Machine.oneVariable.frames.depth ∧
      ∃ m', eval .overwriting 9 0 Expr.overwriter Machine.oneVariable = .fault .divisionByZero m' ∧
        m'.frames.get? 0 "x" = some (.int 2) ∧ ¬ m'.frames.Binds 0 "y" ∧ m'.frames.Binds 0 "z" ∧
          (∃ c, (Expr.assign "z" c).OccursIn Expr.overwriter) ∧
          ∀ j x alarm, (evalRemembering j x alarm .overwriting 9 0 Expr.overwriter ⟨Machine.oneVariable, false⟩).map
            Watch.machine = .fault .divisionByZero m' := by
  have hstack : Machine.oneVariable.frames.IsStack := by decide
  obtain ⟨hends, -, -, hwatched⟩ := eval_contained .overwriting 9 Expr.overwriter hstack (k := 0) rfl
  refine ⟨hstack, rfl, _, rfl, rfl, by decide, by decide, ?_, hwatched⟩
  exact (hends _ (.inr ⟨_, rfl⟩)).2.2.2 "z" (by decide) (by decide)

end Scriptling
