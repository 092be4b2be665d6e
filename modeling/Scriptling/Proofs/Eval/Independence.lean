/-
  Scriptling.Proofs.Eval.Independence — variables that are not mentioned do not matter.

  Two stacks of frames may differ in names that an expression and the functions neither read nor
  assign. Evaluations on them go alike: they end with the same value or the same fault, or both go
  on, and print the same; the frames still bind the names that are mentioned alike, and no other
  binding has changed (`eval_independent`).
-/

import Scriptling.Proofs.Eval.Containment

namespace Scriptling

open Run

/-! ## Names that are mentioned -/

def Expr.variable? : Expr → Option String
  | .var x | .assign x _ => some x
  | _ => none

/-- Every variable that is read or assigned in the tree is one of `X`. -/
def Expr.Within (X : String → Prop) (e : Expr) : Prop :=
  ∀ node : Expr, node.OccursIn e → ∀ x ∈ node.variable?, X x

instance (X : String → Prop) [DecidablePred X] (e : Expr) : Decidable (e.Within X) :=
  inferInstanceAs (Decidable (∀ node : Expr, node.OccursIn e → ∀ x ∈ node.variable?, X x))

def Functions.Within (X : String → Prop) (functions : Functions) : Prop :=
  ∀ name f, functions.find? name = some f → f.body.Within X

variable {X : String → Prop}

theorem Expr.Within.child {e c : Expr} (h : e.Within X) (hc : c ∈ e.children) : c.Within X :=
  fun node hnode => h node (.child hc hnode)

/-! ## Frames -/

namespace Frames

def SameOn (X : String → Prop) (frames frames' : Frames) : Prop :=
  ∀ k x, X x → frames.get? k x = frames'.get? k x

variable {frames frames' : Frames} {frame : Nat} {x : String}

theorem SameOn.binds_iff (h : SameOn X frames frames') (hx : X x) (k : Nat) :
    frames.Binds k x ↔ frames'.Binds k x := by
  unfold Binds
  rw [h k x hx]

theorem SameOn.nearest_eq (h : SameOn X frames frames') (hx : X x) (k : Nat) :
    frames.nearest x k = frames'.nearest x k := by
  induction k with
  | zero =>
    unfold nearest
    simp only [h.binds_iff hx 0]
  | succ k ih =>
    unfold nearest
    simp only [h.binds_iff hx (k + 1), ih]

/-- A name of `X` is read alike. -/
theorem SameOn.read?_eq (h : SameOn X frames frames') (hx : X x) (htop : frames.OnTop frame)
    (htop' : frames'.OnTop frame) : frames.read? frame x = frames'.read? frame x := by
  rw [read?, read?, htop.1.owner?_eq htop.live, htop'.1.owner?_eq htop'.live, h.nearest_eq hx]
  cases frames'.nearest x frame with
  | none => rfl
  | some owner => exact h owner x hx

/-- Assigning a name of `X` keeps what is alike. -/
theorem SameOn.assigned (h : SameOn X frames frames') (hx : X x) (v : Value) (hlive : frame < frames.depth)
    (hlive' : frame < frames'.depth) : SameOn X (frames.assigned frame x v) (frames'.assigned frame x v) := by
  intro k y hy
  unfold Frames.assigned
  have howner := owner_live hlive' x
  rw [get?_bind _ _ _ _ _ _ (owner_live hlive x), get?_bind _ _ _ _ _ _ howner, h.nearest_eq hx, h k y hy]

/-- Assigning a name of `X` leaves every other name as it is. -/
theorem sameOn_assigned (hx : X x) (v : Value) (hlive : frame < frames.depth) :
    SameOn (fun y => ¬ X y) frames (frames.assigned frame x v) := by
  intro k y hy
  unfold Frames.assigned
  rw [get?_bind _ _ _ _ _ _ (owner_live hlive x), if_neg]
  rintro ⟨-, rfl⟩
  exact hy hx

theorem SameOn.trans {frames'' : Frames} (h : SameOn X frames frames') (h' : SameOn X frames' frames'') :
    SameOn X frames frames'' :=
  fun k x hx => (h k x hx).trans (h' k x hx)

/-- A call with the same arguments is entered alike. -/
theorem SameOn.enter (h : SameOn X frames frames') (hdepth : frames.depth = frames'.depth) (caller : Nat)
    (entries : List (String × Value)) : SameOn X (frames.enter caller entries) (frames'.enter caller entries) := by
  intro k y hy
  have hsame := h k y hy
  rw [get?_eq, get?_eq] at hsame
  rw [get?_eq, get?_eq, own_enter, own_enter, hdepth]
  split
  · rfl
  · exact hsame

/-- Frames above the last one bind nothing. -/
theorem OnTop.get?_eq_none (h : frames.OnTop frame) {k : Nat} (hk : frame < k) (x : String) :
    frames.get? k x = none := by
  cases hget : frames.get? k x with
  | none => rfl
  | some v =>
    have hlive : k < frames.depth := live_of_binds (x := x) (by rw [Binds, hget]; rfl)
    have := h.2
    omega

theorem get?_of_own {k : Nat} (h : frames'.own k = frames.own k) (x : String) :
    frames'.get? k x = frames.get? k x := by
  rw [get?_eq, get?_eq, h]

/-- Frames that agree up to the last one agree. -/
theorem sameOn_of_le (htop : frames.OnTop frame) (htop' : frames'.OnTop frame)
    (h : ∀ k ≤ frame, ∀ x, X x → frames.get? k x = frames'.get? k x) : SameOn X frames frames' := by
  intro k x hx
  by_cases hk : k ≤ frame
  · exact h k hk x hx
  · rw [htop.get?_eq_none (Nat.not_le.mp hk), htop'.get?_eq_none (Nat.not_le.mp hk)]

/-- What a call leaves as it is, from when it is entered until its frame is to be released, is as it
    was before the call. -/
theorem sameOn_of_call {entries : List (String × Value)} {left : Frames} (htop : frames.OnTop frame)
    (htop' : left.OnTop frame) (h : SameOn X (frames.enter frame entries) frames')
    (hown : ∀ k ≤ frame, left.own k = frames'.own k) : SameOn X frames left := by
  refine sameOn_of_le htop htop' fun k hk x hx => ?_
  have hentered : (frames.enter frame entries).own k = frames.own k := by
    rw [own_enter, if_neg]
    have := htop.2
    omega
  rw [get?_of_own (hown k hk), ← get?_of_own hentered]
  exact h k x hx

end Frames

/-! ## Machines -/

/-- Two machines in the course of two evaluations in `frame` that began on the frames `before` and
    `before'`: what is mentioned is alike, and the rest is as it was. -/
structure Machine.Twin (X : String → Prop) (frame : Nat) (before before' : Frames) (m m' : Machine) : Prop where
  top : m.frames.OnTop frame
  top' : m'.frames.OnTop frame
  on : m.frames.SameOn X m'.frames
  off : before.SameOn (fun x => ¬ X x) m.frames
  off' : before'.SameOn (fun x => ¬ X x) m'.frames
  sink : m.sink = m'.sink

variable {frame : Nat} {before before' : Frames} {m m' : Machine}

theorem Machine.Twin.read {x : String} (h : m.Twin X frame before before' m') (hx : X x) :
    (Eval.read frame x m).Alike (Twin X frame before before') (Eval.read frame x m') := by
  unfold Eval.read
  rw [h.on.read?_eq hx h.top h.top']
  cases m'.frames.read? frame x with
  | some v => exact .done v h
  | none => exact .fault (by simp) h

theorem Machine.Twin.assign {x : String} (h : m.Twin X frame before before' m') (hx : X x) (v : Value) :
    (Eval.assign frame x v m).Alike (Twin X frame before before') (Eval.assign frame x v m') := by
  simp only [Eval.assign, Eval.changeFrames, h.top.1.assign_eq h.top.live, h.top'.1.assign_eq h.top'.live]
  refine .done () ⟨h.top.assigned x v, h.top'.assigned x v, h.on.assigned hx v h.top.live h.top'.live, ?_, ?_, h.sink⟩
  · exact h.off.trans (Frames.sameOn_assigned hx v h.top.live)
  · exact h.off'.trans (Frames.sameOn_assigned hx v h.top'.live)

theorem Machine.Twin.printLine (h : m.Twin X frame before before' m') (text : String) :
    (Eval.printLine text m).Alike (Twin X frame before before') (Eval.printLine text m') := by
  unfold Eval.printLine
  rw [h.sink]
  dsimp only
  split
  · exact .done () ⟨h.top, h.top', h.on, h.off, h.off', rfl⟩
  · exact .fault (by simp) ⟨h.top, h.top', h.on, h.off, h.off', rfl⟩

/-- A call goes alike if its body does, seen from the frames it is entered with. -/
theorem Machine.Twin.invoke {evalBody : Nat → Expr → Eval Value} {f : Function} (h : m.Twin X frame before before' m')
    (hbody : ∀ entered entered', Run.Alike (Twin X (frame + 1) entered entered') (evalBody (frame + 1) f.body)
      (evalBody (frame + 1) f.body)) (values : List Value) :
    (Scriptling.invoke evalBody f values frame m).Alike (Twin X frame before before')
      (Scriptling.invoke evalBody f values frame m') := by
  rw [invoke_eq, invoke_eq, Frames.nextId, Frames.nextId, ← h.top.2, ← h.top'.2]
  split
  · split
    · exact .fault (by simp) h
    · have hdepth : m.frames.depth = m'.frames.depth := h.top.2.symm.trans h.top'.2
      have hentered : Twin X (frame + 1) (m.frames.enter frame (f.params.zip values))
          (m'.frames.enter frame (f.params.zip values))
          { m with frames := m.frames.enter frame (f.params.zip values) }
          { m' with frames := m'.frames.enter frame (f.params.zip values) } :=
        ⟨h.top.enter _, h.top'.enter _, h.on.enter hdepth frame _, fun _ _ _ => rfl, fun _ _ _ => rfl, h.sink⟩
      refine (hbody _ _ _ _ hentered).leave fun m₁ m₁' h₁ => ?_
      obtain ⟨left, hpop, htop, hown⟩ := h₁.top.pop
      obtain ⟨left', hpop', htop', hown'⟩ := h₁.top'.pop
      refine ⟨left, left', hpop, hpop', htop, htop', ?_, ?_, ?_, h₁.sink⟩
      · refine Frames.sameOn_of_le htop htop' fun k hk x hx => ?_
        rw [Frames.get?_of_own (hown k hk), Frames.get?_of_own (hown' k hk)]
        exact h₁.on k x hx
      · exact h.off.trans (Frames.sameOn_of_call h.top htop h₁.off hown)
      · exact h.off'.trans (Frames.sameOn_of_call h.top' htop' h₁.off' hown')
  · exact .fault (by simp) h

/-! ## Evaluations -/

/-- Evaluations of an expression on machines that are alike in what is mentioned go alike. -/
theorem eval_twin {functions : Functions} (hfunctions : functions.Within X) (fuel frame : Nat) {e : Expr}
    (he : e.Within X) (before before' : Frames) :
    Run.Alike (Machine.Twin X frame before before') (eval functions fuel frame e) (eval functions fuel frame e) := by
  induction fuel generalizing frame e before before' with
  | zero => exact Alike.giveUp
  | succ fuel ih =>
    rw [eval_succ]
    refine evalNode_alike (fun c hc => ih frame (he.child hc) before before') ?_ ?_ ?_ ?_
    · intro x hvar m m' h
      subst hvar
      exact h.read (he _ (.root _) x rfl)
    · intro x c hassign v m m' h
      subst hassign
      exact h.assign (he _ (.root _) x rfl) v
    · intro text m m' h
      exact h.printLine text
    · intro name f hf values m m' h
      have hbody := hfunctions name f (Functions.find?_of_get hf)
      exact h.invoke (fun entered entered' => ih (frame + 1) hbody entered entered') values

/-- Let all variables that are read or assigned in an expression and in the bodies of the functions
    be among `X`; parameters need not be. On two stacks with as many frames, which bind the names of
    `X` alike, and with the same sink, the expression is evaluated in the last frame to the same
    value or the same fault, or on both without end; the same is printed, the frames bind the names
    of `X` alike again, and every other binding is as it was before. -/
theorem eval_independent {functions : Functions} {e : Expr} (within : e.Within X) (bodies : functions.Within X)
    {k : Nat} {m m' : Machine} (stack : m.frames.IsStack) (stack' : m'.frames.IsStack)
    (top : k + 1 = m.frames.depth) (top' : k + 1 = m'.frames.depth) (same : m.frames.SameOn X m'.frames)
    (sink : m.sink = m'.sink) (fuel : Nat) :
    (eval functions fuel k e m).Alike
      (fun after after' =>
        after.sink = after'.sink ∧ after.frames.depth = k + 1 ∧ after'.frames.depth = k + 1 ∧
          after.frames.SameOn X after'.frames ∧
            m.frames.SameOn (fun x => ¬ X x) after.frames ∧ m'.frames.SameOn (fun x => ¬ X x) after'.frames)
      (eval functions fuel k e m') := by
  have hstart : m.Twin X k m.frames m'.frames m' :=
    ⟨⟨stack, top⟩, ⟨stack', top'⟩, same, fun _ _ _ => rfl, fun _ _ _ => rfl, sink⟩
  refine (eval_twin bodies fuel k within m.frames m'.frames m m' hstart).imp fun after after' h => ?_
  exact ⟨h.sink, h.top.2.symm, h.top'.2.symm, h.on, h.off, h.off'⟩

def Machine.twoVariables (v : Value) : Machine :=
  { frames := (Frames.initial.bind 0 "x" (.int 1)).bind 0 "unused" v }

def mentioned (x : String) : Prop := x ∈ ["x", "y", "z", "p"]

instance : DecidablePred mentioned := fun x => inferInstanceAs (Decidable (x ∈ ["x", "y", "z", "p"]))

theorem eval_independent_overwriting :
    Expr.overwriter.Within mentioned ∧ Functions.overwriting.Within mentioned ∧
      (Machine.twoVariables (.int 7)).frames.SameOn mentioned (Machine.twoVariables .unit).frames ∧
        ∃ after after',
          eval .overwriting 9 0 Expr.overwriter (Machine.twoVariables (.int 7)) = .fault .divisionByZero after ∧
            eval .overwriting 9 0 Expr.overwriter (Machine.twoVariables .unit) = .fault .divisionByZero after' ∧
              after.frames.get? 0 "x" = after'.frames.get? 0 "x" ∧
                after.frames.get? 0 "unused" = some (.int 7) ∧ after'.frames.get? 0 "unused" = some .unit := by
  have hwithin : Expr.overwriter.Within mentioned := by decide
  have hbodies : Functions.overwriting.Within mentioned := by
    intro name f hf
    rw [Functions.overwriting, Bindings.find?_insert] at hf
    split at hf
    · cases hf
      decide
    · cases hf
  have hsame : (Machine.twoVariables (.int 7)).frames.SameOn mentioned (Machine.twoVariables .unit).frames := by
    intro k x hx
    have hne : ¬ (k = 0 ∧ x = "unused") := by
      rintro ⟨-, rfl⟩
      revert hx
      decide
    have hother (v : Value) : (Machine.twoVariables v).frames.get? k x =
        (Frames.initial.bind 0 "x" (.int 1)).get? k x := by
      rw [Machine.twoVariables, Frames.get?_bind _ _ _ _ _ _ (by decide), if_neg hne]
    rw [hother, hother]
  refine ⟨hwithin, hbodies, hsame, _, _, rfl, rfl, ?_⟩
  have halike := eval_independent hwithin hbodies (k := 0) (by decide) (by decide) rfl rfl hsame rfl 9
  cases halike with
  | fault _ h =>
    obtain ⟨-, -, -, hon, hoff, hoff'⟩ := h
    exact ⟨hon 0 "x" (by decide), (hoff 0 "unused" (by decide)).symm, (hoff' 0 "unused" (by decide)).symm⟩

end Scriptling
