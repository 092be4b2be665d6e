/-
  Scriptling.Proofs.Eval.Invariant — what every evaluation keeps.

  An evaluation does three things to the frames: it binds a name that is assigned, it enters a
  call, and it leaves one. What is kept by these steps is kept by every evaluation, whatever the
  expression and however it ends. A `Frames.Invariant` is a family of properties with the three
  steps.
  - `opening_eq`, `invoke_eq`: a call in terms of `Frames.enter` and `Frames.pop`.
  - `evalWatched` raises an alarm as soon as an evaluation is entered on frames that are not in
    order. `Frames.Invariant.evalWatched_agree`: under an invariant that implies the order there
    is no alarm, and the invariant holds again in the end.
-/

import Scriptling.Proofs.Eval.Alike
import Scriptling.Proofs.Frames.Stack

namespace Scriptling

open Run

/-! ## Calls -/

def Outcome.leave (frame : Nat) : Outcome Machine Value → Outcome Machine Value
  | .done v m =>
    match m.frames.pop frame with
    | .ok frames => .done v { m with frames }
    | .error e => .fault (.misuse e) m
  | .fault e m =>
    match m.frames.pop frame with
    | .ok frames => .fault e { m with frames }
    | .error e => .fault (.misuse e) m
  | .unfinished => .unfinished

theorem forM_define (frame : Nat) (entries : List (String × Value)) (m : Machine) (hlive : frame < m.frames.depth) :
    (entries.forM (fun (x, v) => Eval.define frame x v) : Eval Unit) m =
      .done () { m with frames := entries.foldl (fun opened entry => opened.bind frame entry.1 entry.2) m.frames } := by
  induction entries generalizing m with
  | nil => rfl
  | cons entry entries ih =>
    obtain ⟨x, v⟩ := entry
    have hdef : Eval.define frame x v m = .done () { m with frames := m.frames.bind frame x v } := by
      simp only [Eval.define, Eval.changeFrames, Frames.define, hlive, if_true]
    simp only [List.forM_eq_forM, List.forM_cons, bind_apply, hdef]
    rw [← List.forM_eq_forM, ih _ (by simpa using hlive)]
    rfl

theorem leave_attempt (run : Eval Value) (frame : Nat) (m : Machine) :
    (attempt run >>= fun result => Eval.leave frame >>= fun _ => Run.ofExcept result : Eval Value) m =
      (run m).leave frame := by
  simp only [bind_apply, attempt, Eval.leave, Eval.changeFrames]
  cases run m with
  | done v m' => cases hpop : m'.frames.pop frame <;> simp [Outcome.leave, hpop]
  | fault e m' => cases hpop : m'.frames.pop frame <;> simp [Outcome.leave, hpop]
  | unfinished => rfl

def opening (f : Function) (values : List Value) (caller : Nat) : Eval Nat := do
  Run.ofExcept (f.checkArity f.name values.length)
  let frame ← Eval.enter caller
  (f.params.zip values).forM fun (param, value) => Eval.define frame param value
  pure frame

theorem invoke_opening (evalBody : Nat → Expr → Eval Value) (f : Function) (values : List Value) (caller : Nat) :
    invoke evalBody f values caller = (do
      let frame ← opening f values caller
      let result ← attempt (evalBody frame f.body)
      Eval.leave frame
      Run.ofExcept result) := by
  simp only [invoke, opening, bind_assoc, pure_bind]

theorem opening_eq (f : Function) (values : List Value) (caller : Nat) (m : Machine) :
    opening f values caller m =
      if values.length = f.params.length then
        if maxCalls < m.frames.depth then .fault .tooManyCalls m
        else .done m.frames.nextId { m with frames := m.frames.enter caller (f.params.zip values) }
      else .fault (.arity f.name f.params.length values.length) m := by
  unfold opening Function.checkArity
  rw [bind_apply]
  by_cases harity : values.length = f.params.length
  · simp only [harity, if_true, ofExcept_ok]
    rw [bind_apply, Eval.enter]
    by_cases hdepth : maxCalls < m.frames.depth
    · have hfull : maxCalls ≤ m.frames.depth - 1 := by omega
      simp only [hdepth, hfull, if_true]
    · have hfull : ¬ maxCalls ≤ m.frames.depth - 1 := by
        have hpos : 0 < maxCalls := by decide
        omega
      simp only [hdepth, hfull, if_false]
      rw [bind_apply, forM_define _ _ _ (by simp [Frames.nextId])]
      rfl
  · simp only [harity, if_false, ofExcept_error]

/-- A call evaluates the body in a new frame that binds the parameters, and releases it. -/
theorem invoke_eq (evalBody : Nat → Expr → Eval Value) (f : Function) (values : List Value) (caller : Nat)
    (m : Machine) :
    invoke evalBody f values caller m =
      if values.length = f.params.length then
        if maxCalls < m.frames.depth then .fault .tooManyCalls m
        else
          (evalBody m.frames.nextId f.body
            { m with frames := m.frames.enter caller (f.params.zip values) }).leave m.frames.nextId
      else .fault (.arity f.name f.params.length values.length) m := by
  rw [invoke_opening, bind_apply, opening_eq]
  by_cases harity : values.length = f.params.length
  · by_cases hdepth : maxCalls < m.frames.depth
    · simp only [harity, hdepth, if_true]
    · simp only [harity, hdepth, if_true, if_false]
      exact leave_attempt _ _ _
  · simp only [harity, if_false]

/-! ## Frames through an evaluation -/

abbrev Eval.Agree {α : Type} (P : Frames → Prop) : Eval α → Eval α → Prop := Run.Agree fun m => P m.frames

variable {P Q : Frames → Prop}

theorem Eval.read_agree (frame : Nat) (x : String) : Eval.Agree P (Eval.read frame x) (Eval.read frame x) := by
  intro m m' h
  obtain ⟨rfl, hm⟩ := h
  unfold Eval.read
  cases m.frames.read? frame x with
  | some v => exact .done v ⟨rfl, hm⟩
  | none => exact .fault (by simp) ⟨rfl, hm⟩

theorem Eval.printLine_agree (text : String) : Eval.Agree P (Eval.printLine text) (Eval.printLine text) := by
  intro m m' h
  obtain ⟨rfl, hm⟩ := h
  unfold Eval.printLine
  dsimp only
  split
  · exact .done () ⟨rfl, hm⟩
  · exact .fault (by simp) ⟨rfl, hm⟩

theorem Eval.assign_agree {frame : Nat} {x : String} {v : Value}
    (h : ∀ frames, P frames → ∃ frames', frames.assign frame x v = .ok frames' ∧ P frames') :
    Eval.Agree P (Eval.assign frame x v) (Eval.assign frame x v) := by
  intro m m' hm
  obtain ⟨rfl, hm⟩ := hm
  obtain ⟨frames', hassign, hP⟩ := h m.frames hm
  simp only [Eval.assign, Eval.changeFrames, hassign]
  exact .done () ⟨rfl, hP⟩

/-- Leaving a call leads from `S` to `R` if releasing the frame of the body does. -/
theorem Outcome.Alike.leave {R S : Machine → Machine → Prop} {frame : Nat} {x y : Outcome Machine Value}
    (h : x.Alike S y)
    (hleave : ∀ m m', S m m' → ∃ frames frames', m.frames.pop frame = .ok frames ∧ m'.frames.pop frame = .ok frames' ∧
      R { m with frames := frames } { m' with frames := frames' }) :
    (x.leave frame).Alike R (y.leave frame) := by
  cases h with
  | done v h =>
    obtain ⟨frames, frames', hpop, hpop', hR⟩ := hleave _ _ h
    simp only [Outcome.leave, hpop, hpop']
    exact .done v hR
  | fault he h =>
    obtain ⟨frames, frames', hpop, hpop', hR⟩ := hleave _ _ h
    simp only [Outcome.leave, hpop, hpop']
    exact .fault he hR
  | unfinished => exact .unfinished

variable {eval eval' : Expr → Eval Value} {evalBody evalBody' : Nat → Expr → Eval Value}

/-- A call keeps `P` if entering it leads from `P` to `Q`, the body keeps `Q`, and leaving leads back. -/
theorem invoke_agree {caller : Nat} {f : Function} {values : List Value}
    (htop : ∀ frames, P frames → caller + 1 = frames.depth)
    (henter : ∀ frames entries, P frames → frames.depth ≤ maxCalls → Q (frames.enter caller entries))
    (hbody : Eval.Agree Q (evalBody (caller + 1) f.body) (evalBody' (caller + 1) f.body))
    (hleave : ∀ before frames, P before → Q frames → ∃ frames', frames.pop (caller + 1) = .ok frames' ∧ P frames') :
    Eval.Agree P (invoke evalBody f values caller) (invoke evalBody' f values caller) := by
  intro m m' h
  obtain ⟨rfl, hm⟩ := h
  rw [invoke_eq, invoke_eq, Frames.nextId, ← htop m.frames hm]
  split
  · split
    · exact .fault (by simp) ⟨rfl, hm⟩
    · have hentered := henter m.frames (f.params.zip values) hm (by rw [← htop m.frames hm]; omega)
      refine (hbody _ _ ⟨rfl, hentered⟩).leave fun m₁ m₂ h => ?_
      obtain ⟨rfl, hQ⟩ := h
      obtain ⟨frames', hpop, hP⟩ := hleave m.frames m₁.frames hm hQ
      exact ⟨frames', frames', hpop, hpop, rfl, hP⟩
  · exact .fault (by simp) ⟨rfl, hm⟩

/-- A node keeps `P` if the nodes below it do, and assigning and calling. -/
theorem evalNode_agree {functions : Functions} {rounds frame : Nat} {e : Expr}
    (hchild : ∀ c ∈ e.children, Eval.Agree P (eval c) (eval' c))
    (hassign : ∀ x c, e = .assign x c → ∀ v frames, P frames →
      ∃ frames', frames.assign frame x v = .ok frames' ∧ P frames')
    (hinvoke : ∀ f values, Eval.Agree P (invoke evalBody f values frame) (invoke evalBody' f values frame)) :
    Eval.Agree P (evalNode functions rounds eval evalBody frame e)
      (evalNode functions rounds eval' evalBody' frame e) :=
  evalNode_alike hchild (fun x _ => Eval.read_agree frame x)
    (fun x c he v => Eval.assign_agree (hassign x c he v)) Eval.printLine_agree
    (fun _ f _ values => hinvoke f values)

/-! ## Invariants -/

/-- What holds of the frames whenever an evaluation begins or ends, given how many calls are
    active and in which frame it takes place: that is the last one of a stack. -/
structure Frames.Invariant where
  Holds : (calls frame : Nat) → Frames → Prop
  onTop : ∀ {calls frame frames}, Holds calls frame frames → frames.OnTop frame
  assign : ∀ {calls frame frames}, Holds calls frame frames → ∀ x v,
    Holds calls frame (frames.assigned frame x v)
  enter : ∀ {calls frame frames}, Holds calls frame frames → frames.depth ≤ maxCalls → ∀ entries,
    Holds (calls + 1) (frame + 1) (frames.enter frame entries)
  leave : ∀ {calls frame before frames frames'}, Holds calls frame before → Holds (calls + 1) (frame + 1) frames →
    frames.pop (frame + 1) = .ok frames' → Holds calls frame frames'

def Frames.topmost : Frames.Invariant where
  Holds _ frame frames := frames.OnTop frame
  onTop h := h
  assign h := h.assigned
  enter h _ := h.enter
  leave _ h hpop := (h.of_pop hpop).1

/-- Evaluates an expression while so many calls are active, and ends in `alarm` if an evaluation
    is entered on frames that are not in order. -/
def evalWatched (InOrder : Nat → Nat → Frames → Prop)
    [∀ calls frame frames, Decidable (InOrder calls frame frames)] (alarm : Outcome Machine Value)
    (functions : Functions) : (fuel calls frame : Nat) → Expr → Eval Value
  | 0, _, _, _ => giveUp
  | fuel + 1, calls, frame, e => fun m =>
    if InOrder calls frame m.frames then
      evalNode functions fuel (evalWatched InOrder alarm functions fuel calls frame)
        (evalWatched InOrder alarm functions fuel (calls + 1)) frame e m
    else alarm

theorem evalWatched_succ (InOrder : Nat → Nat → Frames → Prop)
    [∀ calls frame frames, Decidable (InOrder calls frame frames)] (alarm : Outcome Machine Value)
    (functions : Functions) (fuel calls frame : Nat) (e : Expr) (m : Machine) :
    evalWatched InOrder alarm functions (fuel + 1) calls frame e m =
      if InOrder calls frame m.frames then
        evalNode functions fuel (evalWatched InOrder alarm functions fuel calls frame)
          (evalWatched InOrder alarm functions fuel (calls + 1)) frame e m
      else alarm := rfl

namespace Frames.Invariant

variable (inv : Frames.Invariant)

theorem invoke_agree {calls caller : Nat} {f : Function}
    (hbody : Eval.Agree (inv.Holds (calls + 1) (caller + 1)) (evalBody (caller + 1) f.body)
      (evalBody' (caller + 1) f.body)) (values : List Value) :
    Eval.Agree (inv.Holds calls caller) (invoke evalBody f values caller) (invoke evalBody' f values caller) := by
  refine Scriptling.invoke_agree (fun _ h => (inv.onTop h).2) (fun _ entries h hdepth => inv.enter h hdepth entries)
    hbody ?_
  intro before frames hbefore hframes
  obtain ⟨frames', hpop, -⟩ := (inv.onTop hframes).pop
  exact ⟨frames', hpop, inv.leave hbefore hframes hpop⟩

/-- Under an invariant no evaluation is entered on frames that are not in order, and the
    invariant holds when the evaluation has ended. -/
theorem evalWatched_agree (InOrder : Nat → Nat → Frames → Prop)
    [∀ calls frame frames, Decidable (InOrder calls frame frames)]
    (horder : ∀ calls frame frames, inv.Holds calls frame frames → InOrder calls frame frames)
    (alarm : Outcome Machine Value) (functions : Functions) (fuel calls frame : Nat) (e : Expr) :
    Eval.Agree (inv.Holds calls frame) (evalWatched InOrder alarm functions fuel calls frame e)
      (Scriptling.eval functions fuel frame e) := by
  induction fuel generalizing calls frame e with
  | zero => exact Alike.giveUp
  | succ fuel ih =>
    intro m m' h
    obtain ⟨rfl, hm⟩ := h
    rw [evalWatched_succ, if_pos (horder calls frame m.frames hm), eval_succ]
    -- The nodes below are evaluated in the same frame, and bodies in the next one with a call more.
    refine evalNode_agree (fun c _ => ih calls frame c) ?_ (fun f values => ?_) m m ⟨rfl, hm⟩
    · intro x c _ v frames h
      exact ⟨_, (inv.onTop h).1.assign_eq (inv.onTop h).live x v, inv.assign h x v⟩
    · exact inv.invoke_agree (ih (calls + 1) (frame + 1) f.body) values

/-- Every evaluation keeps an invariant. -/
theorem eval_agree (functions : Functions) (fuel calls frame : Nat) (e : Expr) :
    Eval.Agree (inv.Holds calls frame) (Scriptling.eval functions fuel frame e)
      (Scriptling.eval functions fuel frame e) :=
  (inv.evalWatched_agree (fun _ _ _ => True) (fun _ _ _ _ => trivial) .unfinished functions fuel calls frame e).right

end Frames.Invariant

end Scriptling
