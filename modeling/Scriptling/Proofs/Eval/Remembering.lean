/-
  Scriptling.Proofs.Eval.Remembering — a name that has been readable stays readable.

  `evalRemembering` evaluates an expression and keeps in mind whether a name has been readable from
  some frame since that frame was opened. It looks whenever an evaluation begins or ends and whenever
  a call has been left, and ends in an alarm if the name is no longer readable though the frame is
  still live. `evalRemembering_alike`: from a stack there is no alarm.
-/

import Scriptling.Proofs.Eval.Invariant

namespace Scriptling

open Run

/-! ## Runs on a part of the state -/

section Outcome

variable {σ τ α : Type}

def Outcome.map (f : σ → τ) : Outcome σ α → Outcome τ α
  | .done a s => .done a (f s)
  | .fault e s => .fault e (f s)
  | .unfinished => .unfinished

theorem Outcome.Alike.map_eq {f : σ → τ} {R : σ → τ → Prop} {x : Outcome σ α} {y : Outcome τ α} (h : x.Alike R y)
    (hR : ∀ s t, R s t → f s = t) : x.map f = y := by
  cases h with
  | done a h => rw [Outcome.map, hR _ _ h]
  | fault _ h => rw [Outcome.map, hR _ _ h]
  | unfinished => rfl

theorem Run.attempt_ofExcept (run : Run σ α) :
    (attempt run >>= fun result => pure () >>= fun _ => ofExcept result : Run σ α) = run := by
  funext s
  simp only [bind_apply, attempt]
  cases run s <;> rfl

end Outcome

/-! ## Watching -/

/-- A machine, and whether the name that is watched has been readable. -/
structure Watch where
  machine : Machine
  seen : Bool

namespace Watch

def on {α : Type} (run : Eval α) : Run Watch α := fun w => (run w.machine).map fun machine => { w with machine }

variable (j : Nat) (x : String) (alarm : Fault)

/-- Looks whether `x` can be read from frame `j` while `frame` is the last one. -/
def look (frame : Nat) : Run Watch Unit := fun w =>
  -- Frame `j` has been released, and its number is left to the next call.
  if frame < j then .done () { w with seen := false }
  else if (w.machine.frames.read? j x).isSome then .done () { w with seen := true }
  else if w.seen then .fault alarm w
  else .done () w

def looking {α : Type} (frame : Nat) (run : Run Watch α) : Run Watch α := do
  look j x alarm frame
  let result ← attempt run
  look j x alarm frame
  ofExcept result

def invoke (evalBody : Nat → Expr → Run Watch Value) (f : Function) (values : List Value) (caller : Nat) :
    Run Watch Value := do
  let frame ← on (opening f values caller)
  let result ← attempt (evalBody frame f.body)
  (do on (Eval.leave frame); look j x alarm caller)
  ofExcept result

def acts (evalBody : Nat → Expr → Run Watch Value) (frame : Nat) : Acts Watch where
  read y := on (Eval.read frame y)
  assign y v := on (Eval.assign frame y v)
  print text := on (Eval.printLine text)
  call f values := invoke j x alarm evalBody f values frame

end Watch

/-- Evaluates an expression, and looks before and after it and all that is evaluated on the way:
    ends in `alarm` if `x` cannot be read from frame `j` though this has been possible before, and
    frame `j` has not been released since. -/
def evalRemembering (j : Nat) (x : String) (alarm : Fault) (functions : Functions) :
    (fuel frame : Nat) → Expr → Run Watch Value
  | 0, _, _ => giveUp
  | fuel + 1, frame, e =>
    Watch.looking j x alarm frame
      (evalNodeOn functions fuel (evalRemembering j x alarm functions fuel frame)
        (Watch.acts j x alarm (evalRemembering j x alarm functions fuel) frame) e)

/-! ## No alarm -/

/-- The frames are a stack with `frame` on top, and if `x` is known to be readable from frame `j`, then
    this is live and sees a frame that binds `x`. -/
def Frames.Sees (j : Nat) (x : String) (frame : Nat) (known : Bool) (frames : Frames) : Prop :=
  frames.OnTop frame ∧ (known = true → j ≤ frame ∧ ∃ i ≤ j, frames.Binds i x)

namespace Frames.Sees

variable {j : Nat} {x : String} {frame : Nat} {known : Bool} {frames : Frames}

theorem assigned (h : frames.Sees j x frame known) (y : String) (v : Value) :
    (frames.assigned frame y v).Sees j x frame known := by
  refine ⟨h.1.assigned y v, fun hknown => ?_⟩
  obtain ⟨hj, i, hi, hbinds⟩ := h.2 hknown
  exact ⟨hj, i, hi, hbinds.assigned h.1.live y v⟩

theorem enter (h : frames.Sees j x frame known) (entries : List (String × Value)) :
    (frames.enter frame entries).Sees j x (frame + 1) known := by
  refine ⟨h.1.enter entries, fun hknown => ?_⟩
  obtain ⟨hj, i, hi, hbinds⟩ := h.2 hknown
  have hlive : i < frames.depth := Nat.lt_of_le_of_lt (Nat.le_trans hi hj) h.1.live
  exact ⟨Nat.le_succ_of_le hj, i, hi, (binds_enter hlive frame entries x).mpr hbinds⟩

end Frames.Sees

namespace Watch

variable {j : Nat} {x : String} {alarm : Fault} {frame : Nat}

def Follows (j : Nat) (x : String) (frame : Nat) (w : Watch) (m : Machine) : Prop :=
  w.machine = m ∧ m.frames.Sees j x frame w.seen

/-- To look brings the memory up to date, and is an alarm only if a name has got lost. -/
theorem look_alike {w : Watch} {m : Machine} (hw : w.machine = m) (htop : m.frames.OnTop frame)
    (hseen : w.seen = true → j ≤ frame → ∃ i ≤ j, m.frames.Binds i x) :
    (look j x alarm frame w).Alike (Follows j x frame) (.done () m) := by
  subst hw
  unfold look
  by_cases hj : frame < j
  · rw [if_pos hj]
    exact .done () ⟨rfl, htop, fun h => by cases h⟩
  · have hj : j ≤ frame := Nat.not_lt.mp hj
    rw [if_neg (Nat.not_lt.mpr hj)]
    by_cases hread : (w.machine.frames.read? j x).isSome = true
    · rw [if_pos hread]
      exact .done () ⟨rfl, htop, fun _ => ⟨hj, (htop.read?_isSome_iff hj x).mp hread⟩⟩
    · rw [if_neg hread]
      have hnot : ¬ w.seen = true := fun h => hread ((htop.read?_isSome_iff hj x).mpr (hseen h hj))
      rw [if_neg hnot]
      exact .done () ⟨rfl, htop, fun h => absurd h hnot⟩

theorem looking_alike {α : Type} {run : Run Watch α} {run' : Eval α} (h : Alike (Follows j x frame) run run') :
    Alike (Follows j x frame) (looking j x alarm frame run) run' := by
  have hlook (w : Watch) (m : Machine) (hw : Follows j x frame w m) :
      (look j x alarm frame w).Alike (Follows j x frame) (.done () m) :=
    look_alike hw.1 hw.2.1 fun hknown _ => (hw.2.2 hknown).2
  intro w m hw
  have hbefore := hlook w m hw
  rw [looking, bind_apply, ← attempt_ofExcept run']
  generalize look j x alarm frame w = y at hbefore ⊢
  cases hbefore with
  | done _ hw => exact finally_alike (h _ _ hw) hlook

/-- What keeps the frames in order, whatever is known of them, can be watched. -/
theorem on_alike {α : Type} {run : Eval α} (h : ∀ known, Eval.Agree (Frames.Sees j x frame known) run run) :
    Alike (Follows j x frame) (on run) run := by
  intro w m hw
  obtain ⟨rfl, hsees⟩ := hw
  have hends := h w.seen w.machine w.machine ⟨rfl, hsees⟩
  unfold on
  generalize run w.machine = y at hends ⊢
  cases hends with
  | done a h => exact .done a ⟨rfl, h.2⟩
  | fault he h => exact .fault he ⟨rfl, h.2⟩
  | unfinished => exact .unfinished

variable {evalBody : Nat → Expr → Run Watch Value} {evalBody' : Nat → Expr → Eval Value}

/-- After a call the frames of the callers bind what they did, and the memory of the frame that is
    released is dropped. -/
theorem leave_alike {w : Watch} {m : Machine} (h : Follows j x (frame + 1) w m) :
    ((do on (Eval.leave (frame + 1)); look j x alarm frame : Run Watch Unit) w).Alike (Follows j x frame)
      (Eval.leave (frame + 1) m) := by
  obtain ⟨rfl, htop, hseen⟩ := h
  obtain ⟨frames', hpop, htop', hown⟩ := htop.pop
  have hleave : Eval.leave (frame + 1) w.machine = .done () { w.machine with frames := frames' } := by
    simp only [Eval.leave, Eval.changeFrames, hpop]
  rw [bind_apply, on, hleave]
  refine look_alike rfl htop' fun hknown hj => ?_
  obtain ⟨-, i, hi, hbinds⟩ := hseen hknown
  exact ⟨i, hi, (Frames.binds_congr (hown i (Nat.le_trans hi hj)) x).mpr hbinds⟩

theorem invoke_alike {f : Function}
    (hbody : Alike (Follows j x (frame + 1)) (evalBody (frame + 1) f.body) (evalBody' (frame + 1) f.body))
    (values : List Value) :
    Alike (Follows j x frame) (invoke j x alarm evalBody f values frame)
      (Scriptling.invoke evalBody' f values frame) := by
  intro w m h
  obtain ⟨rfl, hsees⟩ := h
  rw [invoke, invoke_opening, bind_apply, bind_apply, on, opening_eq, Frames.nextId, ← hsees.1.2]
  by_cases harity : values.length = f.params.length
  · by_cases hdepth : maxCalls < frame + 1
    · simp only [harity, hdepth, if_true]
      exact .fault (by simp) ⟨rfl, hsees⟩
    · simp only [harity, hdepth, if_true, if_false]
      exact finally_alike (hbody _ _ ⟨rfl, hsees.enter _⟩) fun _ _ => leave_alike
  · simp only [harity, if_false]
    exact .fault (by simp) ⟨rfl, hsees⟩

end Watch

/-- From a stack, with the memory right, an evaluation is never stopped by the alarm: it goes on as if
    it was not watched. -/
theorem evalRemembering_alike (j : Nat) (x : String) (alarm : Fault) (functions : Functions) (fuel frame : Nat)
    (e : Expr) :
    Alike (Watch.Follows j x frame) (evalRemembering j x alarm functions fuel frame e)
      (eval functions fuel frame e) := by
  induction fuel generalizing frame e with
  | zero => exact Alike.giveUp
  | succ fuel ih =>
    rw [eval_succ, ← evalNodeBy_invoke]
    refine Watch.looking_alike (evalNodeOn_related (K := Alike.congruence (Watch.Follows j x frame))
      (fun c _ => ih frame c) (fun _ h => Alike.raise h.ne_misuse) (fun y _ => ?_) (fun y _ _ v => ?_) (fun v => ?_)
      (fun _ _ _ _ hc hb => Congruence.repeatWhile Alike.giveUp hc hb fuel)
      (fun _ f _ values _ => Watch.invoke_alike (ih (frame + 1) f.body) values))
    · exact Watch.on_alike fun _ => Eval.read_agree frame y
    · refine Watch.on_alike fun known => Eval.assign_agree fun frames h => ?_
      exact ⟨_, h.1.1.assign_eq h.1.live y v, h.assigned y v⟩
    · exact Watch.on_alike fun _ => Eval.printLine_agree v.render

-- A name that is remembered and cannot be read is an alarm.
example : evalRemembering 0 "x" .sinkFull Bindings.empty 1 0 (.int 0) ⟨{}, true⟩ = .fault .sinkFull ⟨{}, true⟩ := rfl

end Scriptling
