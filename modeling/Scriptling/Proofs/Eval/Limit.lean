/-
  Scriptling.Proofs.Eval.Limit — evaluations on a sink with a limit.

  On a sink with a limit an evaluation goes as on one without, until a line does not fit. Then it
  stops for want of room, however deep in calls and loops it is, while the other one goes on and
  prints more.
  - `Run.Curtailment`: what this takes of two runs. It carries over to what is put together from
    them, since what the longer run prints later does not change what the shorter one has kept.
  - `Sink.upTo`: what a sink with a limit holds of what another one holds.
  - `eval_curtailed`: an evaluation against itself on the sink with the limit.
-/

import Scriptling.Proofs.Eval.Printing

namespace Scriptling

open Run

/-! ## Runs that are cut short -/

variable {σ τ α β : Type}

/-- The second run ends as the first one, and in the `Same` state; or it stops for want of room, and
    the state in which the first one ends is `Over` the limit. -/
inductive Outcome.CutShort (Same Over : σ → τ → Prop) : Outcome σ α → Outcome τ α → Prop
  | done (a : α) {s : σ} {t : τ} : Same s t → CutShort Same Over (.done a s) (.done a t)
  | fault (e : Fault) {s : σ} {t : τ} : Same s t → CutShort Same Over (.fault e s) (.fault e t)
  | full {x : Outcome σ α} {s : σ} {t : τ} : x.EndsIn s → Over s t → CutShort Same Over x (.fault .sinkFull t)
  | unfinished (y : Outcome τ α) : CutShort Same Over .unfinished y

/-- How the states of a run go with those of one that may stop for want of room. Wherever the
    longer run moves after the other one has stopped, its state stays over the limit. -/
structure Run.Curtailment (σ τ : Type) where
  Same : σ → τ → Prop
  Over : σ → τ → Prop
  Moves : σ → σ → Prop
  refl : ∀ s, Moves s s
  trans : ∀ s s' s'', Moves s s' → Moves s' s'' → Moves s s''
  stays : ∀ {s s' t}, Over s t → Moves s s' → Over s' t

namespace Run.Curtailment

variable (C : Curtailment σ τ)

def Cuts (run : Run σ α) (run' : Run τ α) : Prop :=
  Leads C.Moves run ∧ ∀ s t, C.Same s t → (run s).CutShort C.Same C.Over (run' t)

theorem cuts_pure (a : α) : C.Cuts (pure a) (pure a) := ⟨leads_pure C.refl a, fun _ _ h => .done a h⟩

theorem cuts_raise (e : Fault) : C.Cuts (raise e : Run σ α) (raise e) := ⟨leads_raise C.refl e, fun _ _ h => .fault e h⟩

theorem cuts_giveUp : C.Cuts (giveUp : Run σ α) giveUp := ⟨leads_giveUp, fun _ _ _ => .unfinished _⟩

variable {C}

theorem Cuts.bind {run : Run σ α} {run' : Run τ α} {f : α → Run σ β} {g : α → Run τ β} (h : C.Cuts run run')
    (hfg : ∀ a, C.Cuts (f a) (g a)) : C.Cuts (run >>= f) (run' >>= g) := by
  refine ⟨h.1.bind C.trans fun a => (hfg a).1, fun s t hst => ?_⟩
  simp only [bind_apply]
  have hrun := h.2 s t hst
  generalize run s = x, run' t = y at hrun ⊢
  cases hrun with
  | done a hst' => exact (hfg a).2 _ _ hst'
  | fault e hst' => exact .fault e hst'
  | unfinished y => exact .unfinished _
  | @full _ s' t' hends hover =>
    -- The second run has stopped. The first one is done with its part, and moves on or not.
    rcases hends with ⟨a, rfl⟩ | ⟨e, rfl⟩
    · dsimp only
      cases hf : f a s' with
      | done b s'' =>
        have hends : (f a s').EndsIn s'' := .inl ⟨b, hf⟩
        exact .full (.inl ⟨b, rfl⟩) (C.stays hover ((hfg a).1 s' s'' hends))
      | fault e s'' =>
        have hends : (f a s').EndsIn s'' := .inr ⟨e, hf⟩
        exact .full (.inr ⟨e, rfl⟩) (C.stays hover ((hfg a).1 s' s'' hends))
      | unfinished => exact .unfinished _
    · exact .full (.inr ⟨e, rfl⟩) hover

variable (C) in
def congruence : Congruence σ τ where
  Rel := C.Cuts
  pure := C.cuts_pure
  bind := Cuts.bind

end Run.Curtailment

open Run.Curtailment

/-! ## Sinks -/

namespace Sink

/-- What a sink of `limit` characters holds when all of this has been written to it. -/
def upTo (limit : Nat) (sink : Sink) : Sink :=
  ⟨String.ofList (sink.text.toList.take limit), some (limit - sink.text.length)⟩

variable {limit : Nat} {sink sink' : Sink}

theorem upTo_text (h : sink.text.length ≤ limit) : (sink.upTo limit).text = sink.text := by
  unfold upTo
  rw [List.take_of_length_le (by rwa [String.length_toList]), String.ofList_toList]

/-- A text that fits is written in full, and of another one as much as there is room for. -/
theorem write_upTo (hroom : sink.room = none) (h : sink.text.length ≤ limit) (text : String) :
    (sink.upTo limit).write text =
      (decide ((sink.write text).2.text.length ≤ limit), (sink.write text).2.upTo limit) := by
  obtain ⟨printed, room⟩ := sink
  obtain rfl : room = none := hroom
  have hkept : printed.toList.take limit = printed.toList :=
    List.take_of_length_le (by rwa [String.length_toList])
  dsimp only at h
  simp only [upTo, write, String.toList_append, List.take_append, hkept, String.length_append, String.length_toList,
    String.ofList_append, String.ofList_toList]
  by_cases hfits : text.length ≤ limit - printed.length
  · have htext : text.toList.take (limit - printed.length) = text.toList :=
      List.take_of_length_le (by rwa [String.length_toList])
    have hall : printed.length + text.length ≤ limit := by omega
    simp [hfits, hall, htext, Nat.sub_sub]
  · have hall : ¬ printed.length + text.length ≤ limit := by omega
    have hfull : limit - (printed.length + text.length) = 0 := by omega
    simp [hfits, hall, hfull]

/-- What is printed beyond the limit is not kept. -/
theorem Prints.upTo_eq (h : sink.Prints sink') (hover : limit < sink.text.length) :
    limit < sink'.text.length ∧ sink'.upTo limit = sink.upTo limit := by
  obtain ⟨added, heq, -⟩ := h.text_eq
  have hlonger : sink'.text.length = sink.text.length + added.length := by rw [heq, String.length_append]
  refine ⟨by omega, ?_⟩
  have hkept : (sink.text ++ added).toList.take limit = sink.text.toList.take limit := by
    rw [String.toList_append, List.take_append_of_le_length (by rw [String.length_toList]; omega)]
  have hroom : limit - sink'.text.length = limit - sink.text.length := by omega
  unfold upTo
  rw [hroom, heq, hkept]

end Sink

/-! ## Machines -/

def Machine.upTo (limit : Nat) (m : Machine) : Machine := { m with sink := m.sink.upTo limit }

def Machine.curtailment (limit frame : Nat) : Curtailment Machine Machine where
  Same m m' :=
    m.frames.OnTop frame ∧ m.sink.room = none ∧ m.sink.text.length ≤ limit ∧ m' = m.upTo limit
  Over m m' :=
    m'.frames.OnTop frame ∧ m.sink.room = none ∧ limit < m.sink.text.length ∧ m'.sink = m.sink.upTo limit
  Moves := Machine.Prints
  refl := Machine.prints_refl
  trans := Machine.prints_trans
  stays := by
    intro m m₁ m' hover hprints
    obtain ⟨htop, hroom, hlimit, hsink⟩ := hover
    obtain ⟨hlimit', hsink'⟩ := hprints.upTo_eq hlimit
    exact ⟨htop, hprints.unlimited hroom, hlimit', hsink.trans hsink'.symm⟩

abbrev Eval.CutBy (limit frame : Nat) (evaluation : Eval α) : Prop :=
  (Machine.curtailment limit frame).Cuts evaluation evaluation

variable {limit frame : Nat}

namespace Eval

theorem read_cut (x : String) : CutBy limit frame (Eval.read frame x) := by
  refine ⟨read_prints frame x, fun m m' h => ?_⟩
  have hm' := h.2.2.2
  subst hm'
  have hframes : (m.upTo limit).frames = m.frames := rfl
  unfold Eval.read
  rw [hframes]
  cases m.frames.read? frame x with
  | some v => exact .done v h
  | none => exact .fault _ h

/-- Binding a name does nothing to the sink. -/
theorem changeFrames_cut {change : Frames → Except Misuse Frames}
    (hchange : ∀ frames, frames.OnTop frame → ∃ frames', change frames = .ok frames' ∧ frames'.OnTop frame) :
    CutBy limit frame (Eval.changeFrames change) := by
  refine ⟨changeFrames_prints change, fun m m' h => ?_⟩
  obtain ⟨htop, hroom, hlimit, rfl⟩ := h
  obtain ⟨frames', hok, htop'⟩ := hchange m.frames htop
  have hok' : change (m.upTo limit).frames = .ok frames' := hok
  simp only [Eval.changeFrames, hok, hok']
  exact .done () ⟨htop', hroom, hlimit, rfl⟩

theorem assign_cut (x : String) (v : Value) : CutBy limit frame (Eval.assign frame x v) :=
  changeFrames_cut fun _ htop => ⟨_, htop.1.assign_eq htop.live x v, htop.assigned x v⟩

/-- A line that does not fit stops the evaluation, and its beginning is kept. -/
theorem printLine_cut (v : Value) : CutBy limit frame (Eval.printLine v.render) := by
  refine ⟨printLine_prints v, fun m m' h => ?_⟩
  obtain ⟨htop, hroom, hlimit, rfl⟩ := h
  have hwrite := Sink.write_upTo hroom hlimit v.line
  have hroom' : (m.sink.write v.line).2.room = none := (m.sink.write_text v.line).2.2 hroom
  have hfits : (m.sink.write v.line).1 = true := by
    obtain ⟨frames, printed, room⟩ := m
    obtain rfl : room = none := hroom
    rfl
  unfold Eval.printLine
  show Outcome.CutShort _ _
    (if (m.sink.write v.line).1 then Outcome.done () { m with sink := (m.sink.write v.line).2 } else _)
    (if ((m.sink.upTo limit).write v.line).1 then
      Outcome.done () { m with sink := ((m.sink.upTo limit).write v.line).2 }
    else .fault .sinkFull { m with sink := ((m.sink.upTo limit).write v.line).2 })
  rw [hwrite, if_pos hfits]
  by_cases hroomLeft : (m.sink.write v.line).2.text.length ≤ limit
  · rw [if_pos (decide_eq_true hroomLeft)]
    exact .done () ⟨htop, hroom', hroomLeft, rfl⟩
  · rw [if_neg (by simpa using hroomLeft)]
    exact .full (.inl ⟨(), rfl⟩) ⟨htop, hroom', Nat.not_le.mp hroomLeft, rfl⟩

end Eval

/-- Leaving a call keeps the sink. -/
theorem Outcome.EndsIn.leave {x : Outcome Machine Value} {m : Machine} (h : x.EndsIn m) (frame : Nat) :
    ∃ m', (x.leave frame).EndsIn m' ∧ m'.sink = m.sink := by
  rcases h with ⟨v, rfl⟩ | ⟨e, rfl⟩
  · unfold Outcome.leave
    cases hpop : m.frames.pop frame with
    | ok frames => exact ⟨{ m with frames }, .inl ⟨v, by simp only [hpop]⟩, rfl⟩
    | error misuse => exact ⟨m, .inr ⟨_, by simp only [hpop]; rfl⟩, rfl⟩
  · unfold Outcome.leave
    cases hpop : m.frames.pop frame with
    | ok frames => exact ⟨{ m with frames }, .inr ⟨e, by simp only [hpop]⟩, rfl⟩
    | error misuse => exact ⟨m, .inr ⟨_, by simp only [hpop]; rfl⟩, rfl⟩

/-- A body that is cut short makes a call that is. -/
theorem Outcome.CutShort.leave {x y : Outcome Machine Value}
    (h : x.CutShort (Machine.curtailment limit (frame + 1)).Same (Machine.curtailment limit (frame + 1)).Over y) :
    (x.leave (frame + 1)).CutShort (Machine.curtailment limit frame).Same (Machine.curtailment limit frame).Over
      (y.leave (frame + 1)) := by
  cases h with
  | @done v m m' h =>
    obtain ⟨htop, hroom, hlimit, rfl⟩ := h
    obtain ⟨frames, hpop, htop', -⟩ := htop.pop
    have hpop' : (m.upTo limit).frames.pop (frame + 1) = .ok frames := hpop
    simp only [Outcome.leave, hpop, hpop']
    exact .done v ⟨htop', hroom, hlimit, rfl⟩
  | @fault e m m' h =>
    obtain ⟨htop, hroom, hlimit, rfl⟩ := h
    obtain ⟨frames, hpop, htop', -⟩ := htop.pop
    have hpop' : (m.upTo limit).frames.pop (frame + 1) = .ok frames := hpop
    simp only [Outcome.leave, hpop, hpop']
    exact .fault e ⟨htop', hroom, hlimit, rfl⟩
  | @full _ m m' hends hover =>
    obtain ⟨htop, hroom, hlimit, hsink⟩ := hover
    obtain ⟨m₁, hends₁, hsink₁⟩ := hends.leave (frame + 1)
    obtain ⟨frames, hpop, htop', -⟩ := htop.pop
    have hleft : (Outcome.fault .sinkFull m').leave (frame + 1) = .fault .sinkFull { m' with frames } := by
      simp only [Outcome.leave, hpop]
    rw [hleft]
    exact .full hends₁ ⟨htop', hsink₁ ▸ hroom, hsink₁ ▸ hlimit, hsink.trans (by rw [hsink₁])⟩
  | unfinished y => exact .unfinished _

theorem invoke_cut {evalBody : Nat → Expr → Eval Value} {f : Function}
    (hbody : ∀ frame, Eval.CutBy limit frame (evalBody frame f.body)) (values : List Value) :
    Eval.CutBy limit frame (invoke evalBody f values frame) := by
  refine ⟨invoke_prints (fun frame => (hbody frame).1) values frame, fun m m' h => ?_⟩
  have ⟨htop, hroom, hlimit, hm'⟩ := h
  subst hm'
  rw [invoke_eq, invoke_eq]
  show Outcome.CutShort _ _ _
    (if values.length = f.params.length then
      if maxCalls < m.frames.depth then .fault .tooManyCalls (m.upTo limit)
      else
        (evalBody m.frames.nextId f.body
          (Machine.upTo limit { m with frames := m.frames.enter frame (f.params.zip values) })).leave m.frames.nextId
    else .fault (.arity f.name f.params.length values.length) (m.upTo limit))
  rw [Frames.nextId, ← htop.2]
  split
  · split
    · exact .fault _ h
    · exact Outcome.CutShort.leave ((hbody (frame + 1)).2 _ _ ⟨htop.enter _, hroom, hlimit, rfl⟩)
  · exact .fault _ h

/-- Every evaluation goes on a sink with a limit as without, or stops for want of room. -/
theorem eval_curtailed (functions : Functions) (fuel frame : Nat) (e : Expr) :
    Eval.CutBy limit frame (eval functions fuel frame e) := by
  induction fuel generalizing frame e with
  | zero => exact cuts_giveUp _
  | succ fuel ih =>
    rw [eval_succ, ← evalNodeBy_invoke]
    exact evalNodeOn_related (K := congruence (Machine.curtailment limit frame)) (fun c _ => ih frame c)
      (fun fault _ => cuts_raise _ fault) (fun x _ => Eval.read_cut x) (fun x _ _ v => Eval.assign_cut x v)
      Eval.printLine_cut (fun _ _ _ _ hc hb => Congruence.repeatWhile (cuts_giveUp _) hc hb fuel)
      (fun _ f _ values _ => invoke_cut (fun frame => ih frame f.body) values)

end Scriptling
