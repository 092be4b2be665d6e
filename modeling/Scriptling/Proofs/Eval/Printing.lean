/-
  Scriptling.Proofs.Eval.Printing — what an evaluation does to the sink.

  Lines are all that is ever written: a value as it is printed, and the end of the line.
  - `eval_prints`: from any machine, an evaluation takes its sink to another one by writing lines,
    however it ends. So text is only added to what was printed (`Sink.Prints.text_eq`).
  - `eval_println`: a `println` that succeeds adds the line of its value, and nothing else.
  - What is printed takes one byte for each character (`Value.render_narrow`).
-/

import Scriptling.Proofs.Eval.Containment
import Scriptling.Proofs.Position.Columns

namespace Scriptling

open Run

/-! ## Characters of one byte -/

theorem narrow_intercalate {separator : List Char} {texts : List (List Char)} (hsep : Narrow separator)
    (h : ∀ text ∈ texts, Narrow text) : Narrow (separator.intercalate texts) := by
  induction texts with
  | nil => intro c hc; cases hc
  | cons text texts ih =>
    have htext := h text (List.mem_cons_self ..)
    have hrest := ih fun t ht => h t (List.mem_cons_of_mem _ ht)
    cases texts with
    | nil => rwa [List.intercalate_singleton]
    | cons next texts =>
      rw [List.intercalate_cons_cons]
      exact (htext.append hsep).append hrest

theorem narrow_toDigits (n : Nat) : Narrow (Nat.toDigits 10 n) := by
  intro c hc
  have hdigit := Nat.isDigit_of_mem_toDigits (by decide) (by decide) hc
  have hrange : (decide (c.val ≥ '0'.val) && decide (c.val ≤ '9'.val)) = true := hdigit
  have hle := of_decide_eq_true (Bool.and_eq_true_iff.mp hrange).2
  exact Char.utf8Size_eq_one_iff.mpr (UInt32.le_trans hle (by decide))

theorem narrow_int (n : Int) : Narrow (toString n).toList := by
  rw [Int.toString_eq_repr, Int.repr_eq_if]
  split
  · rw [Nat.toList_repr]
    exact narrow_toDigits _
  · rw [String.toList_append, Nat.toList_repr]
    exact Narrow.append (narrow_of_all (by decide)) (narrow_toDigits _)

theorem narrow_enclosed {opening closing : String} {texts : List String} (ho : Narrow opening.toList)
    (hc : Narrow closing.toList) (h : ∀ s ∈ texts, Narrow s.toList) :
    Narrow (opening ++ ", ".intercalate texts ++ closing).toList := by
  rw [String.toList_append, String.toList_append, String.toList_intercalate]
  refine (ho.append (narrow_intercalate (narrow_of_all (by decide)) ?_)).append hc
  intro text htext
  obtain ⟨s, hs, rfl⟩ := List.mem_map.mp htext
  exact h s hs

mutual

/-- A printed value takes one byte for each character. -/
theorem Value.render_narrow (v : Value) : Narrow v.render.toList := by
  match v with
  | .int n => exact narrow_int n
  | .bool true | .bool false | .unit => exact narrow_of_all (by decide)
  | .array items =>
    rw [Value.render]
    exact narrow_enclosed (narrow_of_all (by decide)) (narrow_of_all (by decide)) (renderItems_narrow items)
  | .dictionary entries =>
    rw [Value.render]
    exact narrow_enclosed (narrow_of_all (by decide)) (narrow_of_all (by decide)) (renderEntries_narrow entries)

theorem renderItems_narrow (items : List Value) : ∀ s ∈ renderItems items, Narrow s.toList := by
  match items with
  | [] => intro s hs; cases hs
  | v :: vs =>
    intro s hs
    rw [renderItems] at hs
    rcases List.mem_cons.mp hs with rfl | hs
    · exact v.render_narrow
    · exact renderItems_narrow vs s hs

theorem renderEntries_narrow (entries : List (Value × Value)) : ∀ s ∈ renderEntries entries, Narrow s.toList := by
  match entries with
  | [] => intro s hs; cases hs
  | (k, v) :: rest =>
    intro s hs
    rw [renderEntries] at hs
    rcases List.mem_cons.mp hs with rfl | hs
    · rw [String.toList_append, String.toList_append]
      exact (k.render_narrow.append (narrow_of_all (by decide))).append v.render_narrow
    · exact renderEntries_narrow rest s hs

end

/-! ## Writing -/

def Value.line (v : Value) : String := v.render ++ "\n"

theorem Value.line_narrow (v : Value) : Narrow v.line.toList := by
  rw [line, String.toList_append]
  exact v.render_narrow.append (narrow_of_all (by decide))

namespace Sink

/-- Writing adds the beginning of the text, and all of it if it fits. A sink without a limit stays
    one. -/
theorem write_text (sink : Sink) (text : String) :
    (∃ kept, (sink.write text).2.text = sink.text ++ String.ofList kept ∧ kept <+: text.toList) ∧
      ((sink.write text).1 = true → (sink.write text).2.text = sink.text ++ text) ∧
        (sink.room = none → (sink.write text).2.room = none) := by
  obtain ⟨printed, room⟩ := sink
  cases room with
  | none => exact ⟨⟨text.toList, by simp [write], List.prefix_refl _⟩, fun _ => rfl, fun _ => rfl⟩
  | some room =>
    unfold write
    dsimp only
    split
    · refine ⟨⟨text.toList, by simp, List.prefix_refl _⟩, fun _ => rfl, fun h => ?_⟩
      cases h
    · refine ⟨⟨_, rfl, List.take_prefix ..⟩, fun h => ?_, fun h => ?_⟩ <;> cases h

/-- The second sink comes from the first by writing lines, whether they fit or not. -/
inductive Prints : Sink → Sink → Prop
  | nothing (sink : Sink) : Prints sink sink
  | line {sink sink' : Sink} (v : Value) : Prints sink sink' → Prints sink (sink'.write v.line).2

namespace Prints

variable {sink sink' sink'' : Sink}

theorem trans (h : sink.Prints sink') (h' : sink'.Prints sink'') : sink.Prints sink'' := by
  induction h' with
  | nothing => exact h
  | line v _ ih => exact .line v ih

/-- Printing adds text, and only characters of one byte. -/
theorem text_eq (h : sink.Prints sink') : ∃ added, sink'.text = sink.text ++ added ∧ Narrow added.toList := by
  induction h with
  | nothing => exact ⟨"", by simp, narrow_of_all rfl⟩
  | @line sink' v _ ih =>
    obtain ⟨added, heq, hadded⟩ := ih
    obtain ⟨kept, hwrite, hkept⟩ := (sink'.write_text v.line).1
    refine ⟨added ++ String.ofList kept, by rw [hwrite, heq, String.append_assoc], ?_⟩
    rw [String.toList_append, String.toList_ofList]
    exact hadded.append fun c hc => v.line_narrow c (hkept.subset hc)

theorem unlimited (h : sink.Prints sink') (hroom : sink.room = none) : sink'.room = none := by
  induction h with
  | nothing => exact hroom
  | @line sink' v _ ih => exact (sink'.write_text v.line).2.2 ih

end Prints

end Sink

/-! ## Evaluations -/

def Machine.Prints (m m' : Machine) : Prop := m.sink.Prints m'.sink

theorem Machine.prints_refl (m : Machine) : m.Prints m := .nothing m.sink

theorem Machine.prints_trans (m m' m'' : Machine) (h : m.Prints m') (h' : m'.Prints m'') : m.Prints m'' :=
  Sink.Prints.trans h h'

def Eval.printing : Congruence Machine Machine :=
  Leads.congruence Machine.Prints Machine.prints_refl Machine.prints_trans

theorem Outcome.endsIn_leave {x : Outcome Machine Value} {frame : Nat} {m' : Machine} (h : (x.leave frame).EndsIn m') :
    ∃ m, x.EndsIn m ∧ m'.sink = m.sink := by
  cases x with
  | done v m =>
    refine ⟨m, endsIn_done.mpr rfl, ?_⟩
    unfold leave at h
    cases hpop : m.frames.pop frame <;> simp only [hpop, endsIn_done, endsIn_fault] at h <;> rw [← h]
  | fault e m =>
    refine ⟨m, endsIn_fault.mpr rfl, ?_⟩
    unfold leave at h
    cases hpop : m.frames.pop frame <;> simp only [hpop, endsIn_fault] at h <;> rw [← h]
  | unfinished => exact absurd h endsIn_unfinished

namespace Eval

theorem read_prints (frame : Nat) (x : String) : Leads Machine.Prints (Eval.read frame x) := by
  intro m m' h
  unfold Eval.read at h
  split at h
  · obtain rfl := Outcome.endsIn_done.mp h
    exact m.prints_refl
  · obtain rfl := Outcome.endsIn_fault.mp h
    exact m.prints_refl

theorem changeFrames_prints (change : Frames → Except Misuse Frames) :
    Leads Machine.Prints (Eval.changeFrames change) := by
  intro m m' h
  unfold Eval.changeFrames at h
  split at h
  · obtain rfl := Outcome.endsIn_done.mp h
    exact m.prints_refl
  · obtain rfl := Outcome.endsIn_fault.mp h
    exact m.prints_refl

theorem printLine_prints (v : Value) : Leads Machine.Prints (Eval.printLine v.render) := by
  intro m m' h
  have hline : m.Prints { m with sink := (m.sink.write v.line).2 } := .line v (.nothing m.sink)
  unfold Eval.printLine at h
  dsimp only at h
  split at h
  · obtain rfl := Outcome.endsIn_done.mp h
    exact hline
  · obtain rfl := Outcome.endsIn_fault.mp h
    exact hline

end Eval

theorem invoke_prints {evalBody : Nat → Expr → Eval Value} {f : Function}
    (hbody : ∀ frame, Leads Machine.Prints (evalBody frame f.body)) (values : List Value) (caller : Nat) :
    Leads Machine.Prints (invoke evalBody f values caller) := by
  intro m m' h
  rw [invoke_eq] at h
  split at h
  · split at h
    · obtain rfl := Outcome.endsIn_fault.mp h
      exact m.prints_refl
    · obtain ⟨m₁, hends, hsink⟩ := Outcome.endsIn_leave h
      have hprints := hbody _ _ _ hends
      unfold Machine.Prints at hprints ⊢
      rwa [hsink]
  · obtain rfl := Outcome.endsIn_fault.mp h
    exact m.prints_refl

/-- From any machine, all that an evaluation does to the sink is to write lines. -/
theorem eval_prints (functions : Functions) (fuel frame : Nat) (e : Expr) :
    Leads Machine.Prints (eval functions fuel frame e) := by
  induction fuel generalizing frame e with
  | zero => exact leads_giveUp
  | succ fuel ih =>
    rw [eval_succ, ← evalNodeBy_invoke]
    let call (f : Function) (values : List Value) : Eval Value := invoke (eval functions fuel) f values frame
    have hnode : Eval.printing.Rel (evalNodeBy functions fuel (eval functions fuel frame) call frame e)
        (evalNodeBy functions fuel (eval functions fuel frame) call frame e) :=
      evalNodeOn_related (fun c _ => ih frame c) (fun fault _ => leads_raise Machine.prints_refl fault)
        (fun x _ => Eval.read_prints frame x) (fun x _ _ v => Eval.changeFrames_prints (·.assign frame x v))
        Eval.printLine_prints (fun _ _ _ _ hc hb => Congruence.repeatWhile leads_giveUp hc hb fuel)
        (fun _ f _ values _ => invoke_prints (fun frame => ih frame f.body) values frame)
    exact hnode

/-- A `println` that succeeds has evaluated its argument, and adds the line of the value to the text
    that was printed until then. -/
theorem eval_println {functions : Functions} {fuel frame : Nat} {e : Expr} {m m' : Machine} {v : Value}
    (h : eval functions (fuel + 1) frame (.println e) m = .done v m') :
    ∃ m₁, eval functions fuel frame e m = .done v m₁ ∧ m'.frames = m₁.frames ∧
      m'.sink.text = m₁.sink.text ++ v.line := by
  rw [eval_succ] at h
  simp only [evalNode, bind_apply] at h
  cases heval : eval functions fuel frame e m with
  | done w m₁ =>
    rw [heval] at h
    simp only [Eval.printLine] at h
    cases hfits : (m₁.sink.write (w.render ++ "\n")).1 with
    | true =>
      simp only [hfits, if_true, pure_apply] at h
      cases h
      exact ⟨m₁, rfl, rfl, (m₁.sink.write_text v.line).2.1 hfits⟩
    | false =>
      simp only [hfits] at h
      cases h
  | fault fault m₁ => rw [heval] at h; cases h
  | unfinished => rw [heval] at h; cases h

end Scriptling
