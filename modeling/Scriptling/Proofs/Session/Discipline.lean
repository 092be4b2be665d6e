/-
  Scriptling.Proofs.Session.Discipline — frames are a stack of the active calls.

  Whenever an evaluation is entered, it takes place in the last frame, every frame has the one
  below it as its parent, and there are as many frames above the global one as calls are active:
  never more than `maxCalls`. This is a `Frames.Invariant`, so an evaluator that watches over it
  never raises an alarm, and after every operation of a session only the global frame is left
  (`Session.Reached.stack_discipline`).
-/

import Scriptling.Proofs.Eval.Invariant
import Scriptling.Proofs.Session.Operation

namespace Scriptling

open Run

namespace Frames

/-- The frames are a stack whose last frame is `frame`, with one frame for each active call
    above the global frame, and no more calls are active than may be. -/
def StackAt (calls frame : Nat) (frames : Frames) : Prop :=
  frames.IsStack ∧ frame + 1 = frames.depth ∧ frames.depth = 1 + calls ∧ frames.depth ≤ maxCalls + 1

instance (calls frame : Nat) (frames : Frames) : Decidable (StackAt calls frame frames) :=
  inferInstanceAs (Decidable (_ ∧ _))

def OnlyGlobal (frames : Frames) : Prop := frames.depth = 1 ∧ frames.parent? global = none

theorem onlyGlobal_iff {frames : Frames} : frames.OnlyGlobal ↔ frames.StackAt 0 global := by
  constructor
  · intro h
    obtain ⟨hdepth, hparent⟩ := h
    refine ⟨⟨by omega, fun k hk => ?_⟩, hdepth.symm, hdepth, by omega⟩
    obtain rfl : k = global := by unfold global; omega
    exact hparent
  · intro h
    obtain ⟨hstack, hdepth, -, -⟩ := h
    exact ⟨hdepth.symm, hstack.2 global hstack.1⟩

theorem StackAt.bind {calls top : Nat} {frames : Frames} (h : frames.StackAt calls top) (frame : Nat)
    (x : String) (v : Value) : (frames.bind frame x v).StackAt calls top := by
  obtain ⟨hstack, htop, hcalls, hmax⟩ := h
  exact ⟨hstack.bind frame x v, by simpa using htop, by simpa using hcalls, by simpa using hmax⟩

def discipline : Invariant where
  Holds := StackAt
  onTop h := ⟨h.1, h.2.1⟩
  assign h x v := h.bind _ x v
  enter := by
    intro calls frame frames h hdepth entries
    obtain ⟨hstack, htop, hcalls, -⟩ := h
    have henter := depth_enter frames frame entries
    exact ⟨hstack.enter htop entries, by omega, by omega, by omega⟩
  leave := by
    intro calls frame before frames frames' _ h hpop
    obtain ⟨hstack, htop, hcalls, hmax⟩ := h
    obtain ⟨⟨hstack', htop'⟩, -⟩ := OnTop.of_pop ⟨hstack, htop⟩ hpop
    exact ⟨hstack', htop', by omega, by omega⟩

end Frames

/-! ## Operations -/

namespace Session

def AtRest (session : Session) : Prop := session.machine.frames.StackAt 0 Frames.global

theorem evaluating_agree {α : Type} {evaluation evaluation' : Functions → Eval α}
    (h : ∀ functions, Eval.Agree (Frames.StackAt 0 Frames.global) (evaluation functions) (evaluation' functions)) :
    Agree AtRest (evaluating evaluation) (evaluating evaluation') := by
  intro session session' hs
  obtain ⟨rfl, hm⟩ := hs
  obtain ⟨functions, m⟩ := session
  have hends := h functions m m ⟨rfl, hm⟩
  simp only [evaluating]
  generalize evaluation functions m = x, evaluation' functions m = y at hends ⊢
  cases hends with
  | done a h => exact .done a ⟨by rw [h.1], h.2⟩
  | fault he h => exact .fault he ⟨by rw [h.1], h.2⟩
  | unfinished => exact .unfinished

variable {evaluator evaluator' : Evaluator}
  (heval : ∀ functions calls frame e, Eval.Agree (Frames.StackAt calls frame)
    (evaluator functions calls frame e) (evaluator' functions calls frame e))

include heval

theorem runExprBy_agree (e : Expr) : Agree AtRest (runExprBy evaluator e) (runExprBy evaluator' e) :=
  evaluating_agree fun functions => heval functions 0 Frames.global e

theorem defineBy_agree (definition : Definition) :
    Agree AtRest (defineBy evaluator definition) (defineBy evaluator' definition) := by
  cases definition with
  | global name e =>
    refine evaluating_agree fun functions => (heval functions 0 Frames.global e).bind fun v => ?_
    intro m m' h
    obtain ⟨rfl, hm⟩ := h
    have hlive : Frames.global < m.frames.depth := hm.1.1
    simp only [Eval.define, Eval.changeFrames, Frames.define, hlive, if_true]
    exact .done () ⟨rfl, hm.bind Frames.global name v⟩
  | function f =>
    intro session session' h
    obtain ⟨rfl, hs⟩ := h
    simp only [defineBy, addFunction]
    split
    · exact .fault (by simp) ⟨rfl, hs⟩
    · exact .done () ⟨rfl, hs⟩

theorem callMainBy_agree : Agree AtRest (callMainBy evaluator) (callMainBy evaluator') := by
  refine evaluating_agree fun functions => ?_
  cases functions.find? "main" with
  | none => exact Alike.raise (by simp)
  | some main => exact Frames.discipline.invoke_agree (heval functions 1 1 main.body) []

theorem runBy_agree (op : Operation) : Agree AtRest (op.runBy evaluator) (op.runBy evaluator') := by
  cases op with
  | program p =>
    refine Alike.bind ?_ fun _ => callMainBy_agree heval
    exact Congruence.forM (K := Alike.congruence _) fun definition _ => defineBy_agree heval definition
  | lines ls => exact Alike.foldlM (fun line _ _ => runExprBy_agree heval line) .unit
  | expr e => exact runExprBy_agree heval e
  | reset =>
    intro session session' h
    obtain ⟨rfl, -⟩ := h
    exact Outcome.Alike.done Value.unit ⟨rfl, (by decide : Frames.initial.StackAt 0 Frames.global)⟩

end Session

/-- The evaluator that ends in `alarm` where stack discipline is broken. -/
def watched (alarm : Outcome Machine Value) (fuel : Nat) : Evaluator := fun functions =>
  evalWatched Frames.StackAt alarm functions fuel

/-- No operation of a session at rest breaks the discipline, and it leaves the session at rest. -/
theorem Operation.run_agree (alarm : Outcome Machine Value) (fuel : Nat) (op : Operation) :
    Agree Session.AtRest (op.runBy (watched alarm fuel)) (op.run fuel) := by
  rw [← op.runBy_eval fuel]
  refine Session.runBy_agree (fun functions calls frame e => ?_) op
  exact Frames.discipline.evalWatched_agree Frames.StackAt (fun _ _ _ h => h) alarm functions fuel calls frame e

namespace Session

theorem Reached.atRest {session : Session} (h : session.Reached) : session.AtRest := by
  induction h with
  | start sink => exact (by decide : Frames.initial.StackAt 0 Frames.global)
  | done op fuel _ hrun ih => exact (op.run_agree .unfinished fuel).of_done ih hrun
  | fault op fuel _ hrun ih => exact ((op.run_agree .unfinished fuel).of_fault ih hrun).1

/-- Between the operations of a session only the global frame is there. During an operation no
    alarm is raised, whatever the alarm would do, and the frames are never misused; and however
    the operation ends, only the global frame is left. -/
theorem Reached.stack_discipline {session : Session} (reached : session.Reached) :
    session.machine.frames.OnlyGlobal ∧
      ∀ (op : Operation) (fuel : Nat),
        (∀ alarm, op.runBy (watched alarm fuel) session = op.run fuel session) ∧
          (∀ v session', op.run fuel session = .done v session' → session'.machine.frames.OnlyGlobal) ∧
            ∀ e session', op.run fuel session = .fault e session' →
              session'.machine.frames.OnlyGlobal ∧ ∀ misuse, e ≠ .misuse misuse := by
  have hrest := reached.atRest
  refine ⟨Frames.onlyGlobal_iff.mpr hrest, fun op fuel => ⟨fun alarm => ?_, fun v session' hrun => ?_,
    fun e session' hrun => ?_⟩⟩
  · exact (op.run_agree alarm fuel).eq hrest
  · exact Frames.onlyGlobal_iff.mpr ((op.run_agree .unfinished fuel).of_done hrest hrun)
  · obtain ⟨hrest', hmisuse⟩ := (op.run_agree .unfinished fuel).of_fault hrest hrun
    exact ⟨Frames.onlyGlobal_iff.mpr hrest', hmisuse⟩

def failing : Operation :=
  .program [.function ⟨"main", [], .call "f" [.int 1]⟩,
    .function ⟨"f", ["n"], .block [.assign "g" (.var "n"), .binary .divide (.var "g") (.int 0)]⟩]

theorem stack_discipline_after_failing : ∃ session : Session,
    failing.run 10 (.start .unlimited) = .fault .divisionByZero session ∧
      session.machine.frames.OnlyGlobal := by
  refine ⟨_, rfl, ?_⟩
  exact (Reached.stack_discipline (.fault failing 10 (.start .unlimited) rfl)).1

end Session

end Scriptling
