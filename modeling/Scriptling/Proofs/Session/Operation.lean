/-
  Scriptling.Proofs.Session.Operation — the operations of a session.

  A session is reached by operations one after another, each of which ended with a value or with
  a fault. An operation evaluates expressions in the global frame; `Operation.runBy` is the
  operation with another evaluator in the place of `eval`, which is told how many calls are active.
-/

import Scriptling.Session
import Scriptling.Proofs.Run.Leads

namespace Scriptling

/-- An evaluation ends in a session with the same functions. -/
theorem Session.endsIn_evaluating {α : Type} {evaluation : Functions → Eval α} {session session' : Session} :
    (evaluating evaluation session).EndsIn session' ↔
      ∃ m, (evaluation session.functions session.machine).EndsIn m ∧ session' = { session with machine := m } := by
  obtain ⟨functions, machine⟩ := session
  unfold evaluating
  dsimp only
  cases evaluation functions machine with
  | done a m => simp [eq_comm]
  | fault e m => simp [eq_comm]
  | unfinished => simp

inductive Operation where
  | program (program : Program)
  | lines (lines : List Expr)
  | expr (e : Expr)
  | reset

abbrev Evaluator := Functions → (calls frame : Nat) → Expr → Eval Value

namespace Session

variable (evaluator : Evaluator)

def runExprBy (e : Expr) : Run Session Value :=
  evaluating fun functions => evaluator functions 0 Frames.global e

def defineBy : Definition → Run Session Unit
  | .global name e =>
    evaluating fun functions => do
      let value ← evaluator functions 0 Frames.global e
      Eval.define Frames.global name value
  | .function f => addFunction f

def callMainBy : Run Session Value :=
  evaluating fun functions =>
    match functions.find? "main" with
    | none => Run.raise .missingMain
    | some main => invoke (evaluator functions 1) main [] Frames.global

end Session

open Session

namespace Operation

def run (fuel : Nat) : Operation → Run Session Value
  | program p => runProgram fuel p
  | lines ls => runLines fuel ls
  | expr e => runExpr fuel e
  | reset => fun session => .done .unit session.reset

def runBy (evaluator : Evaluator) : Operation → Run Session Value
  | program p => do
    p.forM (defineBy evaluator)
    callMainBy evaluator
  | lines ls => ls.foldlM (fun _ line => runExprBy evaluator line) .unit
  | expr e => runExprBy evaluator e
  | reset => fun session => .done .unit session.reset

theorem runBy_eval (op : Operation) (fuel : Nat) :
    op.runBy (fun functions _ => eval functions fuel) = op.run fuel := by
  have hdefine : defineBy (fun functions _ => eval functions fuel) = define fuel := by
    funext definition
    cases definition <;> rfl
  cases op with
  | program p =>
    simp only [runBy, hdefine]
    rfl
  | lines _ | expr _ | reset => rfl

end Operation

/-- The sessions that operations lead to from a fresh one. -/
inductive Session.Reached : Session → Prop
  | start (sink : Sink) : Reached (.start sink)
  | done {session session' : Session} {v : Value} (op : Operation) (fuel : Nat) :
      Reached session → op.run fuel session = .done v session' → Reached session'
  | fault {session session' : Session} {e : Fault} (op : Operation) (fuel : Nat) :
      Reached session → op.run fuel session = .fault e session' → Reached session'

end Scriptling
