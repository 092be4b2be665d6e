/-
  Scriptling.Session — running expressions, lines and programs one after another.

  A session keeps the global variables, the functions and what was printed from one run to the
  next, whether a run ends with a value or with a fault.
-/

import Scriptling.Eval
import Scriptling.Grammar.Line

namespace Scriptling

structure Session where
  functions : Functions := {}
  machine : Machine := {}
  deriving Repr, Inhabited

namespace Session

def start (sink : Sink) : Session := { machine := { sink } }

/-- Forgets every variable and function. What was printed stays. -/
def reset (session : Session) : Session := start session.machine.sink

def global? (session : Session) (name : String) : Option Value :=
  session.machine.frames.get? Frames.global name

def function? (session : Session) (name : String) : Option Function := session.functions.find? name

def printed (session : Session) : String := session.machine.sink.text

def evaluating {α : Type} (evaluation : Functions → Eval α) : Run Session α := fun ⟨functions, machine⟩ =>
  match evaluation functions machine with
  | .done a machine => .done a ⟨functions, machine⟩
  | .fault e machine => .fault e ⟨functions, machine⟩
  | .unfinished => .unfinished

def runExpr (fuel : Nat) (e : Expr) : Run Session Value :=
  evaluating fun functions => eval functions fuel Frames.global e

def runLines (fuel : Nat) (lines : List Expr) : Run Session Value :=
  lines.foldlM (fun _ line => runExpr fuel line) .unit

def addFunction (f : Function) : Run Session Unit := fun session =>
  if session.functions.contains f.name then .fault (.duplicateFunction f.name) session
  else .done () { session with functions := session.functions.insert f.name f }

def define (fuel : Nat) : Definition → Run Session Unit
  | .global name e =>
    evaluating fun functions => do
      let value ← eval functions fuel Frames.global e
      Eval.define Frames.global name value
  | .function f => addFunction f

def callMain (fuel : Nat) : Run Session Value :=
  evaluating fun functions =>
    match functions.find? "main" with
    | none => Run.raise .missingMain
    | some main => invoke (eval functions fuel) main [] Frames.global

/-- Carries out the definitions of a program in order, then calls `main`. -/
def runProgram (fuel : Nat) (program : Program) : Run Session Value := do
  program.forM (define fuel)
  callMain fuel

end Session

/-! ## Source texts -/

inductive Failure where
  /-- The text is no program. -/
  | rejected (error : SyntaxError)
  /-- The program stopped at a fault. -/
  | stopped (fault : Fault)
  deriving DecidableEq, Repr

def Failure.message : Failure → String
  | rejected error => error.message
  | stopped fault => fault.message

abbrev Answer := Except Failure Value × Session

namespace Session

/-- Parses a text and runs what it spells; `none` if the run was given up. -/
def runText {α : Type} (parse : String → Except SyntaxError α) (run : α → Run Session Value)
    (source : String) (session : Session) : Option Answer :=
  match parse source with
  | .error e => some (.error (.rejected e), session)
  | .ok a =>
    match run a session with
    | .done value session => some (.ok value, session)
    | .fault e session => some (.error (.stopped e), session)
    | .unfinished => none

end Session

def runSource (fuel : Nat) (source : String) (sink : Sink) : Option Answer :=
  Session.runText Program.parse (Session.runProgram fuel) source (.start sink)

/-- More nested evaluations and rounds of a loop than any machine has the time for. -/
def ampleFuel : Nat := 4611686018427387904

end Scriptling
