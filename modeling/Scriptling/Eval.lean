/-
  Scriptling.Eval — evaluating expressions.

  An evaluation runs on a `Machine`, the frames and the sink, and never changes the functions.
  It is given `fuel`: how deep evaluations may be nested, and how many rounds a loop may take.
  A run that needs more is given up; a run that ends does not depend on it.
  - `evalNode` evaluates one node, given how to evaluate the nodes below it. `eval` ties the
    knot: `eval_succ`.
  - A call evaluates its arguments in the frame of the caller, from left to right, and its body
    in a new frame whose parent is the frame of the caller.
-/

import Scriptling.Arithmetic
import Scriptling.Expr
import Scriptling.Run
import Scriptling.Sink

namespace Scriptling

structure Machine where
  frames : Frames := .initial
  sink : Sink := .unlimited
  deriving Repr, Inhabited

abbrev Eval (α : Type) := Run Machine α

abbrev Functions := Bindings Function

namespace Eval

/-! ## Frames and printing -/

@[inline] def changeFrames (change : Frames → Except Misuse Frames) : Eval Unit := fun m =>
  match change m.frames with
  | .ok frames => .done () { m with frames }
  | .error e => .fault (.misuse e) m

def read (frame : Nat) (name : String) : Eval Value := fun m =>
  match m.frames.read? frame name with
  | some value => .done value m
  | none => .fault (.undefinedVariable name) m

def define (frame : Nat) (name : String) (value : Value) : Eval Unit :=
  changeFrames (·.define frame name value)

/-- Binds a name anew where `frame` sees it, or else in `frame`. -/
def assign (frame : Nat) (name : String) (value : Value) : Eval Unit :=
  changeFrames (·.assign frame name value)

/-- Opens a frame for a call from `caller`, unless too many calls are active. -/
def enter (caller : Nat) : Eval Nat := fun m =>
  if maxCalls ≤ m.frames.depth - 1 then .fault .tooManyCalls m
  else
    let frame := m.frames.nextId
    .done frame { m with frames := m.frames.push caller }

def leave (frame : Nat) : Eval Unit := changeFrames (·.pop frame)

def printLine (text : String) : Eval Unit := fun m =>
  let (fits, sink) := m.sink.write (text ++ "\n")
  let m := { m with sink }
  if fits then .done () m else .fault .sinkFull m

end Eval

/-! ## Calls -/

def Functions.get (functions : Functions) (name : String) : Except Fault Function :=
  match functions.find? name with
  | some f => .ok f
  | none => .error (.undefinedFunction name)

namespace Function

def checkArity (f : Function) (name : String) (count : Nat) : Except Fault Unit :=
  if count = f.params.length then .ok () else .error (.arity name f.params.length count)

/-- Fails at the first label that is none of `params`, or that comes again after `seen` or
    after itself. -/
def checkLabels (params : List String) : List String → List (String × Expr) → Except LabelFault Unit
  | _, [] => .ok ()
  | seen, (label, _) :: rest =>
    if label ∉ params then .error (.unknown label)
    else if label ∈ seen then .error (.repeated label)
    else checkLabels params (label :: seen) rest

def argumentFor (arguments : List (String × Expr)) (param : String) : Except LabelFault Expr :=
  match arguments.lookup param with
  | some e => .ok e
  | none => .error (.missing param)

def arrange (f : Function) (arguments : List (String × Expr)) : Except LabelFault (List Expr) := do
  checkLabels f.params [] arguments
  f.params.mapM (argumentFor arguments)

end Function

/-- Calls a function from `caller` with the given values. The new frame is released however the
    body ends. -/
def invoke (evalBody : Nat → Expr → Eval Value) (f : Function) (values : List Value)
    (caller : Nat) : Eval Value := do
  Run.ofExcept (f.checkArity f.name values.length)
  let frame ← Eval.enter caller
  (f.params.zip values).forM fun (param, value) => Eval.define frame param value
  let result ← Run.attempt (evalBody frame f.body)
  Eval.leave frame
  Run.ofExcept result

/-! ## Expressions -/

def evalTest {σ : Type} (eval : Expr → Run σ Value) (context : String) (condition : Expr) : Run σ Bool := do
  let value ← eval condition
  Run.ofExcept (value.toBool context)

/-- Evaluates one node in `frame`, given `eval` for the nodes below it, `evalBody` for the body of a
    function in a frame of its own, and a bound for the rounds of a loop. -/
def evalNode (functions : Functions) (rounds : Nat) (eval : Expr → Eval Value)
    (evalBody : Nat → Expr → Eval Value) (frame : Nat) : Expr → Eval Value
  | .int n => pure (.int n)
  | .bool b => pure (.bool b)
  | .array items => do
    let values ← items.mapM eval
    pure (.array values)
  | .var name => Eval.read frame name
  | .binary op left right => do
    let l ← eval left
    let r ← eval right
    Run.ofExcept (op.apply l r)
  | .assign name e => do
    let value ← eval e
    Eval.assign frame name value
    pure value
  | .block lines => lines.foldlM (fun _ line => eval line) .unit
  | .ifThen condition body => do
    if ← evalTest eval "if condition" condition then eval body
    else pure .unit
  | .ifElse condition body orElse => do
    if ← evalTest eval "if condition" condition then eval body
    else eval orElse
  | .whileDo condition body => do
    Run.repeatWhile (evalTest eval "while condition" condition) (eval body) rounds
    pure (.bool true)
  | .call name arguments => do
    let f ← Run.ofExcept (functions.get name)
    Run.ofExcept (f.checkArity name arguments.length)
    let values ← arguments.mapM eval
    invoke evalBody f values frame
  | .labelledCall name arguments => do
    let f ← Run.ofExcept (functions.get name)
    let arranged ← Run.ofExcept ((f.arrange arguments).mapError (Fault.labels name))
    let values ← arranged.mapM eval
    invoke evalBody f values frame
  | .println argument => do
    let value ← eval argument
    Eval.printLine value.render
    pure value

def eval (functions : Functions) : Nat → Nat → Expr → Eval Value
  | 0, _, _ => Run.giveUp
  | fuel + 1, frame, e => evalNode functions fuel (eval functions fuel frame) (eval functions fuel) frame e

@[simp] theorem eval_zero (functions : Functions) (frame : Nat) (e : Expr) :
    eval functions 0 frame e = Run.giveUp := rfl

theorem eval_succ (functions : Functions) (fuel : Nat) (frame : Nat) (e : Expr) :
    eval functions (fuel + 1) frame e =
      evalNode functions fuel (eval functions fuel frame) (eval functions fuel) frame e := rfl

end Scriptling
