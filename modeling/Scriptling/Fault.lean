/-
  Scriptling.Fault — why a program stops without a value.
-/

import Scriptling.Frames
import Scriptling.Operator

namespace Scriptling

inductive LabelFault where
  | unknown (label : String)
  | repeated (label : String)
  | missing (label : String)
  deriving DecidableEq, Repr

/-- How many calls may be active at once. -/
def maxCalls : Nat := 10000

inductive Fault where
  /-- No frame binds the name. -/
  | undefinedVariable (name : String)
  /-- No function has the name. -/
  | undefinedFunction (name : String)
  /-- A call passes another number of arguments than the function has parameters. -/
  | arity (name : String) (expected found : Nat)
  /-- The labels of a call are not those of the function's parameters. -/
  | labels (name : String) (fault : LabelFault)
  /-- A value is of another kind than its use asks for. -/
  | kind (expected found : Kind) (context : String)
  | divisionByZero
  /-- The result of the operator is no 64-bit integer. -/
  | overflow (op : Operator)
  /-- A program has no function `main`. -/
  | missingMain
  /-- A second function with the same name is defined. -/
  | duplicateFunction (name : String)
  /-- A call is made while `maxCalls` calls are active. -/
  | tooManyCalls
  /-- What is printed does not fit. -/
  | sinkFull
  /-- The frames were misused. -/
  | misuse (misuse : Misuse)
  deriving DecidableEq, Repr

def LabelFault.describe : LabelFault → String
  | unknown label => "unknown label '" ++ label ++ "'"
  | repeated label => "label '" ++ label ++ "' given more than once"
  | missing label => "missing label '" ++ label ++ "'"

namespace Fault

def describe : Fault → String
  | undefinedVariable name => "Undefined variable '" ++ name ++ "'"
  | undefinedFunction name => "Function '" ++ name ++ "' is not found"
  | arity name expected found =>
    "Function '" ++ name ++ "' expects " ++ toString expected ++ " argument(s), but " ++
      toString found ++ " were given"
  | labels name fault =>
    "Labelled call to '" ++ name ++ "' does not match its parameters: " ++ fault.describe
  | kind expected found context =>
    "Type mismatch in " ++ context ++ ": expected " ++ expected.name ++ ", found " ++ found.name
  | divisionByZero => "Division by zero"
  | overflow op => "Integer overflow in '" ++ op.symbol ++ "'"
  | missingMain => "This program doesn't have a main() function"
  | duplicateFunction name => "Function '" ++ name ++ "' is already defined"
  | tooManyCalls => "Maximum call depth of " ++ toString maxCalls ++ " exceeded"
  | sinkFull => "Failed to write output: sink is full"
  | misuse m => m.message

def message (fault : Fault) : String := "Runtime error: " ++ fault.describe ++ "."

end Fault

end Scriptling
