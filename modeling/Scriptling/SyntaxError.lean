/-
  Scriptling.SyntaxError — why a text is not a program, and where.
-/

import Scriptling.Position

namespace Scriptling

inductive SyntaxFault where
  /-- Another token was expected than the one found. -/
  | unexpected (expected found : String)
  /-- More was expected, but the text ends. -/
  | endOfInput (expected : String)
  /-- No token begins with this character. -/
  | invalidCharacter (text : String)
  /-- An integer literal, as written, is above the largest integer. -/
  | literalTooLarge (text : String)
  deriving DecidableEq, Repr

structure SyntaxError where
  fault : SyntaxFault
  position : Position
  deriving DecidableEq, Repr

namespace SyntaxFault

def describe : SyntaxFault → String
  | unexpected expected found => "Expected " ++ expected ++ ", found " ++ found ++ "."
  | endOfInput expected => "Expected " ++ expected ++ ", found end of input."
  | invalidCharacter text => "Invalid character sequence '" ++ text ++ "'."
  | literalTooLarge text => "Integer literal " ++ text ++ " is too large."

end SyntaxFault

namespace SyntaxError

def message (e : SyntaxError) : String :=
  "Error on line " ++ toString e.position.line ++ ", column " ++ toString e.position.column ++
    ": " ++ e.fault.describe

end SyntaxError

end Scriptling
