/-
  Scriptling.Grammar.Reader — reading a text rule by rule.

  A reader stands in the lexemes of a text and moves as rules are applied to it. It may be put
  anywhere, also past the end, where it finds no lexeme and stays.
-/

import Scriptling.Grammar.Line

namespace Scriptling

/-- The lexemes of a text, and how many of them lie behind the reader. -/
structure Reader where
  lexemes : Lexemes
  index : Nat

namespace Reader

def ofText (source : String) : Except SyntaxError Reader :=
  (Lexeme.scan source).map fun lexemes => ⟨lexemes, 0⟩

def rest (reader : Reader) : List Lexeme := reader.lexemes.list.drop reader.index

def size (reader : Reader) : Nat := reader.lexemes.list.length

def atEnd (reader : Reader) : Bool := reader.size ≤ reader.index

def moveTo (reader : Reader) (index : Nat) : Reader := { reader with index }

/-- The reader with only `rest` ahead, the end of what is ahead now. -/
def leaving (reader : Reader) (rest : List Lexeme) : Reader :=
  reader.moveTo (reader.index + (reader.rest.length - rest.length))

def apply {α : Type} (reader : Reader) (rule : Rule α) : Except SyntaxError α × Reader :=
  match rule reader.lexemes.stop reader.rest with
  | .ok a rest => (.ok a, reader.leaving rest)
  | .fail e rest => (.error e, reader.leaving rest)

def mismatch (reader : Reader) (expected : String) : SyntaxError :=
  Rule.mismatch expected reader.lexemes.stop reader.rest

end Reader

end Scriptling
