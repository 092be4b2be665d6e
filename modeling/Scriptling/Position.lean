/-
  Scriptling.Position — lines and columns of a text.

  Lines are counted from 1 and end at a line feed, columns count characters from 1. Offsets
  count the bytes of the text in UTF-8 (`byteSize`).
  - `Position.advance` follows one character, `Position.afterAll` a stretch of text.
  - `Position.ofOffset` finds the position of a byte offset by reading up to it.
-/

namespace Scriptling

def byteSize (text : List Char) : Nat := text.foldl (fun n c => n + c.utf8Size) 0

@[simp] theorem byteSize_nil : byteSize [] = 0 := rfl

@[simp] theorem byteSize_cons (c : Char) (text : List Char) :
    byteSize (c :: text) = c.utf8Size + byteSize text := by
  have shift (n m : Nat) : text.foldl (fun n c => n + c.utf8Size) (n + m) =
      n + text.foldl (fun n c => n + c.utf8Size) m := by
    induction text generalizing m with
    | nil => rfl
    | cons d text ih => simp [List.foldl_cons, Nat.add_assoc, ih]
  simpa [byteSize] using shift c.utf8Size 0

@[simp] theorem byteSize_append (text more : List Char) :
    byteSize (text ++ more) = byteSize text + byteSize more := by
  induction text with
  | nil => simp
  | cons c text ih => simp [ih, Nat.add_assoc]

/-- A place in a text: its line and, within the line, its column, both from 1. -/
structure Position where
  line : Nat
  column : Nat
  deriving DecidableEq, Repr, Inhabited

namespace Position

def start : Position := ⟨1, 1⟩

/-- Reading order: by line, and within a line by column. -/
instance : LT Position := ⟨fun p q => p.line < q.line ∨ (p.line = q.line ∧ p.column < q.column)⟩

theorem lt_def (p q : Position) :
    p < q ↔ p.line < q.line ∨ (p.line = q.line ∧ p.column < q.column) := Iff.rfl

instance (p q : Position) : Decidable (p < q) := decidable_of_iff' _ (lt_def p q)

/-- The place after the character `c` at `p`. Only a line feed ends a line. -/
def advance (p : Position) (c : Char) : Position :=
  if c = '\n' then ⟨p.line + 1, 1⟩ else ⟨p.line, p.column + 1⟩

def afterAll (p : Position) (text : List Char) : Position := text.foldl advance p

@[simp] theorem afterAll_nil (p : Position) : p.afterAll [] = p := rfl

@[simp] theorem afterAll_cons (p : Position) (c : Char) (text : List Char) :
    p.afterAll (c :: text) = (p.advance c).afterAll text := rfl

@[simp] theorem afterAll_append (p : Position) (text more : List Char) :
    p.afterAll (text ++ more) = (p.afterAll text).afterAll more := List.foldl_append ..

/-- The place `offset` bytes into `text`, which begins at `p`. An offset past the end stands
    for the end, and one inside a character for the first column of that line. -/
def afterBytes (p : Position) : List Char → Nat → Position
  | [], _ => p
  | c :: text, offset =>
    if offset = 0 then p
    else if offset < c.utf8Size then ⟨p.line, 1⟩
    else afterBytes (p.advance c) text (offset - c.utf8Size)

def ofOffset (source : String) (offset : Nat) : Position := start.afterBytes source.toList offset

end Position

end Scriptling
