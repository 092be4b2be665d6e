/-
  Scriptling.LineIndex — where the lines of a text begin.

  An index is made once for a text and then gives the position of any byte offset by a
  binary search among the lines, without reading the text from its start again.
-/

import Scriptling.Position

namespace Scriptling

structure Line where
  start : Nat
  text : List Char
  deriving Inhabited

/-- The lines of a text in order, its length in bytes, and whether every character of it is
    one byte long. -/
structure LineIndex where
  lines : Array Line
  size : Nat
  ascii : Bool

namespace LineIndex

def linesFrom (lines : Array Line) (offset : Nat) : List Char → Array Line
  | [] => lines
  | c :: text =>
    if c = '\n' then linesFrom (lines.push ⟨offset + 1, text⟩) (offset + 1) text
    else linesFrom lines (offset + c.utf8Size) text

def ofText (source : String) : LineIndex :=
  let text := source.toList
  ⟨linesFrom #[⟨0, text⟩] 0 text, byteSize text, text.all (fun c => c.utf8Size == 1)⟩

def beginsBy (index : LineIndex) (offset k : Nat) : Bool :=
  index.lines[k]?.any (fun line => line.start ≤ offset)

/-- How many lines begin at or before `offset`, when the first `low` do and those from `high`
    on do not. -/
def search (index : LineIndex) (offset low high : Nat) : Nat :=
  if low < high then
    let middle := (low + high) / 2
    if index.beginsBy offset middle then index.search offset (middle + 1) high
    else index.search offset low middle
  else low
termination_by high - low

/-- The position of a byte offset. An offset past the end stands for the end; between ASCII
    characters the column is the distance in bytes, and elsewhere the characters of the line
    are counted. -/
def position (index : LineIndex) (offset : Nat) : Position :=
  let offset := min offset index.size
  let number := index.search offset 0 index.lines.size
  let line := index.lines[number - 1]?.getD ⟨0, []⟩
  if index.ascii then ⟨number, offset - line.start + 1⟩
  else Position.afterBytes ⟨number, 1⟩ line.text (offset - line.start)

end LineIndex

end Scriptling
