/-
  Scriptling.Lexeme — cutting a text into tokens.

  At each place the longest token is taken, and blanks and comments between tokens are left
  out. The first character that begins no token, or the first integer literal above
  `maxInteger`, ends the scan with an error.
  - `Piece.next` cuts one piece off the front of a text, `Lexeme.scan` cuts a whole text.
  - `Piece.next_append`: a piece and its rest are the text it was cut from.
-/

import Scriptling.Token
import Scriptling.SyntaxError

namespace Scriptling

/-- The largest integer of the language, `2 ^ 63 - 1`. -/
def maxInteger : Nat := 9223372036854775807

structure Lexeme where
  token : Token
  start : Nat
  stop : Nat
  position : Position
  deriving DecidableEq, Repr, Inhabited

structure Lexemes where
  list : List Lexeme
  stop : Position
  deriving DecidableEq, Repr, Inhabited

/-! ## Characters -/

def isBlank (c : Char) : Bool :=
  c == ' ' || c == '\t' || c == '\r' || c == '\n' || c == '\x0c'

def beginsWord (c : Char) : Bool := c.isAlpha || c == '_'

def continuesWord (c : Char) : Bool := beginsWord c || c.isDigit

def singleToken? (c : Char) : Option Token :=
  match c with
  | '+' => some (.operator .add)
  | '-' => some (.operator .subtract)
  | '*' => some (.operator .multiply)
  | '/' => some (.operator .divide)
  | '<' => some (.operator .less)
  | '>' => some (.operator .greater)
  | '=' => some (.mark .assign)
  | '(' => some (.mark .openParen)
  | ')' => some (.mark .closeParen)
  | '{' => some (.mark .openBrace)
  | '}' => some (.mark .closeBrace)
  | '[' => some (.mark .openBracket)
  | ']' => some (.mark .closeBracket)
  | ',' => some (.mark .comma)
  | ';' => some (.mark .semicolon)
  | _ => none

/-- The token that a character followed by `=` is. -/
def pairToken? (c : Char) : Option Token :=
  match c with
  | '<' => some (.operator .lessOrEqual)
  | '>' => some (.operator .greaterOrEqual)
  | '=' => some (.operator .equal)
  | '!' => some (.operator .notEqual)
  | _ => none

/-! ## Pieces -/

inductive PieceKind where
  | blank
  | token (token : Token)
  | fault (fault : SyntaxFault)
  deriving DecidableEq, Repr

structure Piece where
  kind : PieceKind
  text : List Char
  rest : List Char

namespace Piece

def run (goesOn : Char → Bool) (kind : List Char → PieceKind) (c : Char) (rest : List Char) : Piece :=
  let text := c :: rest.takeWhile goesOn
  ⟨kind text, text, rest.dropWhile goesOn⟩

def integer (digits : List Char) : PieceKind :=
  let value := Nat.ofDigitChars 10 digits 0
  if value ≤ maxInteger then .token (.integer value)
  else .fault (.literalTooLarge (String.ofList digits))

def word (letters : List Char) : PieceKind :=
  let name := String.ofList letters
  match Keyword.ofWord? name with
  | some k => .token (.keyword k)
  | none => .token (.identifier name)

/-- An operator or a mark, of two characters if possible. -/
def sign (c : Char) (rest : List Char) : Piece :=
  match pairToken? c, rest with
  | some token, '=' :: rest => ⟨.token token, [c, '='], rest⟩
  | _, rest =>
    match singleToken? c with
    | some token => ⟨.token token, [c], rest⟩
    | none => ⟨.fault (.invalidCharacter (String.singleton c)), [c], rest⟩

def next (c : Char) (rest : List Char) : Piece :=
  if isBlank c then ⟨.blank, [c], rest⟩
  else if c = '/' ∧ rest.head? = some '/' then run (· != '\n') (fun _ => .blank) c rest
  else if c.isDigit then run Char.isDigit integer c rest
  else if beginsWord c then run continuesWord word c rest
  else sign c rest

theorem run_append (goesOn : Char → Bool) (kind : List Char → PieceKind) (c : Char) (rest : List Char) :
    (run goesOn kind c rest).text ++ (run goesOn kind c rest).rest = c :: rest := by
  simp [run, List.takeWhile_append_dropWhile]

theorem sign_append (c : Char) (rest : List Char) :
    (sign c rest).text ++ (sign c rest).rest = c :: rest := by
  unfold sign
  repeat' split
  all_goals simp_all

/-- A piece and its rest are the text it was cut from. -/
theorem next_append (c : Char) (rest : List Char) :
    (next c rest).text ++ (next c rest).rest = c :: rest := by
  unfold next
  repeat' split
  all_goals simp [run_append, sign_append]

theorem next_text_ne_nil (c : Char) (rest : List Char) : (next c rest).text ≠ [] := by
  unfold next run sign
  repeat' split
  all_goals simp

/-- A piece is not empty, so its rest is shorter than the text. -/
theorem next_rest_length_lt (c : Char) (rest : List Char) :
    (next c rest).rest.length < (c :: rest).length := by
  have whole := congrArg List.length (next_append c rest)
  have nonempty := List.length_pos_iff.mpr (next_text_ne_nil c rest)
  simp only [List.length_append] at whole
  omega

end Piece

/-! ## Scanning -/

namespace Lexeme

/-- Scans `text`, which stands at the byte offset `offset` and at `position`, after the lexemes
    `found`, the last of them first. -/
def scanFrom (found : List Lexeme) (offset : Nat) (position : Position) :
    List Char → Except SyntaxError Lexemes
  | [] => .ok ⟨found.reverse, position⟩
  | c :: rest =>
    let piece := Piece.next c rest
    let stop := offset + byteSize piece.text
    match piece.kind with
    | .blank => scanFrom found stop (position.afterAll piece.text) piece.rest
    | .token token =>
      scanFrom (⟨token, offset, stop, position⟩ :: found) stop (position.afterAll piece.text) piece.rest
    | .fault fault => .error ⟨fault, position⟩
termination_by text => text.length
decreasing_by all_goals exact Piece.next_rest_length_lt c rest

def scan (source : String) : Except SyntaxError Lexemes := scanFrom [] 0 .start source.toList

end Lexeme

end Scriptling
