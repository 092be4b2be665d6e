/-
  Scriptling.Proofs.Lexeme.Sheet — tokens in any layout.

  A sheet is what an author puts down: tokens that can be written, integers with as many leading
  zeros as they like, and blanks and comments between them.
  - `Separator`: what stands between two tokens begins with a blank. A comment alone would not do,
    since after the token `/` it is three slashes, and these are all comment.
  - `Sheet.lexemes`: the tokens, each where the sheet has put its spelling.
  - `Sheet.scan_text`: a scan finds these lexemes and no others.
-/

import Scriptling.Proofs.Lexeme.Layout

namespace Scriptling

/-! ## Sheets -/

inductive Filler where
  | blank (c : Char) (blank : c ∈ [' ', '\t', '\r', '\n', '\x0c'])
  | comment (text : List Char) (inLine : '\n' ∉ text)

def Filler.chars : Filler → List Char
  | blank c _ => [c]
  | comment text _ => '/' :: '/' :: text ++ ['\n']

def fillerChars (fillers : List Filler) : List Char := fillers.flatMap Filler.chars

structure Separator where
  first : Char
  blank : first ∈ [' ', '\t', '\r', '\n', '\x0c']
  more : List Filler

def Separator.chars (gap : Separator) : List Char := gap.first :: fillerChars gap.more

structure Spelled where
  token : Token
  /-- How many zeros stand before an integer. -/
  zeros : Nat
  writable : token.Writable

def Spelled.chars (spelled : Spelled) : List Char :=
  match spelled.token with
  | .integer n => List.replicate spelled.zeros '0' ++ (Token.integer n).spelling.toList
  | token => token.spelling.toList

/-- Tokens with separators between them. After the last one there may be a separator or nothing. -/
inductive Row where
  | empty
  | last (spelled : Spelled)
  | cons (spelled : Spelled) (gap : Separator) (row : Row)

namespace Row

def chars : Row → List Char
  | empty => []
  | last spelled => spelled.chars
  | cons spelled gap row => spelled.chars ++ (gap.chars ++ row.chars)

def tokens : Row → List Token
  | empty => []
  | last spelled => [spelled.token]
  | cons spelled _ row => spelled.token :: row.tokens

def lexemes (before : List Char) : Row → List Lexeme
  | empty => []
  | last spelled => [.placed before spelled.chars spelled.token]
  | cons spelled gap row =>
    .placed before spelled.chars spelled.token :: row.lexemes (before ++ spelled.chars ++ gap.chars)

theorem tokens_lexemes (before : List Char) (row : Row) : Scriptling.tokens (row.lexemes before) = row.tokens := by
  induction row generalizing before with
  | empty | last => rfl
  | cons spelled gap row ih => rw [lexemes, tokens_cons, ih]; rfl

end Row

structure Sheet where
  lead : List Filler
  row : Row

namespace Sheet

def text (sheet : Sheet) : String := String.ofList (fillerChars sheet.lead ++ sheet.row.chars)

def tokens (sheet : Sheet) : List Token := sheet.row.tokens

def lexemes (sheet : Sheet) : List Lexeme := sheet.row.lexemes (fillerChars sheet.lead)

theorem tokens_lexemes (sheet : Sheet) : Scriptling.tokens sheet.lexemes = sheet.tokens :=
  sheet.row.tokens_lexemes _

end Sheet

/-! ## Leading zeros -/

theorem decimal_zeros (zeros : Nat) (digits : List Char) :
    decimal (List.replicate zeros '0' ++ digits) = decimal digits := by
  induction zeros with
  | zero => rfl
  | succ zeros ih => rw [List.replicate_succ, List.cons_append, decimal, ih, Nat.sub_self, Nat.zero_mul, Nat.zero_add]

theorem Spells.zeros {digits : List Char} {n : Nat} (h : Spells digits (.integer n)) (zeros : Nat) :
    Spells (List.replicate zeros '0' ++ digits) (.integer n) := by
  cases h with
  | integer hd hle =>
    rw [← decimal_zeros zeros digits] at hle ⊢
    refine .integer ⟨by simp [hd.1], fun c hc => ?_⟩ hle
    rcases List.mem_append.mp hc with hc | hc
    · rw [List.eq_of_mem_replicate hc]
      rfl
    · exact hd.2 c hc

theorem Spelled.spells (spelled : Spelled) : Spells spelled.chars spelled.token := by
  obtain ⟨token, zeros, hw⟩ := spelled
  have hspells := hw.spells
  cases token with
  | integer n => exact hspells.zeros zeros
  | identifier | keyword | operator | mark => exact hspells

/-! ## Scanning -/

theorem longest_of_nothing (text : List Char) : Longest text [] :=
  fun _ hne hpre => absurd (List.prefix_nil.mp hpre) hne

section Segmented

variable {rest before after : List Char} {lexemes : List Lexeme}

/-- A filler is no lexeme. -/
theorem Segmented.filler (filler : Filler) (h : Segmented rest (before ++ filler.chars) after lexemes) :
    Segmented rest before (filler.chars ++ after) lexemes := by
  cases filler with
  | blank c hc => exact .blank (.blank hc) h
  | comment text hline =>
    -- The end of the line is a blank of its own.
    have hcomment : IsPiece .blank ('/' :: '/' :: text) ('\n' :: after) :=
      .comment ⟨text, rfl, hline⟩ fun d hd => (Option.some.inj hd).symm
    have hend : Segmented rest (before ++ '/' :: '/' :: text) (['\n'] ++ after) lexemes :=
      .blank (.blank (by decide)) (by simpa [Filler.chars] using h)
    simpa [Filler.chars] using Segmented.blank hcomment hend

theorem Segmented.fillers (fillers : List Filler) (h : Segmented rest (before ++ fillerChars fillers) after lexemes) :
    Segmented rest before (fillerChars fillers ++ after) lexemes := by
  induction fillers generalizing before with
  | nil => simpa [fillerChars] using h
  | cons filler fillers ih =>
    have hrest : Segmented rest (before ++ filler.chars) (fillerChars fillers ++ after) lexemes :=
      ih (by simpa [fillerChars] using h)
    simpa [fillerChars] using hrest.filler

theorem Segmented.separator (gap : Separator) (h : Segmented rest (before ++ gap.chars) after lexemes) :
    Segmented rest before (gap.chars ++ after) lexemes := by
  have hmore : Segmented rest (before ++ [gap.first]) (fillerChars gap.more ++ after) lexemes :=
    .fillers gap.more (by simpa [Separator.chars] using h)
  simpa [Separator.chars] using Segmented.blank (.blank gap.blank) hmore

end Segmented

theorem Row.segmented (row : Row) (before : List Char) : Segmented [] before row.chars (row.lexemes before) := by
  induction row generalizing before with
  | empty => exact .stop
  | last spelled =>
    have hpiece := IsPiece.token spelled.spells (longest_of_nothing spelled.chars)
    simpa [chars, lexemes] using Segmented.token hpiece .stop
  | cons spelled gap row ih =>
    -- The separator begins with a blank, and no token goes on over a blank.
    have hblank := isBlank_iff.mpr gap.blank
    exact .token (.token spelled.spells (longest_of_blank spelled.spells hblank)) (.separator gap (ih _))

/-- A scan finds the tokens of a sheet where they were put. -/
theorem Sheet.scan_text (sheet : Sheet) :
    Lexeme.scan sheet.text =
      .ok ⟨sheet.lexemes, Position.ofOffset sheet.text (byteSize sheet.text.toList)⟩ := by
  have hseg : Segmented [] [] (fillerChars sheet.lead ++ sheet.row.chars) sheet.lexemes :=
    .fillers sheet.lead (sheet.row.segmented _)
  exact Lexeme.scan_eq_ok (by rwa [text, String.toList_ofList])

end Scriptling
