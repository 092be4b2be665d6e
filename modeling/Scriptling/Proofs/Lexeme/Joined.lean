/-
  Scriptling.Proofs.Lexeme.Joined — two texts with the end of a line between them.

  No token and no comment goes on over the end of a line. So the pieces of a text stay what they are
  when a line feed and more text come after it, and the tokens of the text that is joined are those
  of the one and then those of the other (`Lexeme.scan_joined`).
-/

import Scriptling.Proofs.Lexeme.Segmentation
import Scriptling.Proofs.Grammar.Reading

namespace Scriptling

/-! ## Pieces before the end of a line -/

theorem not_isBlank_of_continuesWord {c : Char} (h : continuesWord c = true) : isBlank c = false := by
  rcases Bool.or_eq_true_iff.mp h with h | h
  · exact (of_beginsWord h).1
  · exact (of_isDigit h).1

/-- There is no blank in a token. -/
theorem IsTokenText.not_isBlank {text : List Char} (h : IsTokenText text) {c : Char} (hc : c ∈ text) :
    isBlank c = false := by
  cases text with
  | nil => cases hc
  | cons first more =>
    rcases h.cases with ⟨hfirst, hmore⟩ | ⟨hfirst, hmore⟩ | ⟨rfl, hsingle⟩ | ⟨rfl, hpair⟩
    · rcases List.mem_cons.mp hc with rfl | hc
      · exact (of_isDigit hfirst).1
      · exact (of_isDigit (hmore c hc)).1
    · rcases List.mem_cons.mp hc with rfl | hc
      · exact (of_beginsWord hfirst).1
      · exact not_isBlank_of_continuesWord (hmore c hc)
    · obtain rfl := List.mem_singleton.mp hc
      exact (Scriptling.of_sign (.inl hsingle)).1
    · rcases List.mem_cons.mp hc with rfl | hc
      · exact (Scriptling.of_sign (.inr hpair)).1
      · obtain rfl := List.mem_singleton.mp hc
        decide

theorem IsComment.not_newline {text : List Char} (h : IsComment text) : '\n' ∉ text := by
  obtain ⟨more, rfl, hmore⟩ := h
  intro hc
  rcases List.mem_cons.mp hc with hc | hc
  · cases hc
  · rcases List.mem_cons.mp hc with hc | hc
    · cases hc
    · exact hmore hc

/-- A front of a text that does not go over the end of its first line is a front of that line. -/
theorem prefix_of_not_newline {front line more : List Char} (h : front <+: line ++ '\n' :: more) (hno : '\n' ∉ front) :
    front <+: line := by
  rcases List.prefix_or_prefix_of_prefix h (List.prefix_append line _) with hfront | ⟨beyond, rfl⟩
  · exact hfront
  · have hbeyond : beyond <+: '\n' :: more := (List.prefix_append_right_inj line).mp h
    cases beyond with
    | nil => simp
    | cons c beyond =>
      obtain ⟨rfl, -⟩ := List.cons_prefix_cons.mp hbeyond
      exact absurd (List.mem_append_right line (List.mem_cons_self ..)) hno

theorem Longest.before_line {text after : List Char} (h : Longest text after) (more : List Char) :
    Longest text (after ++ '\n' :: more) := by
  intro longer hne hpre
  -- What goes on over the end of the line has a line feed in it; what does not was there before.
  by_cases hline : '\n' ∈ longer
  · have hmem : '\n' ∈ text ++ longer := List.mem_append_right text hline
    refine ⟨fun htoken => ?_, fun hcomment => hcomment.not_newline hmem⟩
    have hblank := htoken.not_isBlank hmem
    revert hblank
    decide
  · exact h longer hne (prefix_of_not_newline hpre hline)

/-- A piece that is no fault stays one when the end of a line and more text come after. -/
theorem IsPiece.before_line {kind : PieceKind} {text after : List Char} (h : IsPiece kind text after)
    (hkind : ∀ fault, kind ≠ .fault fault) (more : List Char) : IsPiece kind text (after ++ '\n' :: more) := by
  cases h with
  | blank hc => exact .blank hc
  | comment hcomment hend =>
    refine .comment hcomment fun d hd => ?_
    cases after with
    | nil => exact (Option.some.inj hd).symm
    | cons c after => exact hend d hd
  | token hs hlong => exact .token hs (hlong.before_line more)
  | tooLarge _ _ _ => exact absurd rfl (hkind _)
  | invalid _ => exact absurd rfl (hkind _)

/-! ## Segmented texts -/

namespace Segmented

variable {rest before text : List Char} {lexemes : List Lexeme}

/-- A text that is segmented up to its end is segmented up to the end of the line. -/
theorem before_line (h : Segmented [] before text lexemes) (more : List Char) :
    Segmented ('\n' :: more) before (text ++ '\n' :: more) lexemes := by
  induction h with
  | stop => exact .stop
  | blank hp _ ih =>
    rw [List.append_assoc]
    exact .blank (hp.before_line (by simp) more) ih
  | token hp _ ih =>
    rw [List.append_assoc]
    exact .token (hp.before_line (by simp) more) ih

/-- Where one segmentation stops another one may go on. -/
theorem append {rest' front : List Char} {lexemes' : List Lexeme} (h : Segmented rest before text lexemes)
    (hfront : text = front ++ rest) (h' : Segmented rest' (before ++ front) rest lexemes') :
    Segmented rest' before text (lexemes ++ lexemes') := by
  induction h generalizing front with
  | stop =>
    obtain rfl : front = [] := List.append_left_eq_self.mp hfront.symm
    simpa using h'
  | @blank before text after lexemes hp hseg ih =>
    obtain ⟨front', rfl, -⟩ := hseg.scanFrom_eq []
    rw [← List.append_assoc] at hfront
    obtain rfl := List.append_cancel_right hfront
    exact .blank hp (ih rfl (by rwa [List.append_assoc]))
  | @token before text after t lexemes hp hseg ih =>
    obtain ⟨front', rfl, -⟩ := hseg.scanFrom_eq []
    rw [← List.append_assoc] at hfront
    obtain rfl := List.append_cancel_right hfront
    exact .token hp (ih rfl (by rwa [List.append_assoc]))

/-- What comes before a text has no part in how it is segmented, but only in where its lexemes are. -/
theorem elsewhere (h : Segmented rest before text lexemes) (before' : List Char) :
    ∃ lexemes', Segmented rest before' text lexemes' ∧ tokens lexemes' = tokens lexemes := by
  induction h generalizing before' with
  | stop => exact ⟨[], .stop, rfl⟩
  | @blank before text after lexemes hp _ ih =>
    obtain ⟨lexemes', hseg, htokens⟩ := ih (before' ++ text)
    exact ⟨lexemes', .blank hp hseg, htokens⟩
  | @token before text after t lexemes hp _ ih =>
    obtain ⟨lexemes', hseg, htokens⟩ := ih (before' ++ text)
    refine ⟨.placed before' text t :: lexemes', .token hp hseg, ?_⟩
    rw [tokens_cons, tokens_cons, htokens]
    rfl

end Segmented

def joined (a b : String) : String := a ++ "\n" ++ b

theorem toList_joined (a b : String) : (joined a b).toList = a.toList ++ '\n' :: b.toList := by
  rw [joined, String.toList_append, String.toList_append, List.append_assoc]
  rfl

/-- The tokens of a joined text are those of the first and then those of the second. -/
theorem Lexeme.scan_joined {a b : String} {as bs : Lexemes} (ha : scan a = .ok as) (hb : scan b = .ok bs) :
    ∃ lexemes, scan (joined a b) = .ok lexemes ∧ tokens lexemes.list = tokens as.list ++ tokens bs.list := by
  obtain ⟨hsegA, -⟩ := scan_eq_ok_iff.mp ha
  obtain ⟨hsegB, -⟩ := scan_eq_ok_iff.mp hb
  obtain ⟨lexemes, hmore, htokens⟩ := hsegB.elsewhere (a.toList ++ ['\n'])
  have hline : Segmented [] ([] ++ a.toList) ('\n' :: b.toList) lexemes := .blank (.blank (by decide)) hmore
  have hseg := (hsegA.before_line b.toList).append rfl hline
  rw [← toList_joined] at hseg
  refine ⟨_, scan_eq_ok hseg, ?_⟩
  rw [← htokens]
  exact List.map_append

end Scriptling
