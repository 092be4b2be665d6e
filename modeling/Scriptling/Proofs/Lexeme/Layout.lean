/-
  Scriptling.Proofs.Lexeme.Layout — texts with given tokens.

  A token can be written if it is an integer that is not too large, a name that is no keyword, or
  any keyword, operator or mark.
  - `Lexeme.scan_textOf`: tokens that can be written, with a space after each, are scanned as they
    are.
  - `Lexeme.writable_of_scan`: no other tokens come out of a scan.
-/

import Scriptling.Proofs.Lexeme.Segmentation
import Scriptling.Proofs.Grammar.Reading

namespace Scriptling

/-! ## Tokens that can be written -/

/-- A name is a word, and no keyword. -/
def Nameable (x : String) : Prop := IsWord x.toList ∧ ∀ k : Keyword, k.spelling ≠ x

@[simp] def Token.Writable : Token → Prop
  | .integer n => n ≤ maxInteger
  | .identifier x => Nameable x
  | .keyword _ | .operator _ | .mark _ => True

def Writable (ts : List Token) : Prop := ∀ t ∈ ts, t.Writable

@[simp] theorem writable_nil : Writable [] := by simp [Writable]

@[simp] theorem writable_cons {t : Token} {ts : List Token} : Writable (t :: ts) ↔ t.Writable ∧ Writable ts := by
  simp [Writable]

@[simp] theorem writable_append {ts us : List Token} : Writable (ts ++ us) ↔ Writable ts ∧ Writable us := by
  simp [Writable, or_imp, forall_and]

/-- Only tokens that can be written are spelled by any text. -/
theorem Spells.writable {text : List Char} {t : Token} (h : Spells text t) : t.Writable := by
  cases h with
  | integer _ hle => exact hle
  | identifier hw hno =>
    refine ⟨by rwa [String.toList_ofList], fun k heq => hno k ?_⟩
    rw [heq, String.toList_ofList]
  | keyword _ | operator _ | mark _ => trivial

/-- Those that can be written are spelled by their own spelling. -/
theorem Token.Writable.spells {t : Token} (h : t.Writable) : Spells t.spelling.toList t := by
  cases t with
  | integer n =>
    have hdigits : IsDigits (Nat.toDigits 10 n) :=
      ⟨Nat.toDigits_ne_nil, fun c hc => Nat.isDigit_of_mem_toDigits (by decide) (by decide) hc⟩
    have hvalue : decimal (Nat.toDigits 10 n) = n := by rw [← decimal_eq, Nat.ofDigitChars_ten_toDigits]
    have hspells := Spells.integer hdigits (by rwa [hvalue])
    rw [hvalue] at hspells
    rwa [Token.spelling, String.toList_ofList]
  | identifier x =>
    have hspells := Spells.identifier h.1 fun k heq => h.2 k (String.toList_inj.mp heq)
    rwa [String.ofList_toList] at hspells
  | keyword k => exact .keyword k
  | operator op => exact .operator op
  | mark m => exact .mark m

/-! ## Tokens apart from each other -/

/-- No token and no comment goes on over a blank after a token. -/
theorem longest_of_blank {text after : List Char} {t : Token} {c : Char} (h : Spells text t)
    (hc : isBlank c = true) : Longest text (c :: after) := by
  obtain ⟨hdigit, hword, -, -⟩ := of_isBlank hc
  intro more hne hpre
  obtain ⟨tail, htail⟩ := hpre
  cases more with
  | nil => exact absurd rfl hne
  | cons d more =>
    obtain ⟨rfl, -⟩ := List.cons.inj htail
    cases text with
    | nil => exact absurd rfl h.ne_nil
    | cons b text =>
      refine ⟨fun htoken => ?_, fun hcomment => ?_⟩
      · have hmem : d ∈ text ++ d :: more := by simp
        rw [List.cons_append] at htoken
        rcases htoken.cases with hall | hall | ⟨hnil, -⟩ | ⟨heq, -⟩
        · simp [hall.2 d hmem] at hdigit
        · have := hall.2 d hmem
          simp [continuesWord, hword, hdigit] at this
        · simp at hnil
        · rw [heq, List.mem_singleton] at hmem
          subst hmem
          revert hc
          decide
      · -- Two slashes do not begin a token, so the blank would be the second one.
        obtain ⟨_, heq, -⟩ := hcomment
        rw [List.cons_append, List.cons.injEq] at heq
        obtain ⟨rfl, heq⟩ := heq
        cases text with
        | nil =>
          obtain ⟨rfl, -⟩ := List.cons.inj heq
          revert hc
          decide
        | cons b text =>
          rw [List.cons_append, List.cons.injEq] at heq
          obtain ⟨rfl, -⟩ := heq
          rcases IsTokenText.of_sign rfl rfl (.inr ⟨t, h⟩) with ⟨hnil, -⟩ | ⟨heq, -⟩
          · cases hnil
          · cases heq

def spaced : List Token → List Char
  | [] => []
  | t :: ts => t.spelling.toList ++ ' ' :: spaced ts

theorem segmented_spaced {ts : List Token} (h : Writable ts) (before : List Char) :
    ∃ lexemes, Segmented [] before (spaced ts) lexemes ∧ tokens lexemes = ts := by
  induction ts generalizing before with
  | nil => exact ⟨[], .stop, rfl⟩
  | cons t ts ih =>
    rw [writable_cons] at h
    have hspells := h.1.spells
    obtain ⟨lexemes, hseg, hts⟩ := ih h.2 (before ++ t.spelling.toList ++ [' '])
    refine ⟨.placed before t.spelling.toList t :: lexemes, ?_, by rw [tokens_cons, hts]; rfl⟩
    exact .token (.token hspells (longest_of_blank hspells rfl)) (.blank (.blank (by decide)) hseg)

def textOf (ts : List Token) : String := String.ofList (spaced ts)

namespace Lexeme

/-- The text of some tokens has these tokens. -/
theorem scan_textOf {ts : List Token} (h : Writable ts) :
    ∃ lexemes, scan (textOf ts) = .ok lexemes ∧ tokens lexemes.list = ts := by
  obtain ⟨lexemes, hseg, hts⟩ := segmented_spaced h []
  have htext : (textOf ts).toList = spaced ts := String.toList_ofList
  rw [← htext] at hseg
  exact ⟨_, scan_eq_ok hseg, hts⟩

theorem writable_of_scan {source : String} {lexemes : Lexemes} (h : scan source = .ok lexemes) :
    Writable (tokens lexemes.list) := by
  intro t ht
  obtain ⟨x, hx, rfl⟩ := List.mem_map.mp ht
  obtain ⟨text, after, -, hspells, -⟩ := (scan_eq_ok_iff.mp h).1.stands rfl hx
  exact hspells.writable

end Lexeme

end Scriptling
