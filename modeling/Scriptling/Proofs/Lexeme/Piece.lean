/-
  Scriptling.Proofs.Lexeme.Piece — which pieces a text may begin with.

  A token is spelled by digits, by a word, or by one or two signs; between tokens stand blanks and
  comments. Each of these is said here of a text by itself (`IsDigits`, `IsWord`, `Spells`,
  `IsComment`), without a word about how texts are cut.
  - `IsPiece`: a piece, its text, and what comes after it. A token is the longest one that begins
    there (`Longest`), a comment ends where its line does, and an invalid character begins nothing.
  - `Piece.next_eq_iff`: the piece that is cut off the front of a text is the one that is a piece
    there. So at most one is.
-/

import Scriptling.Lexeme

namespace Scriptling

/-! ## Digits, words, signs and comments -/

def IsDigits (text : List Char) : Prop := text ≠ [] ∧ ∀ c ∈ text, c.isDigit = true

def decimal : List Char → Nat
  | [] => 0
  | c :: digits => (c.toNat - '0'.toNat) * Nat.pow 10 digits.length + decimal digits

def IsWord (text : List Char) : Prop :=
  ∃ c more, text = c :: more ∧ (c.isAlpha || c == '_') = true ∧
    ∀ d ∈ more, (d.isAlpha || d == '_' || d.isDigit) = true

def IsComment (text : List Char) : Prop := ∃ more, text = '/' :: '/' :: more ∧ '\n' ∉ more

/-- The text spells the token. Leading zeros do not matter, and a keyword is no identifier. -/
inductive Spells : List Char → Token → Prop
  | integer {digits : List Char} : IsDigits digits → decimal digits ≤ maxInteger →
      Spells digits (.integer (decimal digits))
  | identifier {text : List Char} : IsWord text → (∀ k : Keyword, k.spelling.toList ≠ text) →
      Spells text (.identifier (String.ofList text))
  | keyword (k : Keyword) : Spells k.spelling.toList (.keyword k)
  | operator (op : Operator) : Spells op.symbol.toList (.operator op)
  | mark (m : Mark) : Spells m.spelling.toList (.mark m)

/-- The text has the form of a token. Digits have it also when no integer is as large as what
    they denote. -/
def IsTokenText (text : List Char) : Prop := IsDigits text ∨ ∃ t, Spells text t

def IsSkipped (text : List Char) : Prop :=
  (text ≠ [] ∧ ∀ c ∈ text, c ∈ [' ', '\t', '\r', '\n', '\x0c']) ∨ IsComment text

/-- Neither a token nor a comment begins with `text` and takes more of what comes `after` it. -/
def Longest (text after : List Char) : Prop :=
  ∀ more, more ≠ [] → more <+: after → ¬ IsTokenText (text ++ more) ∧ ¬ IsComment (text ++ more)

def Unmatched (text : List Char) : Prop :=
  ∀ front, front ≠ [] → front <+: text → ¬ IsTokenText front ∧ ¬ IsSkipped front

inductive IsPiece : PieceKind → List Char → List Char → Prop
  | blank {c : Char} {after : List Char} : c ∈ [' ', '\t', '\r', '\n', '\x0c'] → IsPiece .blank [c] after
  /-- A comment goes on to the end of its line or of the text. -/
  | comment {text after : List Char} : IsComment text → (∀ d, after.head? = some d → d = '\n') →
      IsPiece .blank text after
  | token {text after : List Char} {t : Token} : Spells text t → Longest text after →
      IsPiece (.token t) text after
  | tooLarge {digits after : List Char} : IsDigits digits →
      (∀ d, after.head? = some d → d.isDigit = false) → maxInteger < decimal digits →
      IsPiece (.fault (.literalTooLarge (String.ofList digits))) digits after
  | invalid {c : Char} {after : List Char} : Unmatched (c :: after) →
      IsPiece (.fault (.invalidCharacter (String.singleton c))) [c] after

/-! ## Characters -/

theorem IsWord.exists_cons {text : List Char} (h : IsWord text) :
    ∃ c more, text = c :: more ∧ beginsWord c = true ∧ ∀ d ∈ more, continuesWord d = true := h

theorem isBlank_iff {c : Char} : isBlank c = true ↔ c ∈ [' ', '\t', '\r', '\n', '\x0c'] := by
  simp [isBlank, or_assoc]

theorem of_isBlank {c : Char} (h : isBlank c = true) :
    c.isDigit = false ∧ beginsWord c = false ∧ singleToken? c = none ∧ pairToken? c = none := by
  simp only [isBlank, Bool.or_eq_true, beq_iff_eq] at h
  rcases h with (((rfl | rfl) | rfl) | rfl) | rfl <;> decide

theorem of_beginsWord {c : Char} (h : beginsWord c = true) : isBlank c = false ∧ c.isDigit = false ∧ c ≠ '/' := by
  refine ⟨?_, ?_, ?_⟩
  · cases hb : isBlank c with
    | false => rfl
    | true => rw [(of_isBlank hb).2.1] at h; cases h
  · have hletter : ((decide (c.val ≥ 'A'.val ∧ c.val ≤ 'Z'.val) || (c.val ≥ 'a'.val && c.val ≤ 'z'.val)) ||
        c == '_') = true := h
    simp only [Bool.or_eq_true, Bool.and_eq_true, decide_eq_true_eq, beq_iff_eq] at hletter
    rcases hletter with (h | h) | rfl
    · simp only [Char.isDigit, Bool.and_eq_false_iff, decide_eq_false_iff_not]
      grind
    · simp only [Char.isDigit, Bool.and_eq_false_iff, decide_eq_false_iff_not]
      grind
    · decide
  · rintro rfl
    revert h
    decide

theorem of_isDigit {c : Char} (h : c.isDigit = true) : isBlank c = false ∧ beginsWord c = false ∧ c ≠ '/' := by
  refine ⟨?_, ?_, ?_⟩
  · cases hb : isBlank c with
    | false => rfl
    | true => rw [(of_isBlank hb).1] at h; cases h
  · cases hw : beginsWord c with
    | false => rfl
    | true => rw [(of_beginsWord hw).2.1] at h; cases h
  · rintro rfl
    revert h
    decide

/-! ## What a token text may be -/

theorem Operator.single_or_pair {op : Operator} {c : Char} {more : List Char} (h : op.symbol.toList = c :: more) :
    (more = [] ∧ singleToken? c = some (.operator op)) ∨ (more = ['='] ∧ pairToken? c = some (.operator op)) := by
  cases op <;> cases h <;> decide

theorem Mark.single {m : Mark} {c : Char} {more : List Char} (h : m.spelling.toList = c :: more) :
    more = [] ∧ singleToken? c = some (.mark m) := by
  cases m <;> cases h <;> decide

/-- Tokens are spelled by digits, by words and by signs: one character, or two of which the second
    is `=`. -/
theorem Spells.cases {c : Char} {more : List Char} {t : Token} (h : Spells (c :: more) t) :
    (IsDigits (c :: more) ∧ decimal (c :: more) ≤ maxInteger ∧ t = .integer (decimal (c :: more))) ∨
      IsWord (c :: more) ∨ (more = [] ∧ singleToken? c = some t) ∨ (more = ['='] ∧ pairToken? c = some t) := by
  generalize htext : c :: more = text at h
  cases h with
  | integer hd hle => exact .inl ⟨hd, hle, rfl⟩
  | identifier hw _ => exact .inr (.inl hw)
  | keyword k =>
    refine .inr (.inl ?_)
    cases k <;> exact ⟨_, _, rfl, by decide, List.all_eq_true.mp rfl⟩
  | operator op => exact .inr (.inr (op.single_or_pair htext.symm))
  | mark m => exact .inr (.inr (.inl (m.single htext.symm)))

theorem Spells.ne_nil {text : List Char} {t : Token} (h : Spells text t) : text ≠ [] := by
  cases h with
  | integer hd _ => exact hd.1
  | identifier hw _ =>
    obtain ⟨c, more, rfl, -⟩ := hw
    simp
  | keyword k => cases k <;> decide
  | operator op => cases op <;> decide
  | mark m => cases m <;> decide

theorem spells_operator {op : Operator} {text : List Char} (h : op.symbol.toList = text) :
    Spells text (.operator op) := h ▸ .operator op

theorem spells_mark {m : Mark} {text : List Char} (h : m.spelling.toList = text) : Spells text (.mark m) := h ▸ .mark m

theorem spells_of_single {c : Char} {t : Token} (h : singleToken? c = some t) : Spells [c] t := by
  unfold singleToken? at h
  split at h <;> cases h <;> first | exact spells_operator rfl | exact spells_mark rfl

theorem spells_of_pair {c : Char} {t : Token} (h : pairToken? c = some t) : Spells [c, '='] t := by
  unfold pairToken? at h
  split at h <;> cases h <;> exact spells_operator rfl

theorem IsTokenText.cases {c : Char} {more : List Char} (h : IsTokenText (c :: more)) :
    (c.isDigit = true ∧ ∀ d ∈ more, d.isDigit = true) ∨
      (beginsWord c = true ∧ ∀ d ∈ more, continuesWord d = true) ∨
      (more = [] ∧ (singleToken? c).isSome) ∨ (more = ['='] ∧ (pairToken? c).isSome) := by
  have digits (hd : IsDigits (c :: more)) : c.isDigit = true ∧ ∀ d ∈ more, d.isDigit = true :=
    ⟨hd.2 c (by simp), fun d hmem => hd.2 d (by simp [hmem])⟩
  rcases h with hd | ⟨t, ht⟩
  · exact .inl (digits hd)
  · rcases ht.cases with ⟨hd, -⟩ | ⟨_, _, heq, hw⟩ | ⟨rfl, hs⟩ | ⟨rfl, hp⟩
    · exact .inl (digits hd)
    · cases heq
      exact .inr (.inl hw)
    · exact .inr (.inr (.inl ⟨rfl, by simp [hs]⟩))
    · exact .inr (.inr (.inr ⟨rfl, by simp [hp]⟩))

/-- A sign is none of the characters that other pieces begin with. -/
theorem of_sign {c : Char} (h : (singleToken? c).isSome ∨ (pairToken? c).isSome) :
    isBlank c = false ∧ c.isDigit = false ∧ beginsWord c = false := by
  rcases h with h | h
  · unfold singleToken? at h
    split at h
    case h_16 => cases h
    all_goals decide
  · unfold pairToken? at h
    split at h
    case h_5 => cases h
    all_goals decide

theorem IsTokenText.of_digit {c : Char} {more : List Char} (hc : c.isDigit = true) (h : IsTokenText (c :: more)) :
    ∀ d ∈ more, d.isDigit = true := by
  rcases h.cases with h | h | h | h
  · exact h.2
  · rw [(of_beginsWord h.1).2.1] at hc; cases hc
  · rw [(of_sign (.inl h.2)).2.1] at hc; cases hc
  · rw [(of_sign (.inr h.2)).2.1] at hc; cases hc

theorem IsTokenText.of_word {c : Char} {more : List Char} (hc : beginsWord c = true) (h : IsTokenText (c :: more)) :
    ∀ d ∈ more, continuesWord d = true := by
  rcases h.cases with h | h | h | h
  · rw [(of_isDigit h.1).2.1] at hc; cases hc
  · exact h.2
  · rw [(of_sign (.inl h.2)).2.2] at hc; cases hc
  · rw [(of_sign (.inr h.2)).2.2] at hc; cases hc

theorem IsTokenText.of_sign {c : Char} {more : List Char} (hd : c.isDigit = false) (hw : beginsWord c = false)
    (h : IsTokenText (c :: more)) : (more = [] ∧ (singleToken? c).isSome) ∨ (more = ['='] ∧ (pairToken? c).isSome) := by
  rcases h.cases with h | h | h | h
  · rw [hd] at h; cases h.1
  · rw [hw] at h; cases h.1
  · exact .inl h
  · exact .inr h

theorem decimal_eq (digits : List Char) : Nat.ofDigitChars 10 digits 0 = decimal digits := by
  induction digits with
  | nil => rfl
  | cons c digits ih =>
    rw [Nat.ofDigitChars_cons, Nat.ofDigitChars_eq_ofDigitChars_zero, ih, decimal, Nat.mul_zero, Nat.zero_add,
      Nat.mul_comm, Nat.pow_eq]

/-! ## The piece at the front of a text -/

/-- The characters as long as `goesOn` holds, and those from where it does not. -/
theorem takeWhile_of_ends {goesOn : Char → Bool} {text after : List Char} (h : ∀ c ∈ text, goesOn c = true)
    (hend : ∀ d, after.head? = some d → goesOn d = false) :
    (text ++ after).takeWhile goesOn = text ∧ (text ++ after).dropWhile goesOn = after := by
  rw [List.takeWhile_append_of_pos h, List.dropWhile_append_of_pos h]
  cases after with
  | nil => simp
  | cons d after => simp [hend d rfl]

theorem ends_dropWhile (goesOn : Char → Bool) (rest : List Char) (d : Char)
    (h : (rest.dropWhile goesOn).head? = some d) : goesOn d = false := by
  have := List.head?_dropWhile_not goesOn rest
  rwa [h] at this

theorem of_mem_takeWhile {goesOn : Char → Bool} {rest : List Char} {d : Char} (h : d ∈ rest.takeWhile goesOn) :
    goesOn d = true := by
  induction rest with
  | nil => cases h
  | cons c rest ih =>
    rw [List.takeWhile_cons] at h
    split at h
    · rename_i hc
      rcases List.mem_cons.mp h with rfl | h
      · exact hc
      · exact ih h
    · cases h

/-- A token that goes on as long as it can is the longest one. -/
theorem longest_of_ends {goesOn : Char → Bool} {c : Char} {text after : List Char} (hc : c ≠ '/')
    (htoken : ∀ more, IsTokenText (c :: more) → ∀ d ∈ more, goesOn d = true)
    (hend : ∀ d, after.head? = some d → goesOn d = false) : Longest (c :: text) after := by
  intro more hne hpre
  obtain ⟨tail, rfl⟩ := hpre
  cases more with
  | nil => exact absurd rfl hne
  | cons d more =>
    refine ⟨fun h => ?_, fun h => ?_⟩
    · have hd := htoken _ h d (by simp)
      rw [hend d rfl] at hd
      cases hd
    · obtain ⟨_, heq, -⟩ := h
      exact hc (List.cons.inj heq).1

theorem not_isDigit_of_longest {digits after : List Char} (hd : IsDigits digits) (h : Longest digits after) (d : Char)
    (hhead : after.head? = some d) : d.isDigit = false := by
  cases hdigit : d.isDigit with
  | false => rfl
  | true =>
    -- One digit more would make a longer token.
    obtain ⟨tail, rfl⟩ : ∃ tail, after = d :: tail := by
      cases after with
      | nil => cases hhead
      | cons _ tail => cases hhead; exact ⟨tail, rfl⟩
    refine absurd (.inl ⟨by simp, fun c hc => ?_⟩) (h [d] (by simp) ⟨tail, rfl⟩).1
    rcases List.mem_append.mp hc with hc | hc
    · exact hd.2 c hc
    · rwa [List.mem_singleton.mp hc]

theorem Keyword.ofWord?_eq_some_iff {word : String} {k : Keyword} : ofWord? word = some k ↔ k.spelling = word := by
  constructor
  · intro h
    simpa using List.find?_some h
  · rintro rfl
    exact ofWord?_spelling k

theorem Keyword.ofWord?_eq_none_iff {word : String} : ofWord? word = none ↔ ∀ k : Keyword, k.spelling ≠ word := by
  simp [ofWord?, List.find?_eq_none, mem_all]

theorem head?_eq_some_iff {c : Char} {text : List Char} : text.head? = some c ↔ ∃ more, text = c :: more := by
  cases text <;> simp

namespace Piece

/-! ### Signs -/

def NoPair (c : Char) (rest : List Char) : Prop := ∀ t more, pairToken? c = some t → rest ≠ '=' :: more

theorem sign_pair {c : Char} {t : Token} (h : pairToken? c = some t) (rest : List Char) :
    sign c ('=' :: rest) = ⟨.token t, [c, '='], rest⟩ := by
  simp [sign, h]

theorem sign_alone {c : Char} {rest : List Char} (hno : NoPair c rest) :
    sign c rest =
      match singleToken? c with
      | some t => ⟨.token t, [c], rest⟩
      | none => ⟨.fault (.invalidCharacter (String.singleton c)), [c], rest⟩ := by
  unfold sign
  split
  · rename_i t more hp
    exact absurd rfl (hno t more hp)
  · rfl

theorem isPiece_pair {c : Char} {t : Token} (hd : c.isDigit = false) (hw : beginsWord c = false)
    (h : pairToken? c = some t) (after : List Char) : IsPiece (.token t) [c, '='] after := by
  refine .token (spells_of_pair h) ?_
  intro more hne _
  refine ⟨fun htoken => ?_, fun hcomment => ?_⟩
  · rcases IsTokenText.of_sign hd hw htoken with htext | htext
    · cases htext.1
    · exact hne (List.cons.inj htext.1).2
  · obtain ⟨_, heq, -⟩ := hcomment
    cases heq

theorem isPiece_single {c : Char} {t : Token} {after : List Char} (hd : c.isDigit = false)
    (hw : beginsWord c = false) (hcomment : ¬ (c = '/' ∧ after.head? = some '/')) (hno : NoPair c after)
    (h : singleToken? c = some t) : IsPiece (.token t) [c] after := by
  refine .token (spells_of_single h) ?_
  intro more hne hpre
  obtain ⟨tail, rfl⟩ := hpre
  refine ⟨fun htoken => ?_, fun hslashes => ?_⟩
  · rcases IsTokenText.of_sign hd hw htoken with ⟨rfl, -⟩ | ⟨rfl, hp⟩
    · exact hne rfl
    · obtain ⟨t', hp⟩ := Option.isSome_iff_exists.mp hp
      exact hno t' tail hp rfl
  · obtain ⟨_, heq, -⟩ := hslashes
    obtain ⟨rfl, rfl⟩ := List.cons.inj heq
    exact hcomment ⟨rfl, rfl⟩

theorem isPiece_invalid {c : Char} {after : List Char} (hb : isBlank c = false) (hd : c.isDigit = false)
    (hw : beginsWord c = false) (hcomment : ¬ (c = '/' ∧ after.head? = some '/')) (hno : NoPair c after)
    (h : singleToken? c = none) : IsPiece (.fault (.invalidCharacter (String.singleton c))) [c] after := by
  refine .invalid ?_
  intro front hne hpre
  obtain ⟨tail, heq⟩ := hpre
  cases front with
  | nil => exact absurd rfl hne
  | cons d more =>
    obtain ⟨rfl, rfl⟩ := List.cons.inj heq
    refine ⟨fun htoken => ?_, fun hskipped => ?_⟩
    · rcases htoken.of_sign hd hw with ⟨-, hs⟩ | ⟨rfl, hp⟩
      · rw [h] at hs
        cases hs
      · obtain ⟨t, hp⟩ := Option.isSome_iff_exists.mp hp
        exact hno t tail hp rfl
    · rcases hskipped with ⟨-, hblank⟩ | ⟨_, heq, -⟩
      · rw [isBlank_iff.mpr (hblank d (by simp))] at hb
        cases hb
      · obtain ⟨rfl, rfl⟩ := List.cons.inj heq
        exact hcomment ⟨rfl, rfl⟩

theorem sign_isPiece {c : Char} {rest : List Char} (hb : isBlank c = false) (hd : c.isDigit = false)
    (hw : beginsWord c = false) (hcomment : ¬ (c = '/' ∧ rest.head? = some '/')) :
    IsPiece (sign c rest).kind (sign c rest).text (sign c rest).rest := by
  by_cases hpair : ∃ t more, pairToken? c = some t ∧ rest = '=' :: more
  · obtain ⟨t, more, hp, rfl⟩ := hpair
    rw [sign_pair hp]
    exact isPiece_pair hd hw hp more
  · have hno : NoPair c rest := fun t more hp heq => hpair ⟨t, more, hp, heq⟩
    rw [sign_alone hno]
    cases hs : singleToken? c with
    | some t => exact isPiece_single hd hw hcomment hno hs
    | none => exact isPiece_invalid hb hd hw hcomment hno hs

/-! ### Digits and words -/

theorem word_eq {text : List Char} (h : IsWord text) : ∃ t, word text = .token t ∧ Spells text t := by
  cases hk : Keyword.ofWord? (String.ofList text) with
  | none =>
    refine ⟨.identifier (String.ofList text), by simp [word, hk], .identifier h fun k heq => ?_⟩
    exact Keyword.ofWord?_eq_none_iff.mp hk k (by rw [← heq, String.ofList_toList])
  | some k =>
    have htext : k.spelling.toList = text := by rw [Keyword.ofWord?_eq_some_iff.mp hk, String.toList_ofList]
    exact ⟨.keyword k, by simp [word, hk], htext ▸ .keyword k⟩

theorem isPiece_integer {digits after : List Char} (hd : IsDigits digits)
    (hend : ∀ d, after.head? = some d → d.isDigit = false) : IsPiece (integer digits) digits after := by
  by_cases hle : decimal digits ≤ maxInteger
  · have hkind : integer digits = .token (.integer (decimal digits)) := by simp [integer, decimal_eq, hle]
    rw [hkind]
    refine .token (.integer hd hle) ?_
    obtain ⟨hne, hall⟩ := hd
    cases digits with
    | nil => exact absurd rfl hne
    | cons c digits =>
      have hc := hall c (by simp)
      exact longest_of_ends (of_isDigit hc).2.2 (fun _ => IsTokenText.of_digit hc) hend
  · have hkind : integer digits = .fault (.literalTooLarge (String.ofList digits)) := by simp [integer, decimal_eq, hle]
    rw [hkind]
    exact .tooLarge hd hend (by omega)

/-! ### Any piece -/

theorem next_comment (rest : List Char) :
    next '/' ('/' :: rest) = run (· != '\n') (fun _ => .blank) '/' ('/' :: rest) := by
  unfold next
  rw [if_neg (by decide), if_pos (by simp)]

theorem next_digit {c : Char} (h : c.isDigit = true) (rest : List Char) :
    next c rest = run Char.isDigit integer c rest := by
  obtain ⟨hb, -, hslash⟩ := of_isDigit h
  simp [next, hb, hslash, h]

theorem next_word {c : Char} (h : beginsWord c = true) (rest : List Char) :
    next c rest = run continuesWord word c rest := by
  obtain ⟨hb, hd, hslash⟩ := of_beginsWord h
  simp [next, hb, hslash, hd, h]

theorem next_sign {c : Char} {rest : List Char} (hb : isBlank c = false) (hd : c.isDigit = false)
    (hw : beginsWord c = false) (hcomment : ¬ (c = '/' ∧ rest.head? = some '/')) : next c rest = sign c rest := by
  unfold next
  rw [if_neg (by simp [hb]), if_neg hcomment, if_neg (by simp [hd]), if_neg (by simp [hw])]

/-- What is cut off the front of a text is a piece there. -/
theorem next_isPiece (c : Char) (rest : List Char) :
    IsPiece (next c rest).kind (next c rest).text (next c rest).rest := by
  by_cases hb : isBlank c = true
  · simp only [next, hb, if_true]
    exact .blank (isBlank_iff.mp hb)
  by_cases hd : c.isDigit = true
  · rw [next_digit hd]
    refine isPiece_integer ⟨by simp, fun d hmem => ?_⟩ (ends_dropWhile _ _)
    rcases List.mem_cons.mp hmem with rfl | hmem
    · exact hd
    · exact of_mem_takeWhile hmem
  by_cases hw : beginsWord c = true
  · rw [next_word hw]
    obtain ⟨t, ht, hs⟩ := word_eq ⟨c, rest.takeWhile continuesWord, rfl, hw, fun _ => of_mem_takeWhile⟩
    simp only [run, ht]
    exact .token hs (longest_of_ends (of_beginsWord hw).2.2 (fun _ => IsTokenText.of_word hw) (ends_dropWhile _ _))
  by_cases hcomment : c = '/' ∧ rest.head? = some '/'
  · obtain ⟨rfl, hhead⟩ := hcomment
    obtain ⟨more, rfl⟩ := head?_eq_some_iff.mp hhead
    rw [next_comment]
    refine .comment ⟨more.takeWhile (· != '\n'), by simp [run], fun hmem => ?_⟩ fun d hd => ?_
    · simpa using of_mem_takeWhile hmem
    · simpa using ends_dropWhile _ _ d hd
  rw [Bool.not_eq_true] at hb hd hw
  rw [next_sign hb hd hw hcomment]
  exact sign_isPiece hb hd hw hcomment

/-- A longer sign would be a longer token. -/
theorem noPair_of_longest {c : Char} {after : List Char} (h : Longest [c] after) : NoPair c after := by
  rintro t more hp rfl
  exact (h ['='] (by simp) ⟨more, rfl⟩).1 (.inr ⟨t, spells_of_pair hp⟩)

theorem no_comment_of_longest {c : Char} {after : List Char} (h : Longest [c] after) :
    ¬ (c = '/' ∧ after.head? = some '/') := by
  rintro ⟨rfl, hhead⟩
  obtain ⟨more, rfl⟩ := head?_eq_some_iff.mp hhead
  exact (h ['/'] (by simp) ⟨more, rfl⟩).2 ⟨[], rfl, by simp⟩

theorem next_eq_of_digits {c : Char} {digits after : List Char} (hd : IsDigits (c :: digits))
    (hend : ∀ d, after.head? = some d → d.isDigit = false) :
    next c (digits ++ after) = ⟨integer (c :: digits), c :: digits, after⟩ := by
  have hdigits (d : Char) (hmem : d ∈ digits) : d.isDigit = true := hd.2 d (by simp [hmem])
  obtain ⟨htake, hdrop⟩ := takeWhile_of_ends hdigits hend
  rw [next_digit (hd.2 c (by simp)), run, htake, hdrop]

theorem next_eq_of_word {c : Char} {more after : List Char} (hw : IsWord (c :: more))
    (hend : Longest (c :: more) after) :
    next c (more ++ after) = ⟨word (c :: more), c :: more, after⟩ := by
  obtain ⟨_, _, heq, hc, hmore⟩ := hw.exists_cons
  obtain ⟨rfl, rfl⟩ := List.cons.inj heq
  have hstop (d : Char) (hd : after.head? = some d) : continuesWord d = false := by
    cases hcont : continuesWord d with
    | false => rfl
    | true =>
      -- One character more would make a longer word.
      obtain ⟨tail, rfl⟩ := head?_eq_some_iff.mp hd
      obtain ⟨t, -, ht⟩ := word_eq ⟨c, more ++ [d], rfl, hc, fun x hx => by
        rcases List.mem_append.mp hx with hx | hx
        · exact hmore x hx
        · rwa [List.mem_singleton.mp hx]⟩
      exact absurd (.inr ⟨t, ht⟩) (hend [d] (by simp) ⟨tail, rfl⟩).1
  obtain ⟨htake, hdrop⟩ := takeWhile_of_ends hmore hstop
  rw [next_word hc, run, htake, hdrop]

/-- A word spells one token: the keyword if it is one, and else the identifier. -/
theorem word_eq_of_spells {text : List Char} {t : Token} (hw : IsWord text) (h : Spells text t) :
    word text = .token t := by
  obtain ⟨c, more, rfl, hc, -⟩ := hw.exists_cons
  -- No digit and no sign begins a word.
  have hsign (hs : (singleToken? c).isSome ∨ (pairToken? c).isSome) : False := by
    simp [(of_sign hs).2.2] at hc
  generalize htext : c :: more = text at h
  cases h with
  | integer hd _ =>
    have hdigit : c.isDigit = true := hd.2 c (by simp [← htext])
    simp [(of_isDigit hdigit).2.1] at hc
  | identifier _ hno =>
    have hnone : Keyword.ofWord? (String.ofList text) = none :=
      Keyword.ofWord?_eq_none_iff.mpr fun k heq => hno k (by rw [heq, String.toList_ofList])
    simp [word, hnone]
  | keyword k => simp [word, String.ofList_toList, Keyword.ofWord?_spelling]
  | operator op =>
    rcases op.single_or_pair htext.symm with hs | hs
    · exact (hsign (.inl (by simp [hs.2]))).elim
    · exact (hsign (.inr (by simp [hs.2]))).elim
  | mark m => exact (hsign (.inl (by simp [(m.single htext.symm).2]))).elim

/-- The token that is the longest one there is cut off. -/
theorem next_eq_of_spells {c : Char} {more after : List Char} {t : Token} (hs : Spells (c :: more) t)
    (hlong : Longest (c :: more) after) : next c (more ++ after) = ⟨.token t, c :: more, after⟩ := by
  rcases hs.cases with ⟨hd, hle, rfl⟩ | hw | ⟨rfl, hsingle⟩ | ⟨rfl, hpair⟩
  · rw [next_eq_of_digits hd (not_isDigit_of_longest hd hlong)]
    simp [integer, decimal_eq, hle]
  · rw [next_eq_of_word hw hlong, word_eq_of_spells hw hs]
  · obtain ⟨hb, hd, hw⟩ := of_sign (c := c) (.inl (by simp [hsingle]))
    rw [List.nil_append, next_sign hb hd hw (no_comment_of_longest hlong), sign_alone (noPair_of_longest hlong), hsingle]
  · obtain ⟨hb, hd, hw⟩ := of_sign (c := c) (.inr (by simp [hpair]))
    rw [next_sign hb hd hw (by simp), List.singleton_append, sign_pair hpair]

theorem next_eq_of_unmatched {c : Char} {after : List Char} (h : Unmatched (c :: after)) :
    next c after = ⟨.fault (.invalidCharacter (String.singleton c)), [c], after⟩ := by
  have hfirst := h [c] (by simp) ⟨after, rfl⟩
  have hb : isBlank c = false := by
    cases hb : isBlank c with
    | false => rfl
    | true => exact absurd (.inl ⟨by simp, by simpa using isBlank_iff.mp hb⟩) hfirst.2
  have hd : c.isDigit = false := by
    cases hd : c.isDigit with
    | false => rfl
    | true => exact absurd (.inl ⟨by simp, by simpa using hd⟩) hfirst.1
  have hw : beginsWord c = false := by
    cases hw : beginsWord c with
    | false => rfl
    | true =>
      obtain ⟨t, -, ht⟩ := word_eq ⟨c, [], rfl, hw, by simp⟩
      exact absurd (.inr ⟨t, ht⟩) hfirst.1
  have hcomment : ¬ (c = '/' ∧ after.head? = some '/') := by
    rintro ⟨rfl, hhead⟩
    obtain ⟨more, rfl⟩ := head?_eq_some_iff.mp hhead
    exact (h ['/', '/'] (by simp) ⟨more, rfl⟩).2 (.inr ⟨[], rfl, by simp⟩)
  have hno : NoPair c after := by
    rintro t more hp rfl
    exact (h [c, '='] (by simp) ⟨more, rfl⟩).1 (.inr ⟨t, spells_of_pair hp⟩)
  have hs : singleToken? c = none := by
    cases hs : singleToken? c with
    | none => rfl
    | some t => exact absurd (.inr ⟨t, spells_of_single hs⟩) hfirst.1
  rw [next_sign hb hd hw hcomment, sign_alone hno, hs]

theorem next_eq_of_isPiece {kind : PieceKind} {text after : List Char} (h : IsPiece kind text after) {c : Char}
    {rest : List Char} (hrest : c :: rest = text ++ after) : next c rest = ⟨kind, text, after⟩ := by
  cases h with
  | blank hb =>
    obtain ⟨rfl, rfl⟩ := List.cons.inj hrest
    simp [next, isBlank_iff.mpr hb]
  | comment hc hend =>
    obtain ⟨more, rfl, hmore⟩ := hc
    rw [List.cons_append, List.cons.injEq] at hrest
    obtain ⟨rfl, rfl⟩ := hrest
    have hline (d : Char) (hd : d ∈ '/' :: more) : (d != '\n') = true := by
      rcases List.mem_cons.mp hd with rfl | hd
      · decide
      · rw [bne_iff_ne]
        rintro rfl
        exact hmore hd
    have hstop (d : Char) (hd : after.head? = some d) : (d != '\n') = false := by simp [hend d hd]
    obtain ⟨htake, hdrop⟩ := takeWhile_of_ends hline hstop
    rw [List.cons_append, next_comment, ← List.cons_append, run, htake, hdrop]
  | token hs hlong =>
    cases text with
    | nil => exact absurd rfl hs.ne_nil
    | cons d more =>
      rw [List.cons_append, List.cons.injEq] at hrest
      obtain ⟨rfl, rfl⟩ := hrest
      exact next_eq_of_spells hs hlong
  | tooLarge hd hend hlarge =>
    cases text with
    | nil => exact absurd rfl hd.1
    | cons d digits =>
      rw [List.cons_append, List.cons.injEq] at hrest
      obtain ⟨rfl, rfl⟩ := hrest
      rw [next_eq_of_digits hd hend]
      simp [integer, decimal_eq, Nat.not_le.mpr hlarge]
  | invalid h =>
    obtain ⟨rfl, rfl⟩ := List.cons.inj hrest
    exact next_eq_of_unmatched h

/-- The piece at the front of a text: at most one can be cut off, and one is. -/
theorem next_eq_iff {c : Char} {rest : List Char} {piece : Piece} :
    next c rest = piece ↔ c :: rest = piece.text ++ piece.rest ∧ IsPiece piece.kind piece.text piece.rest := by
  constructor
  · rintro rfl
    exact ⟨(next_append c rest).symm, next_isPiece c rest⟩
  · rintro ⟨hrest, h⟩
    exact next_eq_of_isPiece h hrest

end Piece

end Scriptling
