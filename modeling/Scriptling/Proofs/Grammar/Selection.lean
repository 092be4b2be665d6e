/-
  Scriptling.Proofs.Grammar.Selection — a choice selects by the lexemes its alternatives came to.

  A choice compares errors by line and column. Whatever lines and comments lie between the lexemes of
  a text, each stands before the next one, and the last before the end. So the choice might as well
  compare how many lexemes come before each error.
  - `Reader.FailsAt`: a rule fails with an error at an index, that of a lexeme or of the end. It may be any
    index of the text, also one behind the reader, and the rule may leave the reader anywhere.
  - `Reader.position_lt_iff`: errors compare like their indexes.
  - `choice_by_index`: the first success, or else the first of the furthest errors by index.
-/

import Scriptling.Proofs.Grammar.Choice
import Scriptling.Proofs.Grammar.Progress
import Scriptling.Proofs.Position.Exact

namespace Scriptling

open Rule

namespace Reader

variable {α : Type} {reader : Reader}

/-! ## Errors at an index -/

def reply (reader : Reader) (rule : Rule α) : Reply α := rule reader.lexemes.stop reader.rest

def Succeeds (reader : Reader) (rule : Rule α) : Prop := ∃ a rest, reader.reply rule = .ok a rest

/-- The rule fails with the error `e`, which is that of a reader at the index `i`. -/
structure FailsAt (reader : Reader) (rule : Rule α) (i : Nat) (e : SyntaxError) : Prop where
  le_size : i ≤ reader.size
  error_eq : ∃ expected, e = (reader.moveTo i).mismatch expected
  fails : ∃ rest, reader.reply rule = .fail e rest

/-- The error `e` is that of the earliest rule among those with errors at the greatest index, which
    is `i`. -/
def EarliestFurthest (reader : Reader) (rules : List (Rule α)) (i : Nat) (e : SyntaxError) : Prop :=
  ∃ front rule back, rules = front ++ rule :: back ∧ reader.FailsAt rule i e ∧
    (∀ earlier ∈ front, ∀ j e', reader.FailsAt earlier j e' → j < i) ∧
    ∀ later ∈ back, ∀ j e', reader.FailsAt later j e' → j ≤ i

theorem exists_fail_of_not_succeeds {rule : Rule α} (h : ¬ reader.Succeeds rule) :
    ∃ e rest, reader.reply rule = .fail e rest := by
  cases hreply : reader.reply rule with
  | ok a rest => exact absurd ⟨a, rest, hreply⟩ h
  | fail e rest => exact ⟨e, rest, rfl⟩

theorem FailsAt.not_succeeds {rule : Rule α} {i : Nat} {e : SyntaxError} (h : reader.FailsAt rule i e) :
    ¬ reader.Succeeds rule := by
  rintro ⟨a, rest, hok⟩
  obtain ⟨rest', hfail⟩ := h.fails
  cases hok.symm.trans hfail

theorem EarliestFurthest.exists_failsAt {rules : List (Rule α)} {i : Nat} {e : SyntaxError}
    (h : reader.EarliestFurthest rules i e) : ∃ rule ∈ rules, reader.FailsAt rule i e := by
  obtain ⟨front, rule, back, rfl, hat, -⟩ := h
  exact ⟨rule, by simp, hat⟩

/-- A rule that fails and leaves what was ahead has not moved the reader. -/
theorem apply_of_reply {rule : Rule α} {e : SyntaxError} (h : reader.reply rule = .fail e reader.rest) :
    reader.apply rule = (.error e, reader) := by
  rw [reply] at h
  simp only [apply, h, leaving_rest]

/-! ## The order of errors -/

/-- Errors compare like their indexes. -/
theorem position_lt_iff (hin : InOrder reader.lexemes.stop reader.lexemes.list) {i j : Nat} (hi : i ≤ reader.size)
    (hj : j ≤ reader.size) (expected expected' : String) :
    ((reader.moveTo i).mismatch expected).position < ((reader.moveTo j).mismatch expected').position ↔ i < j := by
  have hcut (k : Nat) : reader.lexemes.list.take k ++ (reader.moveTo k).rest = reader.lexemes.list :=
    List.take_append_drop ..
  have hlength {k : Nat} (hk : k ≤ reader.size) : (reader.lexemes.list.take k).length = k :=
    List.length_take_of_le hk
  have hlt := InOrder.lt_iff ((hcut i).symm ▸ hin) ((hcut i).trans (hcut j).symm)
  rw [hlength hi, hlength hj] at hlt
  rw [mismatch, mismatch, position_mismatch, position_mismatch]
  exact hlt

theorem FailsAt.lt_iff (hin : InOrder reader.lexemes.stop reader.lexemes.list) {rule rule' : Rule α} {i j : Nat}
    {e e' : SyntaxError} (h : reader.FailsAt rule i e) (h' : reader.FailsAt rule' j e') :
    e.position < e'.position ↔ i < j := by
  obtain ⟨expected, rfl⟩ := h.error_eq
  obtain ⟨expected', rfl⟩ := h'.error_eq
  exact position_lt_iff hin h.le_size h'.le_size expected expected'

/-- Whether an error is further on than one where the reader stands. -/
theorem FailsAt.beyond_iff (hin : InOrder reader.lexemes.stop reader.lexemes.list) (hstart : reader.index ≤ reader.size)
    (expected : String) {rule : Rule α} {i : Nat} {e : SyntaxError} (h : reader.FailsAt rule i e) :
    (reader.mismatch expected).position < e.position ↔ reader.index < i := by
  obtain ⟨what, rfl⟩ := h.error_eq
  exact position_lt_iff hin hstart h.le_size expected what

/-- The first of the furthest errors by position is so by index. -/
theorem earliestFurthest_of_firstFurthest (hin : InOrder reader.lexemes.stop reader.lexemes.list)
    {rules : List (Rule α)} (hrules : ∀ rule ∈ rules, ∃ i e, reader.FailsAt rule i e) {e : SyntaxError}
    (h : FirstFurthest rules reader.lexemes.stop reader.rest e) : ∃ i, reader.EarliestFurthest rules i e := by
  obtain ⟨front, rule, back, rfl, hfails, hfront, hback⟩ := h
  obtain ⟨i, e', hat⟩ := hrules rule (by simp)
  obtain rfl : e = e' := hfails.eq hat.fails
  refine ⟨i, front, rule, back, rfl, hat, fun earlier hmem j e' hat' => ?_, fun later hmem j e' hat' => ?_⟩
  · exact (hat'.lt_iff hin hat).mp (hfront earlier hmem e' hat'.fails)
  · exact Nat.not_lt.mp (mt (hat.lt_iff hin hat').mpr (hback later hmem e' hat'.fails))

/-- Where the lexemes after the first `i` begin. -/
theorem place_drop {stop : Position} {lexemes : List Lexeme} {i : Nat} {p : Position}
    (h : (lexemes.map Lexeme.position ++ [stop])[i]? = some p) : place stop (lexemes.drop i) = p := by
  induction lexemes generalizing i with
  | nil =>
    cases i with
    | zero => simpa [place] using h
    | succ i => simp at h
  | cons lexeme lexemes ih =>
    cases i with
    | zero => simpa [place] using h
    | succ i => exact ih (by simpa using h)

/-- An error is at the position that the line index gives for its lexeme, or for the end. -/
theorem position_mismatch_eq {source : String} (hscan : Lexeme.scan source = .ok reader.lexemes) {i offset : Nat}
    (hoffset : (reader.lexemes.offsets source)[i]? = some offset) (expected : String) :
    ((reader.moveTo i).mismatch expected).position = (LineIndex.ofText source).position offset := by
  have hplace : place reader.lexemes.stop (reader.lexemes.list.drop i) = Position.ofOffset source offset := by
    refine place_drop ?_
    rw [Lexeme.scan_positions hscan, List.getElem?_map, hoffset, Option.map_some]
  rw [mismatch, position_mismatch]
  exact hplace.trans (LineIndex.position_eq source _ narrow_of_all offset).symm

end Reader

/-! ## The choice -/

/-- A reader stands in a text or at its end, and each of the rules succeeds there or fails with an error
    at some index of the text. If a rule succeeds, the choice answers what the first such rule answers,
    and leaves the reader where that rule does. If none succeeds, the reader has not moved. The error
    is that of the earliest rule among those with the greatest index, if this is beyond the reader, and
    else it says what was `expected` where the reader stands.

    The positions of errors are those that the line index gives, and they compare like the indexes. -/
theorem choice_by_index {α : Type} {source : String} {reader : Reader}
    (hscan : Lexeme.scan source = .ok reader.lexemes) (hstart : reader.index ≤ reader.size) (expected : String)
    {rules : List (Rule α)} (hrules : ∀ rule ∈ rules, reader.Succeeds rule ∨ ∃ i e, reader.FailsAt rule i e) :
    (∀ front rule back a rest, rules = front ++ rule :: back → (∀ earlier ∈ front, ¬ reader.Succeeds earlier) →
      reader.reply rule = .ok a rest →
      reader.reply (choice expected rules) = .ok a rest ∧ reader.apply (choice expected rules) = reader.apply rule) ∧
    ((∀ rule ∈ rules, ¬ reader.Succeeds rule) → ∃ e,
      reader.reply (choice expected rules) = .fail e reader.rest ∧
      reader.apply (choice expected rules) = (.error e, reader) ∧
      ((∃ i, reader.index < i ∧ reader.EarliestFurthest rules i e) ∨
        (∀ rule ∈ rules, ∀ i e', reader.FailsAt rule i e' → i ≤ reader.index) ∧ e = reader.mismatch expected)) ∧
    (∀ i offset what, (reader.lexemes.offsets source)[i]? = some offset →
      ((reader.moveTo i).mismatch what).position = (LineIndex.ofText source).position offset) ∧
    ∀ i j what what', i ≤ reader.size → j ≤ reader.size →
      (((reader.moveTo i).mismatch what).position < ((reader.moveTo j).mismatch what').position ↔ i < j) := by
  have hin := Lexeme.scan_inOrder hscan
  refine ⟨fun front rule back a rest hsplit hfront hok => ?_, fun hnone => ?_, fun i offset what hoffset => ?_,
    fun i j what what' hi hj => ?_⟩
  · have hreply : reader.reply (choice expected rules) = .ok a rest := by
      rw [hsplit]
      exact firstOf_ok front (fun earlier hmem => Reader.exists_fail_of_not_succeeds (hfront earlier hmem)) hok back _
    exact ⟨hreply, Reader.apply_congr (hreply.trans hok.symm)⟩
  · have hall (rule : Rule α) (hmem : rule ∈ rules) : ∃ i e, reader.FailsAt rule i e :=
      (hrules rule hmem).resolve_left (hnone rule hmem)
    obtain ⟨e, hreply, hcase⟩ := firstOf_furthest
      (fun rule hmem => by
        obtain ⟨i, e, hat⟩ := hall rule hmem
        exact ⟨e, hat.fails⟩)
      (reader.mismatch expected)
    refine ⟨e, hreply, Reader.apply_of_reply hreply, ?_⟩
    rcases hcase with ⟨hlt, hfurthest⟩ | ⟨rfl, hbest⟩
    · obtain ⟨i, hearliest⟩ := Reader.earliestFurthest_of_firstFurthest hin hall hfurthest
      obtain ⟨rule, -, hat⟩ := hearliest.exists_failsAt
      exact .inl ⟨i, (hat.beyond_iff hin hstart expected).mp hlt, hearliest⟩
    · refine .inr ⟨fun rule hmem i e' hat => ?_, rfl⟩
      exact Nat.not_lt.mp (mt (hat.beyond_iff hin hstart expected).mpr (hbest rule hmem e' hat.fails))
  · exact Reader.position_mismatch_eq hscan hoffset what
  · exact Reader.position_lt_iff hin hi hj what what'

def openCall : String := "[f(1, // é\n"

def Reader.openCall : Reader where
  lexemes :=
    { list := [⟨.mark .openBracket, 0, 1, ⟨1, 1⟩⟩, ⟨.identifier "f", 1, 2, ⟨1, 2⟩⟩, ⟨.mark .openParen, 2, 3, ⟨1, 3⟩⟩,
        ⟨.integer 1, 3, 4, ⟨1, 4⟩⟩, ⟨.mark .comma, 4, 5, ⟨1, 5⟩⟩]
      stop := ⟨2, 1⟩ }
  index := 1

def Reader.refuseAt (reader : Reader) (i : Nat) (expected : String) : Rule Expr :=
  fun _ _ => .fail ((reader.moveTo i).mismatch expected) []

open Grammar in
def Reader.openCallRules : List (Rule Expr) :=
  [labelledCall (expr 5) 5, call (expr 5) 5, Reader.openCall.refuseAt 5 "')'", Reader.openCall.refuseAt 0 "';'"]

theorem scan_openCall : Lexeme.scan openCall = .ok Reader.openCall.lexemes := eq_ok_of_toOption (by decide +kernel)

theorem Reader.openCallRules_fail (rule : Rule Expr) (hmem : rule ∈ openCallRules) :
    ∃ i e, openCall.FailsAt rule i e := by
  simp only [openCallRules, List.mem_cons, List.not_mem_nil, or_false] at hmem
  rcases hmem with rfl | rfl | rfl | rfl
  · exact ⟨2, _, by decide, ⟨"'['", rfl⟩, _, rfl⟩
  · exact ⟨5, _, by decide, ⟨"expression", rfl⟩, _, rfl⟩
  · exact ⟨5, _, by decide, ⟨"')'", rfl⟩, _, rfl⟩
  · exact ⟨0, _, by decide, ⟨"';'", rfl⟩, _, rfl⟩

open Grammar Reader in
/-- The first of the two rules that fail at the end of the text is the one whose error is given. With a
    variable as one more alternative there is a value. -/
theorem choice_by_index_openCall :
    (∃ i e, Reader.openCall.apply (choice "value" openCallRules) = (.error e, Reader.openCall) ∧
      e = (Reader.openCall.moveTo 5).mismatch "expression" ∧ 1 < i ∧
        Reader.openCall.EarliestFurthest openCallRules i e) ∧
    Reader.openCall.reply (choice "value" (openCallRules ++ [reference])) =
      .ok (.var "f") (Reader.openCall.moveTo 2).rest ∧
    ((Reader.openCall.moveTo 4).mismatch "')'").position < ((Reader.openCall.moveTo 5).mismatch "')'").position := by
  have hstart : Reader.openCall.index ≤ Reader.openCall.size := by decide
  have hnone (rule : Rule Expr) (hmem : rule ∈ openCallRules) : ¬ Reader.openCall.Succeeds rule := by
    obtain ⟨i, e, hat⟩ := openCallRules_fail rule hmem
    exact hat.not_succeeds
  have hreference : Reader.openCall.reply reference = .ok (.var "f") (Reader.openCall.moveTo 2).rest := rfl
  obtain ⟨-, hfails, -, hlt⟩ :=
    choice_by_index scan_openCall hstart "value" fun rule hmem => .inr (openCallRules_fail rule hmem)
  obtain ⟨hsucceeds, -⟩ :=
    choice_by_index scan_openCall hstart "value" (List.forall_mem_append.mpr
      ⟨fun rule hmem => .inr (openCallRules_fail rule hmem), List.forall_mem_singleton.mpr (.inl ⟨_, _, hreference⟩)⟩)
  refine ⟨?_, (hsucceeds openCallRules reference [] _ _ rfl hnone hreference).1,
    (hlt 4 5 _ _ (by decide) (by decide)).mpr (by decide)⟩
  obtain ⟨e, hreply, happly, ⟨i, hbeyond, hearliest⟩ | ⟨hbehind, -⟩⟩ := hfails hnone
  · exact ⟨i, e, happly, (Reply.fail.inj hreply).1.symm, hbeyond, hearliest⟩
  · have hcall : Reader.openCall.FailsAt (call (expr 5) 5) 5 ((Reader.openCall.moveTo 5).mismatch "expression") :=
      ⟨by decide, ⟨_, rfl⟩, _, rfl⟩
    exact absurd (hbehind _ (by simp [openCallRules]) _ _ hcall) (by decide)

end Scriptling
