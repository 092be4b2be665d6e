/-
  Scriptling.Proofs.Grammar.Place — the lexemes of a text stand in order.

  An error is reported at the place of a lexeme or at the end of the text (`Rule.place`). Places
  grow along a text, so they compare like the numbers of lexemes before them (`InOrder.lt_iff`).
-/

import Scriptling.Proofs.Lexeme.Segmentation
import Scriptling.Grammar.Rule

namespace Scriptling

/-! ## Positions -/

namespace Position

theorem lt_trans {p q r : Position} (h : p < q) (h' : q < r) : p < r := by
  rw [lt_def] at *
  omega

theorem lt_irrefl (p : Position) : ¬ p < p := by
  rw [lt_def]
  omega

theorem lt_of_not_lt_of_lt {p q r : Position} (h : ¬ q < p) (h' : q < r) : p < r := by
  rw [lt_def] at *
  omega

theorem lt_advance (p : Position) (c : Char) : p < p.advance c := by
  unfold advance
  split <;> rw [lt_def] <;> simp

/-- Text leads on. -/
theorem lt_afterAll (p : Position) {text : List Char} (h : text ≠ []) : p < p.afterAll text := by
  induction text generalizing p with
  | nil => exact absurd rfl h
  | cons c text ih =>
    rw [afterAll_cons]
    by_cases hnil : text = []
    · rw [hnil]
      exact p.lt_advance c
    · exact lt_trans (p.lt_advance c) (ih _ hnil)

end Position

/-! ## Lexemes -/

namespace Rule

def place (stop : Position) : List Lexeme → Position
  | [] => stop
  | lexeme :: _ => lexeme.position

@[simp] theorem position_mismatch (expected : String) (stop : Position) (left : List Lexeme) :
    (mismatch expected stop left).position = place stop left := by
  cases left <;> rfl

/-- Each lexeme stands before the next one, and the last before the end of the text. -/
def InOrder (stop : Position) : List Lexeme → Prop
  | [] => True
  | lexeme :: rest => lexeme.position < place stop rest ∧ InOrder stop rest

theorem InOrder.of_append {stop : Position} {read left : List Lexeme} (h : InOrder stop (read ++ left)) :
    InOrder stop left := by
  induction read with
  | nil => exact h
  | cons lexeme read ih => exact ih h.2

theorem InOrder.place_lt {stop : Position} {mid left : List Lexeme} (h : InOrder stop (mid ++ left)) (hne : mid ≠ []) :
    place stop (mid ++ left) < place stop left := by
  induction mid with
  | nil => exact absurd rfl hne
  | cons lexeme mid ih =>
    by_cases hnil : mid = []
    · subst hnil
      exact h.1
    · exact Position.lt_trans h.1 (ih h.2 hnil)

section Split

variable {stop : Position} {read left read' left' : List Lexeme}

/-- Of two ways to cut the lexemes, the later one is at the later place. -/
theorem InOrder.lt_iff (h : InOrder stop (read ++ left)) (heq : read ++ left = read' ++ left') :
    place stop left < place stop left' ↔ read.length < read'.length := by
  have later {read left read' left' : List Lexeme} (h : InOrder stop (read ++ left))
      (heq : read ++ left = read' ++ left') (hlen : read.length < read'.length) :
      place stop left < place stop left' := by
    obtain ⟨mid, rfl, rfl⟩ | ⟨mid, rfl, rfl⟩ := List.append_eq_append_iff.mp heq
    · refine h.of_append.place_lt ?_
      rintro rfl
      simp at hlen
    · rw [List.length_append] at hlen
      omega
  refine ⟨fun hlt => ?_, later h heq⟩
  by_cases hlen : read.length < read'.length
  · exact hlen
  rcases Nat.lt_or_eq_of_le (Nat.not_lt.mp hlen) with hgt | hlen
  · exact absurd (Position.lt_trans hlt (later (heq ▸ h) heq.symm hgt)) (Position.lt_irrefl _)
  · obtain ⟨-, rfl⟩ := List.append_inj heq hlen.symm
    exact absurd hlt (Position.lt_irrefl _)

/-- A place is that of one cut only. -/
theorem InOrder.eq_of_place (h : InOrder stop (read ++ left)) (heq : read ++ left = read' ++ left')
    (hplace : place stop left = place stop left') : read = read' ∧ left = left' := by
  have hle := mt (h.lt_iff heq).mpr (hplace ▸ Position.lt_irrefl _)
  have hge := mt ((heq ▸ h).lt_iff heq.symm).mpr (hplace ▸ Position.lt_irrefl _)
  exact List.append_inj heq (by omega)

end Split

end Rule

/-! ## Scans -/

/-- The lexemes of a text stand in order. -/
theorem Segmented.inOrder {before text : List Char} {lexemes : List Lexeme} (h : Segmented [] before text lexemes) :
    Rule.InOrder (Position.start.afterAll (before ++ text)) lexemes ∧
      ∃ front, Rule.place (Position.start.afterAll (before ++ text)) lexemes =
        Position.start.afterAll (before ++ front) := by
  induction h with
  | stop => exact ⟨trivial, [], rfl⟩
  | @blank before text after lexemes _ _ ih =>
    obtain ⟨hin, front, hfront⟩ := ih
    rw [List.append_assoc] at hin hfront
    exact ⟨hin, text ++ front, by rw [hfront, List.append_assoc]⟩
  | @token before text after t lexemes hp _ ih =>
    obtain ⟨hin, front, hfront⟩ := ih
    rw [List.append_assoc] at hin hfront
    refine ⟨⟨?_, hin⟩, [], by rw [List.append_nil]; rfl⟩
    rw [hfront, List.append_assoc, Position.afterAll_append]
    exact Position.lt_afterAll _ (by simp [hp.ne_nil])

theorem Lexeme.scan_inOrder {source : String} {lexemes : Lexemes} (h : scan source = .ok lexemes) :
    Rule.InOrder lexemes.stop lexemes.list := by
  obtain ⟨hseg, hstop⟩ := scan_eq_ok_iff.mp h
  rw [hstop, Position.ofOffset_byteSize (List.append_nil _).symm]
  exact hseg.inOrder.1

end Scriptling
