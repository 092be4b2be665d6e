/-
  Scriptling.Proofs.Grammar.Exact — parsing accepts exactly what can be derived.

  The rules read all of a text as a value exactly if the grammar derives the value from its tokens
  (`Expr.parse`, `Expr.parseLines` and `Program.parse` alike). Rules are functions, so tokens spell
  at most one tree.
-/

import Scriptling.Proofs.Grammar.Complete

namespace Scriptling

namespace Grammar

open Rule

/-! ## Whole texts -/

theorem wholeExpr_ok_iff {stop : Position} {input : List Lexeme} {e : Expr} :
    (∃ rest, wholeExpr input.length stop input = .ok e rest) ↔ IsExpr (tokens input) e := by
  constructor
  · intro h
    obtain ⟨rest, h⟩ := h
    simp only [wholeExpr, bind_eq_ok_iff] at h
    obtain ⟨e', mid, he, _, after, hend, hpure⟩ := h
    obtain ⟨rfl, rfl⟩ := pure_eq_ok_iff.mp hpure
    obtain ⟨ts, hts, hd⟩ := expr_gives _ _ _ _ _ he
    cases mid with
    | nil => rwa [hts, tokens_nil, List.append_nil]
    | cons lexeme more => cases hend
  · intro hd
    have hcover := expr_covers input.length (tokens input) [] e ⟨hd, by simp [EndsExpr, EndsPrimary]⟩ (by simp)
    obtain ⟨rest, hrest, he⟩ := hcover stop input (by simp)
    obtain rfl := tokens_eq_nil_iff.mp hrest
    exact ⟨[], by simp [wholeExpr, he, expectEnd, atEnd]⟩

theorem not_isLine_nil (next : Option Token) (e : Expr) : ¬ IsLine next [] e := by
  intro h
  obtain ⟨_, _, heq, -⟩ := h.begins
  cases heq

theorem wholeLines_ok_iff {stop : Position} {input : List Lexeme} {lines : List Expr} :
    (∃ rest, wholeLines input.length stop input = .ok lines rest) ↔ IsText (tokens input) lines := by
  constructor
  · intro h
    obtain ⟨rest, h⟩ := h
    obtain ⟨first, mid, hfirst, hmore⟩ := bind_eq_ok_iff.mp h
    obtain ⟨ts, hts, hd⟩ := line_gives _ _ _ _ _ hfirst
    have hlen : mid.length ≤ input.length := by
      have hsum := congrArg List.length hts
      simp only [length_tokens, List.length_append] at hsum
      omega
    obtain ⟨es, rfl, hs⟩ := untilEnd_gives (line_gives _) not_isLine_nil _ _ hlen hmore
    refine ⟨by simp, ?_⟩
    rw [hts]
    refine .cons ?_ hs
    simpa [after] using hd
  · intro h
    obtain ⟨hne, hs⟩ := h
    generalize hts : tokens input = ts at hs
    cases hs with
    | nil => exact absurd rfl hne
    | @cons ts us e es hd hs =>
      have hlen := congrArg List.length hts
      simp only [length_tokens, List.length_append] at hlen
      have hfirst : (line input.length).Reads ts e (us ++ []) :=
        line_covers _ ts _ e (by simpa [after] using hd) (by omega)
      have hmore := (line_covers input.length).untilEnd not_isLine_nil hs (by omega) (n := input.length)
        (by omega) [e]
      obtain ⟨rest, -, hread⟩ := hfirst.bind (f := fun first => untilEnd (line input.length) input.length [first])
        hmore stop input (by simpa using hts)
      exact ⟨rest, hread⟩

theorem wholeProgram_ok_iff {stop : Position} {input : List Lexeme} {program : Program} :
    (∃ rest, wholeProgram input.length stop input = .ok program rest) ↔ IsProgram (tokens input) program := by
  have hnil (next : Option Token) (d : Definition) : ¬ (fun _ => IsDefinition) next [] d := by
    intro h
    obtain ⟨_, _, heq⟩ := IsDefinition.begins h
    cases heq
  constructor
  · intro h
    obtain ⟨rest, h⟩ := h
    obtain ⟨ds, rfl, hs⟩ := untilEnd_gives (definition_gives _) hnil _ _ (Nat.le_refl _) h
    exact hs
  · intro hs
    obtain ⟨rest, -, hread⟩ :=
      (definition_covers input.length).untilEnd hnil hs (by simp) (n := input.length) (by simp) [] stop input (by simp)
    exact ⟨rest, hread⟩

/-! ## At most one tree -/

def lexemesOf (ts : List Token) : List Lexeme := ts.map fun t => ⟨t, 0, 0, .start⟩

@[simp] theorem tokens_lexemesOf (ts : List Token) : tokens (lexemesOf ts) = ts := by
  rw [tokens, lexemesOf, List.map_map]
  exact List.map_id ts

/-- What a rule reads is a function of the tokens. -/
theorem eq_of_ok_iff {α : Type} {rule : Nat → Rule α} {D : List Token → α → Prop}
    (h : ∀ stop input a, (∃ rest, rule input.length stop input = .ok a rest) ↔ D (tokens input) a)
    {ts : List Token} {a b : α} (ha : D ts a) (hb : D ts b) : a = b := by
  rw [← tokens_lexemesOf ts] at ha hb
  obtain ⟨_, hra⟩ := (h .start _ a).mpr ha
  obtain ⟨_, hrb⟩ := (h .start _ b).mpr hb
  rw [hra] at hrb
  exact (Reply.ok.inj hrb).1

theorem IsExpr.unique {ts : List Token} {e e' : Expr} (h : IsExpr ts e) (h' : IsExpr ts e') : e = e' :=
  eq_of_ok_iff (fun _ _ _ => wholeExpr_ok_iff) h h'

theorem IsText.unique {ts : List Token} {lines lines' : List Expr} (h : IsText ts lines) (h' : IsText ts lines') :
    lines = lines' :=
  eq_of_ok_iff (fun _ _ _ => wholeLines_ok_iff) h h'

theorem IsProgram.unique {ts : List Token} {program program' : Program} (h : IsProgram ts program)
    (h' : IsProgram ts program') : program = program' :=
  eq_of_ok_iff (fun _ _ _ => wholeProgram_ok_iff) h h'

end Grammar

/-! ## Source texts -/

theorem Rule.read_eq_ok_iff {α : Type} {rule : Nat → Rule α} {source : String} {lexemes : Lexemes} {a : α}
    (scanned : Lexeme.scan source = .ok lexemes) :
    Rule.read rule source = .ok a ↔
      ∃ rest, rule lexemes.list.length lexemes.stop lexemes.list = .ok a rest := by
  simp only [Rule.read, scanned, bind, Except.bind]
  cases rule lexemes.list.length lexemes.stop lexemes.list <;> simp

open Grammar in
/-- A text is parsed as an expression, as lines or as a program exactly if the grammar derives this
    from its tokens, and the grammar derives at most one. -/
theorem parse_eq_ok_iff_derives {source : String} {lexemes : Lexemes} (scanned : Lexeme.scan source = .ok lexemes) :
    (∀ e, Expr.parse source = .ok e ↔ IsExpr (tokens lexemes.list) e) ∧
    (∀ lines, Expr.parseLines source = .ok lines ↔ IsText (tokens lexemes.list) lines) ∧
    (∀ program, Program.parse source = .ok program ↔ IsProgram (tokens lexemes.list) program) ∧
    (∀ e e', IsExpr (tokens lexemes.list) e → IsExpr (tokens lexemes.list) e' → e = e') ∧
    (∀ lines lines', IsText (tokens lexemes.list) lines → IsText (tokens lexemes.list) lines' → lines = lines') ∧
    (∀ program program', IsProgram (tokens lexemes.list) program → IsProgram (tokens lexemes.list) program' →
      program = program') :=
  ⟨fun _ => (Rule.read_eq_ok_iff scanned).trans wholeExpr_ok_iff,
    fun _ => (Rule.read_eq_ok_iff scanned).trans wholeLines_ok_iff,
    fun _ => (Rule.read_eq_ok_iff scanned).trans wholeProgram_ok_iff,
    fun _ _ => IsExpr.unique, fun _ _ => IsText.unique, fun _ _ => IsProgram.unique⟩

/-- Two conditions, and one `else` after them. -/
def danglingElse : String :=
  "if (a <= n) if (b) f(1 - 2 * 3 - 4); else for (i in 0 to n) x = g[y = (4)];"

theorem eq_ok_of_toOption {ε α : Type} {x : Except ε α} {a : α} (h : x.toOption = some a) : x = .ok a := by
  cases x with
  | ok b => exact congrArg Except.ok (Option.some.inj h)
  | error e => cases h

/-- The `else` goes with the inner `if`, the product binds tighter than the differences, which group to
    the left, the loop counts up to `n`, and the parentheses around `4` leave no trace. -/
theorem dangling_else_derives : ∃ lexemes,
    Lexeme.scan danglingElse = .ok lexemes ∧
      Grammar.IsText (tokens lexemes.list)
        [.ifThen (.binary .lessOrEqual (.var "a") (.var "n")) (.ifElse (.var "b")
          (.call "f" [.binary .subtract
            (.binary .subtract (.int 1) (.binary .multiply (.int 2) (.int 3))) (.int 4)])
          (.block [.assign "i" (.int 0),
            .whileDo (.binary .less (.var "i") (.var "n"))
              (.block [.assign "x" (.labelledCall "g" [("y", .int 4)]),
                .assign "i" (.binary .add (.var "i") (.int 1))])]))] := by
  have hscan : (Lexeme.scan danglingElse).isOk = true := by decide +kernel
  cases h : Lexeme.scan danglingElse with
  | error e =>
    rw [h] at hscan
    cases hscan
  | ok lexemes =>
    refine ⟨lexemes, rfl, ((parse_eq_ok_iff_derives h).2.1 _).mp ?_⟩
    exact eq_ok_of_toOption (by decide +kernel)

end Scriptling
