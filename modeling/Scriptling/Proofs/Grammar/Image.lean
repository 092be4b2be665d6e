/-
  Scriptling.Proofs.Grammar.Image — the trees that texts spell.

  - `Expr.operandTokens`, `Expr.lineTokens`, `Definition.tokens`: a way to write every operand, every
    statement and every definition, with parentheses around each operator.
  - `operandTokens_derives`, `lineTokens_derives`, `definitionTokens_derives`: from what is written
    the same tree is derived.
  - `parse_image`: the trees that some text spells are the operands, the statements and the
    well-formed definitions, and no others.
-/

import Scriptling.Proofs.Grammar.Exact
import Scriptling.Proofs.Grammar.Shape

namespace Scriptling

/-! ## Writing trees -/

def commaSeparated : List (List Token) → List Token
  | [] => []
  | ts :: tss => ts ++ if tss.isEmpty then [] else .mark .comma :: commaSeparated tss

mutual

/-- An operand as it is written. Parentheses stand around every operator. -/
def Expr.operandTokens : Expr → List Token
  | .int value => [.integer value.toNat]
  | .bool value => [.keyword (if value then .true_ else .false_)]
  | .array items => .mark .openBracket :: commaSeparated (itemTokens items) ++ [.mark .closeBracket]
  | .var x => [.identifier x]
  | .binary op left right =>
    .mark .openParen :: (left.operandTokens ++ .operator op :: right.operandTokens) ++ [.mark .closeParen]
  | .call f arguments =>
    .identifier f :: .mark .openParen :: commaSeparated (itemTokens arguments) ++ [.mark .closeParen]
  | .labelledCall f arguments =>
    .identifier f :: .mark .openBracket :: commaSeparated (argumentTokens arguments) ++ [.mark .closeBracket]
  | .assign _ _ | .block _ | .ifThen _ _ | .ifElse _ _ _ | .whileDo _ _ | .println _ => []

def itemTokens : List Expr → List (List Token)
  | [] => []
  | e :: es => e.operandTokens :: itemTokens es

def argumentTokens : List (String × Expr) → List (List Token)
  | [] => []
  | (x, e) :: es => (.identifier x :: .mark .assign :: e.operandTokens) :: argumentTokens es

end

def Expr.conditionTokens (e : Expr) : List Token := .mark .openParen :: e.operandTokens ++ [.mark .closeParen]

mutual

def Expr.lineTokens : Expr → List Token
  | .assign x value => .identifier x :: .mark .assign :: value.operandTokens ++ [.mark .semicolon]
  | .println argument => .keyword .println_ :: argument.conditionTokens ++ [.mark .semicolon]
  | .block lines => .mark .openBrace :: linesTokens lines ++ [.mark .closeBrace]
  | .whileDo condition body => .keyword .while_ :: condition.conditionTokens ++ body.lineTokens
  | .ifThen condition body => .keyword .if_ :: condition.conditionTokens ++ body.lineTokens
  | .ifElse condition body orElse =>
    .keyword .if_ :: condition.conditionTokens ++ body.lineTokens ++ .keyword .else_ :: orElse.lineTokens
  | e => e.operandTokens ++ [.mark .semicolon]

def linesTokens : List Expr → List Token
  | [] => []
  | e :: es => e.lineTokens ++ linesTokens es

end

def Definition.tokens : Definition → List Token
  | .global x value =>
    .keyword .global_ :: .identifier x :: .mark .assign :: value.operandTokens ++ [.mark .semicolon]
  | .function f =>
    .keyword .define_ :: .identifier f.name :: .mark .openParen ::
      commaSeparated (f.params.map fun x => [.identifier x]) ++ .mark .closeParen :: f.body.lineTokens

namespace Grammar

/-! ## Operands -/

theorem IsPrimary.isProduct {ts : List Token} {e : Expr} (h : IsPrimary ts e) : IsProduct ts e := .chain (.single h)

theorem IsProduct.isSum {ts : List Token} {e : Expr} (h : IsProduct ts e) : IsSum ts e := .chain (.single h)

theorem IsSum.isExpr {ts : List Token} {e : Expr} (h : IsSum ts e) : IsExpr ts e := .chain (.single h)

theorem IsPrimary.isExpr {ts : List Token} {e : Expr} (h : IsPrimary ts e) : IsExpr ts e := h.isProduct.isSum.isExpr

/-- Two primaries with an operator of any level between them are an expression. -/
theorem IsPrimary.isExpr_binary {ts us : List Token} {left right : Expr} (hl : IsPrimary ts left)
    (hr : IsPrimary us right) (op : Operator) : IsExpr (ts ++ .operator op :: us) (.binary op left right) := by
  have level : op ∈ [.multiply, .divide] ∨ op ∈ [.add, .subtract] ∨
      op ∈ [.less, .lessOrEqual, .greater, .greaterOrEqual, .equal, .notEqual] := by
    cases op <;> decide
  rcases level with h | h | h
  · have hproduct : IsProduct (ts ++ .operator op :: us) (.binary op left right) := .chain (.more (.single hl) h hr)
    exact hproduct.isSum.isExpr
  · have hsum : IsSum (ts ++ .operator op :: us) (.binary op left right) :=
      .chain (.more (.single hl.isProduct) h hr.isProduct)
    exact hsum.isExpr
  · exact .chain (.more (.single hl.isProduct.isSum) h hr.isProduct.isSum)

/-- Items that are written, with commas between them, are derived as the items. -/
theorem commaSeparated_derives {α : Type} {D : List Token → α → Prop} (write : α → List Token) {as : List α}
    (h : ∀ a ∈ as, Writable (write a) ∧ D (write a) a) :
    Writable (commaSeparated (as.map write)) ∧ IsSeparated D (commaSeparated (as.map write)) as := by
  have items (a : α) (as : List α) (h : ∀ b ∈ a :: as, Writable (write b) ∧ D (write b) b) :
      Writable (commaSeparated ((a :: as).map write)) ∧ IsItems D (commaSeparated ((a :: as).map write)) (a :: as) := by
    induction as generalizing a with
    | nil => simpa [commaSeparated] using ⟨(h a (by simp)).1, IsItems.last (h a (by simp)).2⟩
    | cons b as ih =>
      obtain ⟨hw, hd⟩ := h a (by simp)
      obtain ⟨hws, hds⟩ := ih b fun c hc => h c (by simp_all)
      exact ⟨writable_append.mpr ⟨hw, by simpa using hws⟩, .more hd hds⟩
  cases as with
  | nil => exact ⟨by simp [commaSeparated], .nothing⟩
  | cons a as =>
    obtain ⟨hw, hd⟩ := items a as h
    exact ⟨hw, .items hd⟩

theorem itemTokens_eq_map (es : List Expr) : itemTokens es = es.map Expr.operandTokens := by
  induction es with
  | nil => rfl
  | cons e es ih => rw [itemTokens, ih, List.map_cons]

theorem argumentTokens_eq_map (es : List (String × Expr)) :
    argumentTokens es = es.map fun a => .identifier a.1 :: .mark .assign :: a.2.operandTokens := by
  induction es with
  | nil => rfl
  | cons a es ih => rw [argumentTokens, ih, List.map_cons]

/-- An operand is derived from what is written for it. -/
theorem operandTokens_derives {e : Expr} (h : e.IsOperand) :
    Writable e.operandTokens ∧ IsPrimary e.operandTokens e := by
  induction h with
  | @int n hn => exact ⟨by simpa [Expr.operandTokens] using hn, .integer n⟩
  | bool b =>
    cases b with
    | false => exact ⟨by simp [Expr.operandTokens], .boolFalse⟩
    | true => exact ⟨by simp [Expr.operandTokens], .boolTrue⟩
  | var hx => exact ⟨by simpa [Expr.operandTokens] using hx, .var _⟩
  | array _ ih =>
    obtain ⟨hw, hd⟩ := commaSeparated_derives (D := IsExpr) Expr.operandTokens fun e he => ⟨(ih e he).1, (ih e he).2.isExpr⟩
    rw [Expr.operandTokens, itemTokens_eq_map]
    exact ⟨by simp [hw], .array hd⟩
  | binary op _ _ ihl ihr =>
    rw [Expr.operandTokens]
    exact ⟨by simp [ihl.1, ihr.1], .group (ihl.2.isExpr_binary ihr.2 op)⟩
  | call hf _ ih =>
    obtain ⟨hw, hd⟩ := commaSeparated_derives (D := IsExpr) Expr.operandTokens fun e he => ⟨(ih e he).1, (ih e he).2.isExpr⟩
    rw [Expr.operandTokens, itemTokens_eq_map]
    exact ⟨by simp [hf, hw], .call hd⟩
  | labelledCall hf hlabels _ ih =>
    obtain ⟨hw, hd⟩ := commaSeparated_derives (D := IsArgument)
      (fun a : String × Expr => .identifier a.1 :: .mark .assign :: a.2.operandTokens)
      fun a ha => ⟨by simpa using ⟨hlabels a ha, (ih a ha).1⟩, .label (ih a ha).2.isExpr⟩
    rw [Expr.operandTokens, argumentTokens_eq_map]
    exact ⟨by simp [hf, hw], .labelledCall hd⟩

theorem conditionTokens_derives {e : Expr} (h : e.IsOperand) :
    Writable e.conditionTokens ∧ IsParenthesized e.conditionTokens e := by
  obtain ⟨hw, hd⟩ := operandTokens_derives h
  exact ⟨by simp [Expr.conditionTokens, hw], .parens hd.isExpr⟩

/-! ## Statements -/

theorem lineTokens_of_isOperand {e : Expr} (h : e.IsOperand) : e.lineTokens = e.operandTokens ++ [.mark .semicolon] := by
  cases h <;> rw [Expr.lineTokens] <;> simp

/-- No line begins with `else`, so a line may come before any other. -/
theorem IsLine.avoids_else (next : Option Token) : Rule.Avoids (IsLine next) (.keyword .else_) := by
  intro ts e h
  obtain ⟨first, more, rfl, hf⟩ := h.begins
  refine ⟨first, more, rfl, ?_⟩
  intro heq
  subst heq
  revert hf
  decide

/-- What no item begins with comes before a sequence of them only if it comes after it. -/
theorem IsSequence.after_ne {α : Type} {D : Option Token → List Token → α → Prop} {t : Token}
    (havoid : ∀ next, Rule.Avoids (D next) t) {next : Option Token} (hnext : next ≠ some t) {ts : List Token}
    {as : List α} (h : IsSequence D next ts as) : after ts next ≠ some t := by
  cases h with
  | nil => exact hnext
  | cons hd _ =>
    obtain ⟨first, more, rfl, hne⟩ := havoid _ _ _ hd
    simpa [after] using hne

theorem linesTokens_derives {es : List Expr} (next : Option Token) (hnext : next ≠ some (.keyword .else_))
    (h : ∀ e ∈ es, Writable e.lineTokens ∧
      ∀ next, (next = some (.keyword .else_) → ¬ e.Open) → IsLine next e.lineTokens e) :
    Writable (linesTokens es) ∧ IsSequence IsLine next (linesTokens es) es := by
  induction es with
  | nil => exact ⟨by simp [linesTokens], .nil⟩
  | cons e es ih =>
    obtain ⟨hw, hd⟩ := h e (by simp)
    obtain ⟨hws, hds⟩ := ih fun a ha => h a (by simp [ha])
    rw [linesTokens]
    exact ⟨by simp [hw, hws], .cons (hd _ fun heq => absurd heq (hds.after_ne IsLine.avoids_else hnext)) hds⟩

/-- A statement is derived from what is written for it, before an `else` only if it is not open. -/
theorem lineTokens_derives {e : Expr} (h : e.IsStatement) :
    Writable e.lineTokens ∧ ∀ next, (next = some (.keyword .else_) → ¬ e.Open) → IsLine next e.lineTokens e := by
  induction h with
  | operand he =>
    obtain ⟨hw, hd⟩ := operandTokens_derives he
    rw [lineTokens_of_isOperand he]
    exact ⟨by simp [hw], fun _ _ => .expr hd.isExpr⟩
  | assign hx hv =>
    obtain ⟨hw, hd⟩ := operandTokens_derives hv
    rw [Expr.lineTokens]
    exact ⟨by simp [hx, hw], fun _ _ => .assign hd.isExpr⟩
  | println ha =>
    obtain ⟨hw, hd⟩ := conditionTokens_derives ha
    rw [Expr.lineTokens]
    exact ⟨by simp [hw], fun _ _ => .println hd⟩
  | block _ ih =>
    obtain ⟨hw, hd⟩ := linesTokens_derives (some (.mark .closeBrace)) (by simp) ih
    rw [Expr.lineTokens]
    exact ⟨by simp [hw], fun _ _ => .block (.braces hd)⟩
  | whileDo hc _ ih =>
    obtain ⟨hw, hd⟩ := conditionTokens_derives hc
    rw [Expr.lineTokens]
    refine ⟨by simp [hw, ih.1], fun next hopen => .whileDo hd (ih.2 next fun heq h => ?_)⟩
    exact hopen heq (.whileDo _ h)
  | ifThen hc _ ih =>
    obtain ⟨hw, hd⟩ := conditionTokens_derives hc
    rw [Expr.lineTokens]
    refine ⟨by simp [hw, ih.1], fun next hopen => ?_⟩
    have hnext (heq : next = some (.keyword .else_)) : False := hopen heq (.ifThen _ _)
    exact .ifThen hd (ih.2 next fun heq => (hnext heq).elim) hnext
  | ifElse hc _ hclosed _ ihb iho =>
    obtain ⟨hw, hd⟩ := conditionTokens_derives hc
    rw [Expr.lineTokens]
    refine ⟨by simp [hw, ihb.1, iho.1], fun next hopen => .ifElse hd (ihb.2 _ fun _ => hclosed) ?_⟩
    exact iho.2 next fun heq h => hopen heq (.ifElse _ _ h)

/-! ## Definitions -/

theorem definitionTokens_derives {d : Definition} (h : d.WellFormed) :
    Writable d.tokens ∧ IsDefinition d.tokens d := by
  cases h with
  | global hx hv =>
    obtain ⟨hw, hd⟩ := operandTokens_derives hv
    exact ⟨by simp [Definition.tokens, hx, hw], .global hd.isExpr⟩
  | function hf hparams hlines =>
    obtain ⟨hwp, hdp⟩ := commaSeparated_derives (D := IsName) (fun x : String => [.identifier x])
      fun x hx => ⟨by simpa using hparams x hx, .identifier x⟩
    obtain ⟨hwl, hdl⟩ := linesTokens_derives (some (.mark .closeBrace)) (by simp)
      fun e he => lineTokens_derives (hlines e he)
    rw [Definition.tokens, Expr.lineTokens]
    exact ⟨by simp [hf, hwp, hwl], .function hdp (.braces hdl)⟩

theorem programTokens_derives {program : Program} (h : ∀ d ∈ program, d.WellFormed) :
    Writable (program.flatMap Definition.tokens) ∧ IsProgram (program.flatMap Definition.tokens) program := by
  induction program with
  | nil => exact ⟨by simp, .nil⟩
  | cons d program ih =>
    obtain ⟨hw, hd⟩ := definitionTokens_derives (h d (by simp))
    obtain ⟨hws, hds⟩ := ih fun a ha => h a (by simp [ha])
    rw [List.flatMap_cons]
    exact ⟨by simp [hw, hws], .cons hd hds⟩

end Grammar

/-! ## Texts -/

section Read

variable {α : Type} {rule : Nat → Rule α} {D : List Token → α → Prop}
  (accepts : ∀ stop input a, (∃ rest, rule input.length stop input = .ok a rest) ↔ D (tokens input) a)
include accepts

/-- The text of some tokens is read as what is derived from them. -/
theorem Rule.read_textOf {ts : List Token} {a : α} (hw : Writable ts) (hd : D ts a) :
    Rule.read rule (textOf ts) = .ok a := by
  obtain ⟨lexemes, hscan, rfl⟩ := Lexeme.scan_textOf hw
  exact (Rule.read_eq_ok_iff hscan).mpr ((accepts _ _ _).mpr hd)

/-- What a text is read as is derived from its tokens. -/
theorem Rule.scan_of_read {source : String} {a : α} (h : Rule.read rule source = .ok a) :
    ∃ lexemes, Lexeme.scan source = .ok lexemes ∧ D (tokens lexemes.list) a := by
  cases hscan : Lexeme.scan source with
  | error e =>
    simp only [Rule.read, hscan, bind, Except.bind] at h
    cases h
  | ok lexemes => exact ⟨lexemes, rfl, (accepts _ _ _).mp ((Rule.read_eq_ok_iff hscan).mp h)⟩

/-- What some text is read as is derived from tokens that can be written. -/
theorem Rule.derives_of_read {source : String} {a : α} (h : Rule.read rule source = .ok a) :
    ∃ ts, Writable ts ∧ D ts a := by
  obtain ⟨lexemes, hscan, hd⟩ := Rule.scan_of_read accepts h
  exact ⟨_, Lexeme.writable_of_scan hscan, hd⟩

end Read

open Grammar in
/-- Texts spell exactly the operands as expressions, the statements as lines and the well-formed
    definitions as programs. What is written for one of them spells it again. -/
theorem parse_image :
    (∀ e, (∃ source, Expr.parse source = .ok e) ↔ e.IsOperand) ∧
    (∀ lines, lines ≠ [] → ((∃ source, Expr.parseLines source = .ok lines) ↔ ∀ e ∈ lines, e.IsStatement)) ∧
    (∀ program, (∃ source, Program.parse source = .ok program) ↔ ∀ d ∈ program, d.WellFormed) ∧
    (∀ e, e.IsOperand → Expr.parse (textOf e.operandTokens) = .ok e) ∧
    (∀ lines, lines ≠ [] → (∀ e ∈ lines, e.IsStatement) →
      Expr.parseLines (textOf (linesTokens lines)) = .ok lines) ∧
    (∀ program, (∀ d ∈ program, d.WellFormed) →
      Program.parse (textOf (program.flatMap Definition.tokens)) = .ok program) := by
  have expr (e : Expr) (h : e.IsOperand) : Expr.parse (textOf e.operandTokens) = .ok e := by
    obtain ⟨hw, hd⟩ := operandTokens_derives h
    exact Rule.read_textOf (fun _ _ _ => wholeExpr_ok_iff) hw hd.isExpr
  have lines (lines : List Expr) (hne : lines ≠ []) (h : ∀ e ∈ lines, e.IsStatement) :
      Expr.parseLines (textOf (linesTokens lines)) = .ok lines := by
    obtain ⟨hw, hd⟩ := linesTokens_derives none (by simp) fun e he => lineTokens_derives (h e he)
    exact Rule.read_textOf (fun _ _ _ => wholeLines_ok_iff) hw ⟨hne, hd⟩
  have program (program : Program) (h : ∀ d ∈ program, d.WellFormed) :
      Program.parse (textOf (program.flatMap Definition.tokens)) = .ok program := by
    obtain ⟨hw, hd⟩ := programTokens_derives h
    exact Rule.read_textOf (fun _ _ _ => wholeProgram_ok_iff) hw hd
  refine ⟨fun e => ⟨?_, fun h => ⟨_, expr e h⟩⟩, fun ls hne => ⟨?_, fun h => ⟨_, lines ls hne h⟩⟩,
    fun p => ⟨?_, fun h => ⟨_, program p h⟩⟩, expr, lines, program⟩
  · rintro ⟨source, h⟩
    obtain ⟨ts, hw, hd⟩ := Rule.derives_of_read (fun _ _ _ => wholeExpr_ok_iff) h
    exact hd.isOperand hw
  · rintro ⟨source, h⟩
    obtain ⟨ts, hw, hd⟩ := Rule.derives_of_read (fun _ _ _ => wholeLines_ok_iff) h
    exact hd.isStatement hw
  · rintro ⟨source, h⟩
    obtain ⟨ts, hw, hd⟩ := Rule.derives_of_read (fun _ _ _ => wholeProgram_ok_iff) h
    exact hd.wellFormed hw

end Scriptling
