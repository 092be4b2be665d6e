/-
  Scriptling.Proofs.Grammar.Viable — what has been read before an error can be completed.

  - `expr_blames`, `line_blames`, `definition_blames`: the rules of the grammar fail only after
    what begins something that they could have read.
  - `SyntaxError.At`: an error is about one lexeme of a text, or about its end.
  - `parse_error_viable`: source texts.
-/

import Scriptling.Proofs.Grammar.Blames

namespace Scriptling

namespace Grammar

open Rule

/-! ## The shortest of each kind -/

theorem nameable_x : Nameable "x" := by
  refine ⟨⟨_, _, rfl, rfl, by simp⟩, fun k => ?_⟩
  cases k <;> decide

theorem isExpr_true : IsExpr [.keyword .true_] (.bool true) := IsPrimary.boolTrue.isExpr

theorem isBlock_empty : IsBlock [.mark .openBrace, .mark .closeBrace] (.block []) := .braces .nil

theorem opens_expr : Opens IsExpr [] := ⟨_, _, by simp, isExpr_true⟩

theorem opens_primary : Opens IsPrimary [] := ⟨_, _, by simp, .boolTrue⟩

theorem opens_line : Opens (IsLine none) [] := ⟨_, _, by simp, .block isBlock_empty⟩

theorem opens_separated {α : Type} {D : List Token → α → Prop} {closing : Token} (hw : closing.Writable) :
    Opens (ClosedSeparated D closing) [] := ⟨[closing], [], by simpa using hw, [], rfl, .nothing⟩

/-! ## Expressions -/

section Primary

variable {expr : Rule Expr} (hgives : expr.Gives fun _ => IsExpr) (h : expr.Blames (Opens IsExpr))
include hgives h

theorem parenthesized_blames : (parenthesized expr).Blames (Opens IsParenthesized) := by
  have hopen {ts : List Token} (hts : Opens IsExpr ts) : Opens IsParenthesized (.mark .openParen :: ts) :=
    hts.within [.mark .openParen] [.mark .closeParen] (by simp) fun us e he => ⟨e, .parens he⟩
  refine Blames.expectThen (Opens.shorter [.mark .openParen] (by simp) (hopen opens_expr)) ?_
  refine Blames.bind (h.imp fun ts => hopen) hgives fun next ts e he => ?_
  exact Blames.expectThen (by simpa using hopen (opens_of_derives he)) (blames_pure e)

theorem call_blames (n : Nat) : (call expr n).Blames (Opens IsPrimary) := by
  have hargs : (separated (.mark .closeParen) expr n).Blames _ := h.separated (by simp) hgives n
  refine blames_nameThen opens_primary fun f => Blames.expectThen (opens_of_derives (.var f)) ?_
  refine Blames.bind (hargs.imp fun ts hts => ?_) (hgives.separated n) fun _ _ _ _ => blames_pure _
  refine hts.within [.identifier f, .mark .openParen] [] writable_nil fun us es hes => ?_
  obtain ⟨vs, rfl, hd⟩ := hes
  exact ⟨_, by simpa using IsPrimary.call hd⟩

theorem labelledArgument_blames : (labelledArgument expr).Blames (Opens IsArgument) := by
  have hopen (x : String) {ts : List Token} (hts : Opens IsExpr ts) :
      Opens IsArgument (.identifier x :: .mark .assign :: ts) :=
    hts.within [.identifier x, .mark .assign] [] writable_nil fun us e he => ⟨(x, e), by simpa using .label he⟩
  refine blames_nameThen ?_ fun x => Blames.expectThen ?_ ?_
  · exact Opens.shorter [.identifier "x", .mark .assign] (by simp [nameable_x]) (hopen "x" opens_expr)
  · exact Opens.shorter [.mark .assign] (by simp) (hopen x opens_expr)
  · exact Blames.bind (h.imp fun ts => hopen x) hgives fun _ _ _ _ => blames_pure _

theorem labelledCall_blames (n : Nat) : (labelledCall expr n).Blames (Opens IsPrimary) := by
  have hargs : (separated (.mark .closeBracket) (labelledArgument expr) n).Blames _ :=
    (labelledArgument_blames hgives h).separated (by simp) (labelledArgument_gives hgives) n
  refine blames_nameThen opens_primary fun f => Blames.expectThen (opens_of_derives (.var f)) ?_
  refine Blames.bind (hargs.imp fun ts hts => ?_) ((labelledArgument_gives hgives).separated n)
    fun _ _ _ _ => blames_pure _
  refine hts.within [.identifier f, .mark .openBracket] [] writable_nil fun us es hes => ?_
  obtain ⟨vs, rfl, hd⟩ := hes
  exact ⟨_, by simpa using IsPrimary.labelledCall hd⟩

theorem array_blames (n : Nat) : (array expr n).Blames (Opens IsPrimary) := by
  have hitems : (separated (.mark .closeBracket) expr n).Blames _ := h.separated (by simp) hgives n
  refine Blames.expectThen opens_primary ?_
  refine Blames.bind (hitems.imp fun ts hts => ?_) (hgives.separated n) fun _ _ _ _ => blames_pure _
  refine hts.within [.mark .openBracket] [] writable_nil fun us es hes => ?_
  obtain ⟨vs, rfl, hd⟩ := hes
  exact ⟨_, by simpa using IsPrimary.array hd⟩

theorem primary_blames (n : Nat) : (primary expr n).Blames (Opens IsPrimary) := by
  refine Blames.choice (fun rule hmem => ?_) opens_primary _
  simp only [List.mem_cons, List.not_mem_nil, or_false] at hmem
  rcases hmem with rfl | rfl | rfl | rfl | rfl | rfl | rfl
  · refine (parenthesized_blames hgives h).imp fun ts hts => ?_
    refine hts.within [] [] writable_nil fun us e he => ?_
    obtain ⟨hd⟩ := he
    exact ⟨e, by simpa using IsPrimary.group hd⟩
  · exact integer_blames opens_primary
  · exact call_blames hgives h n
  · exact labelledCall_blames hgives h n
  · exact array_blames hgives h n
  · exact boolean_blames opens_primary
  · exact blames_nameThen opens_primary fun x => blames_pure _

end Primary

theorem expr_blames (n : Nat) : (expr n).Blames (Opens IsExpr) := by
  induction n with
  | zero => exact blames_refuse _ opens_expr
  | succ n ih =>
    have hgives := expr_gives n
    -- A chain of one level is an operand of the next.
    have hlevel {accepted : Operator → Bool} {operators : List Operator} {D E : List Token → Expr → Prop}
        {operand : Rule Expr} (hop : ∀ op, accepted op = true ↔ op ∈ operators)
        (hoperand : operand.Gives fun _ => D) (h : operand.Blames (Opens D))
        (hE : ∀ ts e, IsChain operators D ts e → E ts e) : (chain accepted operand n).Blames (Opens E) :=
      (h.chain hop hoperand n).imp fun ts hts =>
        hts.within [] [] writable_nil fun us e he => ⟨e, by simpa using hE _ _ he⟩
    have hproductGives : (product (expr n) n).Gives fun _ => IsProduct :=
      ((primary_gives hgives n).chain Operator.isMultiplicative_iff n).imp fun _ _ _ => .chain
    have hproduct : (product (expr n) n).Blames (Opens IsProduct) :=
      hlevel Operator.isMultiplicative_iff (primary_gives hgives n) (primary_blames hgives ih n) fun _ _ => .chain
    have hsumGives : (sum (expr n) n).Gives fun _ => IsSum :=
      (hproductGives.chain Operator.isAdditive_iff n).imp fun _ _ _ => .chain
    have hsum : (sum (expr n) n).Blames (Opens IsSum) :=
      hlevel Operator.isAdditive_iff hproductGives hproduct fun _ _ => .chain
    exact hlevel Operator.isComparison_iff hsumGives hsum fun _ _ => .chain

/-! ## Lines -/

/-- What follows a line matters only if it is an `else`. -/
theorem IsLine.before {next next' : Option Token} (hnext : next' ≠ some (.keyword .else_)) {ts : List Token}
    {e : Expr} : IsLine next ts e → IsLine next' ts e
  | .println h => .println h
  | .whileDo hc hb => .whileDo hc (hb.before hnext)
  | .ifThen hc hb _ => .ifThen hc (hb.before hnext) hnext
  | .ifElse hc hb ho => .ifElse hc hb (ho.before hnext)
  | .forIn hf hb hl => .forIn hf hb (hl.before hnext)
  | .assign h => .assign h
  | .expr h => .expr h
  | .block h => .block h

theorem isLine_resumes : Resumes IsLine := ⟨fun h hnext => h.before hnext, IsLine.avoids_else⟩

section Line

variable {expr line : Rule Expr} (hexprGives : expr.Gives fun _ => IsExpr) (hexpr : expr.Blames (Opens IsExpr))
  (hlineGives : line.Gives IsLine) (hline : line.Blames (Opens (IsLine none)))

include hexprGives hexpr in
theorem printLine_blames : (printLine expr).Blames (Opens (IsLine none)) := by
  have hopen {ts : List Token} (hts : Opens IsParenthesized ts) : Opens (IsLine none) (.keyword .println_ :: ts) :=
    hts.within [.keyword .println_] [.mark .semicolon] (by simp) fun us e he => ⟨_, .println he⟩
  refine Blames.expectThen opens_line ?_
  refine Blames.bind ((parenthesized_blames hexprGives hexpr).imp fun ts => hopen)
    (parenthesized_gives hexprGives) fun next ts e he => ?_
  exact Blames.expectThen (by simpa using hopen (opens_of_derives he)) (blames_pure _)

include hexprGives hexpr hlineGives hline in
theorem whileLine_blames : (whileLine expr line).Blames (Opens (IsLine none)) := by
  refine Blames.expectThen opens_line ?_
  refine Blames.bind ((parenthesized_blames hexprGives hexpr).imp fun ts hts => ?_)
    (parenthesized_gives hexprGives) fun next ts c hc => ?_
  · exact hts.within [.keyword .while_] [.mark .openBrace, .mark .closeBrace] (by simp) fun us c hc =>
      ⟨_, .whileDo hc (.block isBlock_empty)⟩
  · refine Blames.bind (hline.imp fun us hus => ?_) hlineGives fun _ _ _ _ => blames_pure _
    exact hus.within (.keyword .while_ :: ts) [] writable_nil fun us b hb => ⟨_, by simpa using .whileDo hc hb⟩

include hexprGives hexpr hlineGives hline in
theorem ifLine_blames : (ifLine expr line).Blames (Opens (IsLine none)) := by
  refine Blames.expectThen opens_line ?_
  refine Blames.bind ((parenthesized_blames hexprGives hexpr).imp fun ts hts => ?_)
    (parenthesized_gives hexprGives) fun next ts c hc => ?_
  · exact hts.within [.keyword .if_] [.mark .openBrace, .mark .closeBrace] (by simp) fun us c hc =>
      ⟨_, .ifThen hc (.block isBlock_empty) nofun⟩
  · refine Blames.bindIfEat (hline.imp fun us hus => ?_) hlineGives (fun us b hb => ?_) fun _ _ _ _ => blames_pure _
    · exact hus.within (.keyword .if_ :: ts) [] writable_nil fun us b hb =>
        ⟨_, by simpa using .ifThen hc hb nofun⟩
    · refine Blames.bind (hline.imp fun vs hvs => ?_) hlineGives fun _ _ _ _ => blames_pure _
      have hopen := hvs.within (.keyword .if_ :: ts ++ us ++ [.keyword .else_]) [] writable_nil fun vs o ho =>
        ⟨_, by simpa using IsLine.ifElse hc hb ho⟩
      simpa using hopen

include hexprGives hexpr hlineGives hline in
theorem forLine_blames : (forLine expr line).Blames (Opens (IsLine none)) := by
  have hfirst (x : String) {ts : List Token} (hts : Opens IsExpr ts) :
      Opens (IsLine none) (.keyword .for_ :: .mark .openParen :: .identifier x :: .keyword .in_ :: ts) :=
    hts.within [.keyword .for_, .mark .openParen, .identifier x, .keyword .in_]
      [.keyword .to_, .keyword .true_, .mark .closeParen, .mark .openBrace, .mark .closeBrace] (by simp)
      fun us e he => ⟨_, by simpa using IsLine.forIn he isExpr_true (.block isBlock_empty)⟩
  have hbound (x : String) {ts us : List Token} {first : Expr} (hf : IsExpr ts first) (hus : Opens IsExpr us) :
      Opens (IsLine none)
        (.keyword .for_ :: .mark .openParen :: .identifier x :: .keyword .in_ :: (ts ++ .keyword .to_ :: us)) := by
    have hopen := hus.within (E := IsLine none)
      (.keyword .for_ :: .mark .openParen :: .identifier x :: .keyword .in_ :: (ts ++ [.keyword .to_]))
      [.mark .closeParen, .mark .openBrace, .mark .closeBrace] (by simp)
      fun us e he => ⟨_, by simpa using IsLine.forIn hf he (.block isBlock_empty)⟩
    simpa using hopen
  have hstart (x : String) := hfirst x opens_expr
  refine Blames.expectThen opens_line (Blames.expectThen ?_ (blames_nameThen ?_ fun x => Blames.expectThen ?_ ?_))
  · exact (hstart "x").shorter [.mark .openParen, .identifier "x", .keyword .in_] (by simp [nameable_x])
  · exact (hstart "x").shorter [.identifier "x", .keyword .in_] (by simp [nameable_x])
  · exact (hstart x).shorter [.keyword .in_] (by simp)
  refine Blames.bind (hexpr.imp fun ts => hfirst x) hexprGives fun next ts first hf => Blames.expectThen ?_ ?_
  · simpa using hfirst x (opens_of_derives hf)
  refine Blames.bind (hexpr.imp fun us => hbound x hf) hexprGives fun next us bound hb => Blames.expectThen ?_ ?_
  · simpa using hbound x hf (opens_of_derives hb)
  refine Blames.bind (hline.imp fun vs hvs => ?_) hlineGives fun _ _ _ _ => blames_pure _
  have hopen := hvs.within (.keyword .for_ :: .mark .openParen :: .identifier x :: .keyword .in_ ::
    (ts ++ .keyword .to_ :: (us ++ [.mark .closeParen]))) [] writable_nil fun vs b hl =>
      ⟨_, by simpa using IsLine.forIn hf hb hl⟩
  simpa using hopen

include hexprGives hexpr in
theorem assignLine_blames : (assignLine expr).Blames (Opens (IsLine none)) := by
  have hopen (x : String) {ts : List Token} (hts : Opens IsExpr ts) :
      Opens (IsLine none) (.identifier x :: .mark .assign :: ts) :=
    hts.within [.identifier x, .mark .assign] [.mark .semicolon] (by simp) fun us e he => ⟨_, .assign he⟩
  refine blames_nameThen opens_line fun x => Blames.expectThen ?_ ?_
  · exact (hopen x opens_expr).shorter [.mark .assign] (by simp)
  refine Blames.bind (hexpr.imp fun ts => hopen x) hexprGives fun next ts e he => ?_
  exact Blames.expectThen (by simpa using hopen x (opens_of_derives he)) (blames_pure _)

include hexprGives hexpr in
theorem exprLine_blames : (exprLine expr).Blames (Opens (IsLine none)) := by
  have hopen {ts : List Token} (hts : Opens IsExpr ts) : Opens (IsLine none) ts :=
    hts.within [] [.mark .semicolon] (by simp) fun us e he => ⟨_, .expr he⟩
  refine Blames.bind (hexpr.imp fun ts => hopen) hexprGives fun next ts e he => ?_
  exact Blames.expectThen (by simpa using hopen (opens_of_derives he)) (blames_pure _)

include hlineGives hline in
theorem block_blames (n : Nat) : (block line n).Blames (Opens IsBlock) := by
  refine Blames.expectThen ⟨_, _, by simp, isBlock_empty⟩ ?_
  refine Blames.bind ((enclosed_blames isLine_resumes (by simp) (by simp) hlineGives hline n []).imp fun ts hts => ?_)
    (enclosed_gives hlineGives n []) fun _ _ _ _ => blames_pure _
  refine hts.within [.mark .openBrace] [] writable_nil fun us es hes => ?_
  obtain ⟨vs, rfl, hs⟩ := hes
  exact ⟨_, by simpa using IsBlock.braces hs⟩

end Line

theorem line_blames (n : Nat) : (line n).Blames (Opens (IsLine none)) := by
  induction n with
  | zero => exact blames_refuse _ opens_line
  | succ n ih =>
    have hexprGives := expr_gives (n + 1)
    have hexpr := expr_blames (n + 1)
    have hlineGives := line_gives n
    refine Blames.choice (fun rule hmem => ?_) opens_line _
    simp only [List.mem_cons, List.not_mem_nil, or_false] at hmem
    rcases hmem with rfl | rfl | rfl | rfl | rfl | rfl | rfl
    · exact printLine_blames hexprGives hexpr
    · exact whileLine_blames hexprGives hexpr hlineGives ih
    · exact ifLine_blames hexprGives hexpr hlineGives ih
    · exact forLine_blames hexprGives hexpr hlineGives ih
    · exact assignLine_blames hexprGives hexpr
    · exact exprLine_blames hexprGives hexpr
    · exact (block_blames hlineGives ih n).imp fun ts hts =>
        hts.within [] [] writable_nil fun us e he => ⟨e, by simpa using .block he⟩

/-! ## Definitions -/

theorem opens_definition : Opens IsDefinition [] :=
  ⟨_, _, by simp [nameable_x], .global (x := "x") isExpr_true⟩

theorem definition_resumes : Resumes fun _ => IsDefinition where
  before h _ := h
  avoids _ ts d h := by cases h <;> exact ⟨_, _, rfl, by simp⟩

theorem globalDefinition_blames (n : Nat) : (globalDefinition (expr n)).Blames (Opens IsDefinition) := by
  have hopen (x : String) {ts : List Token} (hts : Opens IsExpr ts) :
      Opens IsDefinition (.keyword .global_ :: .identifier x :: .mark .assign :: ts) :=
    hts.within [.keyword .global_, .identifier x, .mark .assign] [.mark .semicolon] (by simp)
      fun us e he => ⟨_, .global he⟩
  refine Blames.expectThen opens_definition (blames_nameThen ?_ fun x => Blames.expectThen ?_ ?_)
  · exact (hopen "x" opens_expr).shorter [.identifier "x", .mark .assign] (by simp [nameable_x])
  · exact (hopen x opens_expr).shorter [.mark .assign] (by simp)
  refine Blames.bind ((expr_blames n).imp fun ts => hopen x) (expr_gives n) fun next ts e he => ?_
  exact Blames.expectThen (by simpa using hopen x (opens_of_derives he)) (blames_pure _)

theorem functionDefinition_blames (n : Nat) :
    (functionDefinition (block (line n) n) n).Blames (Opens IsDefinition) := by
  have hopen (f : String) {ts : List Token} (hts : Opens (ClosedSeparated IsName (.mark .closeParen)) ts) :
      Opens IsDefinition (.keyword .define_ :: .identifier f :: .mark .openParen :: ts) := by
    refine hts.within [.keyword .define_, .identifier f, .mark .openParen] [.mark .openBrace, .mark .closeBrace]
      (by simp) fun us params hp => ?_
    obtain ⟨vs, rfl, hp⟩ := hp
    exact ⟨_, by simpa using IsDefinition.function hp isBlock_empty⟩
  have hname : name.Blames (Opens IsName) := name_blames ⟨_, _, by simp [nameable_x], .identifier "x"⟩
  have hstart (f : String) := hopen f (opens_separated (by simp))
  refine Blames.expectThen opens_definition (blames_nameThen ?_ fun f => Blames.expectThen ?_ ?_)
  · exact (hstart "x").shorter [.identifier "x", .mark .openParen] (by simp [nameable_x])
  · exact (hstart f).shorter [.mark .openParen] (by simp)
  refine Blames.bind ((hname.separated (by simp) name_gives n).imp fun ts => hopen f) (name_gives.separated n)
    fun next ts params hp => ?_
  obtain ⟨us, rfl, hp⟩ := hp
  have hblock := block_blames (line_gives n) (line_blames n) n
  refine Blames.bind (hblock.imp fun vs hvs => ?_) (block_gives (line_gives n) n) fun _ _ _ _ => blames_pure _
  have hwhole := hvs.within
    (.keyword .define_ :: .identifier f :: .mark .openParen :: (us ++ [.mark .closeParen])) [] writable_nil
    fun vs b hb => ⟨_, by simpa using IsDefinition.function hp hb⟩
  simpa using hwhole

theorem definition_blames (n : Nat) : (definition n).Blames (Opens IsDefinition) := by
  refine Blames.choice (fun rule hmem => ?_) opens_definition _
  simp only [List.mem_cons, List.not_mem_nil, or_false] at hmem
  rcases hmem with rfl | rfl
  · exact globalDefinition_blames n
  · exact functionDefinition_blames n

/-! ## Whole texts -/

theorem wholeExpr_blames (n : Nat) : (wholeExpr n).Blames (Opens IsExpr) := by
  refine Blames.bind (expr_blames n) (expr_gives n) fun next ts e he => ?_
  have hend : expectEnd.Blames fun us => Opens IsExpr (ts ++ us) :=
    (blames_pure ()).ifAtEnd (blames_refuse _ (by simpa using opens_of_derives he))
  refine hend.bind (D := fun _ _ _ => True) ?_ fun _ _ _ _ => blames_pure e
  intro stop input u rest hu
  obtain ⟨read, rfl⟩ := hend.leaves hu
  exact ⟨tokens read, by simp, trivial⟩

theorem wholeLines_blames (n : Nat) : (wholeLines n).Blames (Opens IsText) := by
  have hnone : (none : Option Token) ≠ some (.keyword .else_) := nofun
  refine Blames.bind ((line_blames n).imp fun ts hts => ?_) (line_gives n) fun next ts e he => ?_
  · refine hts.within [] [] writable_nil fun us e he => ⟨[e], by simp, ?_⟩
    simpa using isLine_resumes.cons hnone he .nil
  · refine (untilEnd_blames isLine_resumes (line_gives n) (line_blames n) n [e]).imp fun us hus => ?_
    refine hus.within ts [] writable_nil fun us es hes => ⟨e :: es, by simp, ?_⟩
    simpa using isLine_resumes.cons hnone he hes

theorem wholeProgram_blames (n : Nat) : (wholeProgram n).Blames (Opens IsProgram) :=
  untilEnd_blames definition_resumes (definition_gives n) (definition_blames n) n []

end Grammar

/-! ## Source texts -/

/-- The error is about the lexeme with the index `k`: it says what was found there, and where this
    starts. After the last lexeme, it is about the end of the text. -/
def SyntaxError.At (e : SyntaxError) (source : String) (lexemes : List Lexeme) (k : Nat) : Prop :=
  (∃ x expected, lexemes[k]? = some x ∧
    e = ⟨.unexpected expected x.token.describe, Position.ofOffset source x.start⟩) ∨
  (∃ expected, k = lexemes.length ∧
    e = ⟨.endOfInput expected, Position.ofOffset source (byteSize source.toList)⟩)

def Accepts {α : Type} (parse : String → Except SyntaxError α) (ts : List Token) : Prop :=
  ∃ source lexemes a, Lexeme.scan source = .ok lexemes ∧ tokens lexemes.list = ts ∧ parse source = .ok a

/-- Some text whose tokens begin with these is parsed. -/
def Viable {α : Type} (parse : String → Except SyntaxError α) (ts : List Token) : Prop :=
  ∃ us, Accepts parse (ts ++ us)

theorem SyntaxError.at_mismatch {source : String} {lexemes : Lexemes} (scanned : Lexeme.scan source = .ok lexemes)
    {read left : List Lexeme} (h : lexemes.list = read ++ left) (expected : String) :
    (Rule.mismatch expected lexemes.stop left).At source lexemes.list read.length := by
  obtain ⟨hseg, hstop⟩ := Lexeme.scan_eq_ok_iff.mp scanned
  cases left with
  | nil => exact .inr ⟨expected, by simp [h], by rw [Rule.mismatch, hstop]⟩
  | cons x left =>
    obtain ⟨_, _, hstands, -⟩ := hseg.stands rfl (by simp [h] : x ∈ lexemes.list)
    exact .inl ⟨x, expected, by simp [h], by rw [Rule.mismatch, hstands.place]⟩

theorem SyntaxError.At.not_lexical {e : SyntaxError} {source : String} {lexemes : List Lexeme} {k : Nat}
    (h : e.At source lexemes k) (text : String) :
    e.fault ≠ .invalidCharacter text ∧ e.fault ≠ .literalTooLarge text := by
  rcases h with ⟨x, expected, -, rfl⟩ | ⟨expected, -, rfl⟩ <;> simp

section Read

variable {α : Type} {rule : Nat → Rule α} {D : List Token → α → Prop}
  (accepts : ∀ stop input a, (∃ rest, rule input.length stop input = .ok a rest) ↔ D (tokens input) a)

theorem Rule.fail_of_read {source : String} {lexemes : Lexemes} (scanned : Lexeme.scan source = .ok lexemes)
    {e : SyntaxError} (h : Rule.read rule source = .error e) :
    ∃ rest, rule lexemes.list.length lexemes.stop lexemes.list = .fail e rest := by
  simp only [Rule.read, scanned, bind, Except.bind] at h
  cases hr : rule lexemes.list.length lexemes.stop lexemes.list with
  | ok a rest =>
    rw [hr] at h
    cases h
  | fail e' rest =>
    rw [hr] at h
    cases h
    exact ⟨rest, rfl⟩

include accepts in
theorem viable_of_opens {ts : List Token} (hw : Writable ts) (h : Grammar.Opens D ts) :
    Viable (Rule.read rule) ts := by
  obtain ⟨us, a, hus, hd⟩ := h
  obtain ⟨lexemes, hscan, hts⟩ := Lexeme.scan_textOf (writable_append.mpr ⟨hw, hus⟩)
  exact ⟨us, _, lexemes, a, hscan, hts, Rule.read_textOf accepts (writable_append.mpr ⟨hw, hus⟩) hd⟩

include accepts in
theorem Rule.read_viable (hblames : ∀ n, (rule n).Blames (Grammar.Opens D)) {source : String} {lexemes : Lexemes}
    (scanned : Lexeme.scan source = .ok lexemes) {e : SyntaxError} (h : Rule.read rule source = .error e) :
    ∃ k, e.At source lexemes.list k ∧ Viable (Rule.read rule) ((tokens lexemes.list).take k) := by
  obtain ⟨rest, hfail⟩ := Rule.fail_of_read scanned h
  obtain ⟨read, left, expected, hinput, hopens, rfl⟩ := (hblames _).blames hfail
  have hw := Lexeme.writable_of_scan scanned
  refine ⟨read.length, SyntaxError.at_mismatch scanned hinput expected, ?_⟩
  rw [hinput, tokens_append, writable_append] at hw
  rw [hinput, tokens_append, List.take_left' (length_tokens read)]
  exact viable_of_opens accepts hw.1 hopens

end Read

open Grammar in
/-- An error of the parser stands where a token of the text starts or where the text ends, says what
    is found there, and comes after tokens that begin a text without errors. -/
theorem parse_error_viable {source : String} {lexemes : Lexemes} (scanned : Lexeme.scan source = .ok lexemes) :
    (∀ e, Expr.parse source = .error e →
      ∃ k, e.At source lexemes.list k ∧ Viable Expr.parse ((tokens lexemes.list).take k)) ∧
    (∀ e, Expr.parseLines source = .error e →
      ∃ k, e.At source lexemes.list k ∧ Viable Expr.parseLines ((tokens lexemes.list).take k)) ∧
    (∀ e, Program.parse source = .error e →
      ∃ k, e.At source lexemes.list k ∧ Viable Program.parse ((tokens lexemes.list).take k)) ∧
    (∀ e, Expr.parse source = .error e ∨ Expr.parseLines source = .error e ∨ Program.parse source = .error e →
      ∀ text, e.fault ≠ .invalidCharacter text ∧ e.fault ≠ .literalTooLarge text) := by
  have expr (e : SyntaxError) := Rule.read_viable (fun _ _ _ => wholeExpr_ok_iff) wholeExpr_blames scanned (e := e)
  have lines (e : SyntaxError) := Rule.read_viable (fun _ _ _ => wholeLines_ok_iff) wholeLines_blames scanned (e := e)
  have program (e : SyntaxError) :=
    Rule.read_viable (fun _ _ _ => wholeProgram_ok_iff) wholeProgram_blames scanned (e := e)
  refine ⟨expr, lines, program, fun e he => ?_⟩
  rcases he with he | he | he
  · obtain ⟨k, hat, -⟩ := expr e he
    exact hat.not_lexical
  · obtain ⟨k, hat, -⟩ := lines e he
    exact hat.not_lexical
  · obtain ⟨k, hat, -⟩ := program e he
    exact hat.not_lexical

def errorOf? {ε α : Type} : Except ε α → Option ε
  | .ok _ => none
  | .error e => some e

theorem eq_error_of_errorOf? {ε α : Type} {x : Except ε α} {e : ε} (h : errorOf? x = some e) : x = .error e := by
  cases x with
  | ok a => cases h
  | error e' => exact congrArg Except.error (Option.some.inj h)

def missingOperand : String := "while (x < 9) \x7b x = f[n = 1]; // next\n  y = (x + ; \x7d"

/-- The error is at the semicolon, and all before it could go on. -/
theorem parse_error_viable_missingOperand : ∃ lexemes k,
    Lexeme.scan missingOperand = .ok lexemes ∧
      Expr.parseLines missingOperand = .error ⟨.unexpected "expression" "';'", ⟨2, 12⟩⟩ ∧
      SyntaxError.At ⟨.unexpected "expression" "';'", ⟨2, 12⟩⟩ missingOperand lexemes.list k ∧
      Viable Expr.parseLines ((tokens lexemes.list).take k) := by
  obtain ⟨lexemes, scanned⟩ := scan_of_isOk (by decide +kernel : (Lexeme.scan missingOperand).isOk = true)
  have herror : Expr.parseLines missingOperand = .error ⟨.unexpected "expression" "';'", ⟨2, 12⟩⟩ :=
    eq_error_of_errorOf? (by decide +kernel)
  obtain ⟨k, hat, hviable⟩ := (parse_error_viable scanned).2.1 _ herror
  exact ⟨lexemes, k, scanned, herror, hat, hviable⟩

end Scriptling
