/-
  Scriptling.Proofs.Value.RoundTrip — printed values are expressions for themselves.

  A text `ScansAs` some tokens before what comes after it. An integer or a word does so only if what
  comes after does not go on with it: in a printed array that is a comma or a bracket.
  - `Value.Literal.scansAs`: what is printed for a literal value are the tokens of its expression.
  - `render_round_trip`: so it is parsed as an expression that has this value and changes nothing.
-/

import Scriptling.Session
import Scriptling.Proofs.Grammar.Image
import Scriptling.Proofs.Lexeme.Joined
import Scriptling.Proofs.Value.Expression

namespace Scriptling

/-! ## Texts before other texts -/

/-- Before `after`, the text is made of the tokens and of what is left out between them. -/
def ScansAs (after text : List Char) (ts : List Token) : Prop :=
  ∀ before, ∃ lexemes, Segmented after before (text ++ after) lexemes ∧ tokens lexemes = ts

def EndsWord (after : List Char) : Prop := ∀ d, after.head? = some d → continuesWord d = false

section ScansAs

variable {after : List Char}

theorem ScansAs.nil : ScansAs after [] [] := fun _ => ⟨[], .stop, rfl⟩

/-- Texts one after the other, of which the first is looked at before the second. -/
theorem ScansAs.append {text text' : List Char} {ts ts' : List Token} (h : ScansAs (text' ++ after) text ts)
    (h' : ScansAs after text' ts') : ScansAs after (text ++ text') (ts ++ ts') := by
  intro before
  obtain ⟨lexemes, hseg, rfl⟩ := h before
  obtain ⟨lexemes', hseg', rfl⟩ := h' (before ++ text)
  refine ⟨lexemes ++ lexemes', ?_, List.map_append⟩
  rw [List.append_assoc]
  exact hseg.append rfl hseg'

theorem IsPiece.scansAs {text : List Char} {t : Token} (h : IsPiece (.token t) text after) : ScansAs after text [t] :=
  fun _ => ⟨_, .token h .stop, rfl⟩

theorem scansAs_blank {c : Char} (hc : isBlank c = true) : ScansAs after [c] [] := fun _ =>
  ⟨[], .blank (.blank (isBlank_iff.mp hc)) .stop, rfl⟩

/-- A sign that is not the first character of a longer one or of a comment. -/
theorem scansAs_sign {c : Char} {t : Token} (hsingle : singleToken? c = some t) (hpair : pairToken? c = none)
    (hslash : c ≠ '/') : ScansAs after [c] [t] := by
  obtain ⟨-, hdigit, hword⟩ := of_sign (.inl (Option.isSome_of_eq_some hsingle))
  refine (Piece.isPiece_single hdigit hword (fun h => hslash h.1) ?_ hsingle).scansAs
  intro t' more ht'
  rw [hpair] at ht'
  cases ht'

variable (hafter : EndsWord after)
include hafter

theorem scansAs_integer {n : Nat} (hn : n ≤ maxInteger) : ScansAs after (Nat.toDigits 10 n) [.integer n] := by
  have hdigits : IsDigits (Nat.toDigits 10 n) :=
    ⟨Nat.toDigits_ne_nil, fun c hc => Nat.isDigit_of_mem_toDigits (by decide) (by decide) hc⟩
  have hpiece := Piece.isPiece_integer hdigits fun d hd => (Bool.or_eq_false_iff.mp (hafter d hd)).2
  rw [Piece.integer, Nat.ofDigitChars_ten_toDigits, if_pos hn] at hpiece
  exact hpiece.scansAs

/-- A keyword or a name. -/
theorem scansAs_word {t : Token} (ht : t.Writable) (hword : IsWord t.spelling.toList) :
    ScansAs after t.spelling.toList [t] := by
  obtain ⟨c, more, heq, hc, -⟩ := hword
  have hspells := ht.spells
  rw [heq] at hspells ⊢
  have hlongest : Longest (c :: more) after :=
    longest_of_ends (of_beginsWord hc).2.2 (fun _ => IsTokenText.of_word hc) hafter
  exact (IsPiece.token hspells hlongest).scansAs

theorem scansAs_keyword (k : Keyword) : ScansAs after k.spelling.toList [.keyword k] := by
  have hword : IsWord k.spelling.toList := by
    cases k <;> exact ⟨_, _, rfl, by decide, List.all_eq_true.mp rfl⟩
  exact scansAs_word hafter (t := .keyword k) trivial hword

end ScansAs

/-! ## Printed values -/

theorem endsWord_cons {c : Char} {more : List Char} (h : continuesWord c = false) : EndsWord (c :: more) := by
  intro d hd
  cases hd
  exact h

namespace Value

/-- Items with a comma and a space between them. -/
theorem scansAs_items {items : List Value}
    (h : ∀ v ∈ items, ∀ after, EndsWord after → ScansAs after v.render.toList v.expr.operandTokens)
    {after : List Char} (hafter : EndsWord after) :
    ScansAs after (", ".intercalate (renderItems items)).toList (commaSeparated (itemTokens (exprs items))) := by
  rw [String.toList_intercalate]
  induction items with
  | nil => exact .nil
  | cons v vs ih =>
    have hv := h v (List.mem_cons_self ..)
    have hvs := ih fun w hw => h w (List.mem_cons_of_mem _ hw)
    cases vs with
    | nil => simpa [renderItems, exprs, itemTokens, commaSeparated] using hv after hafter
    | cons w ws =>
      have hcomma {rest : List Char} : ScansAs rest (", ".toList) [.mark .comma] :=
        (scansAs_sign rfl rfl (by decide)).append (scansAs_blank rfl)
      have hall := (hv _ (endsWord_cons rfl)).append (hcomma.append hvs)
      simpa [renderItems, exprs, itemTokens, commaSeparated] using hall

/-- What is printed for a literal value are the tokens of the expression for it. -/
theorem Literal.scansAs {v : Value} (h : v.Literal) {after : List Char} (hafter : EndsWord after) :
    ScansAs after v.render.toList v.expr.operandTokens := by
  induction h generalizing after with
  | @int n hn =>
    have htext : (toString (n : Int)).toList = Nat.toDigits 10 n := by
      rw [Int.toString_eq_repr, Int.repr_eq_if, if_pos (Int.natCast_nonneg n), Int.toNat_natCast, Nat.toList_repr]
    rw [Value.render, htext]
    exact scansAs_integer hafter hn
  | bool b =>
    cases b with
    | false => exact scansAs_keyword hafter .false_
    | true => exact scansAs_keyword hafter .true_
  | @array items _ ih =>
    -- The closing bracket ends the last item, and no item looks at what is before it.
    have hopen {rest : List Char} : ScansAs rest ['['] [.mark .openBracket] := scansAs_sign rfl rfl (by decide)
    have hclose : ScansAs after [']'] [.mark .closeBracket] := scansAs_sign rfl rfl (by decide)
    have hbracket : EndsWord (']' :: after) := endsWord_cons rfl
    have hitems := scansAs_items (fun v hv after hafter => ih v hv hafter) hbracket
    have hall := hopen.append (hitems.append hclose)
    simpa [Value.render, expr, Expr.operandTokens] using hall

/-- What is printed for a literal value is parsed as the expression for it. -/
theorem Literal.parse_render {v : Value} (h : v.Literal) : Expr.parse v.render = .ok v.expr := by
  have hends : EndsWord [] := fun _ hd => by cases hd
  obtain ⟨lexemes, hseg, htokens⟩ := h.scansAs hends []
  rw [List.append_nil] at hseg
  refine (Rule.read_eq_ok_iff (Lexeme.scan_eq_ok hseg)).mpr (Grammar.wholeExpr_ok_iff.mpr ?_)
  rw [htokens]
  exact (Grammar.operandTokens_derives h.ordinary.isOperand).2.isExpr

end Value

/-- What is printed for a value of integers that can be written, truth values and arrays is parsed as an
    expression. In every session, and in any frame of any machine, this expression has the value, prints
    nothing and leaves everything as it is. -/
theorem render_round_trip {v : Value} (literal : v.Literal) :
    ∃ e, Expr.parse v.render = .ok e ∧ ∀ fuel, e.height ≤ fuel →
      (∀ functions frame m, eval functions fuel frame e m = .done v m) ∧
        ∀ session, Session.runExpr fuel e session = .done v session := by
  refine ⟨v.expr, literal.parse_render, fun fuel hfuel => ⟨fun functions frame m => ?_, fun session => ?_⟩⟩
  · exact literal.eval_expr hfuel
  · obtain ⟨functions, m⟩ := session
    simp only [Session.runExpr, Session.evaluating, literal.eval_expr hfuel]

def Value.nested : Value := .array [.array [], .int maxInteger, .array [.bool true, .int 0]]

theorem render_round_trip_nested :
    Value.nested.render = "[[], 9223372036854775807, [true, 0]]" ∧
      ∃ e, Expr.parse "[[], 9223372036854775807, [true, 0]]" = .ok e ∧
        ∀ session, Session.runExpr e.height e session = .done .nested session := by
  have hrender : Value.nested.render = "[[], 9223372036854775807, [true, 0]]" := by decide +kernel
  have hliteral : Value.nested.Literal := by
    refine .array fun v hv => ?_
    simp only [List.mem_cons, List.not_mem_nil, or_false] at hv
    rcases hv with rfl | rfl | rfl
    · exact .array fun v hv => by cases hv
    · exact .int (Nat.le_refl _)
    · refine .array fun v hv => ?_
      simp only [List.mem_cons, List.not_mem_nil, or_false] at hv
      rcases hv with rfl | rfl
      · exact .bool true
      · exact .int (n := 0) (Nat.zero_le _)
  obtain ⟨e, hparse, hrun⟩ := render_round_trip hliteral
  rw [hrender] at hparse
  exact ⟨hrender, e, hparse, (hrun e.height (Nat.le_refl _)).2⟩

end Scriptling
