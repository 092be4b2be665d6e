/-
  Scriptling.Proofs.Grammar.Sound — what the rules read can be derived.

  A rule `Gives` a relation if all that it reads as a value stands in this relation to the value.
  - One lemma for each way of putting rules together: `Gives.chain`, `Gives.separated`,
    `Gives.enclosed`.
  - `expr_gives`, `line_gives`, `definition_gives`: the rules of the grammar give its derivations.
-/

import Scriptling.Proofs.Grammar.Derivation
import Scriptling.Proofs.Grammar.Reading

namespace Scriptling

/-! ## The operators of each level -/

namespace Operator

theorem isComparison_iff (op : Operator) :
    op.isComparison = true ↔ op ∈ [less, lessOrEqual, greater, greaterOrEqual, equal, notEqual] := by
  cases op <;> decide

theorem isAdditive_iff (op : Operator) : op.isAdditive = true ↔ op ∈ [add, subtract] := by
  cases op <;> decide

theorem isMultiplicative_iff (op : Operator) : op.isMultiplicative = true ↔ op ∈ [multiply, divide] := by
  cases op <;> decide

end Operator

namespace Rule

variable {α : Type}

/-- The tokens that the rule reads as a value, before the token `next`, stand in the relation `D`
    to the value. -/
def Gives (rule : Rule α) (D : Option Token → List Token → α → Prop) : Prop :=
  ∀ stop input a rest, rule stop input = .ok a rest →
    ∃ ts, tokens input = ts ++ tokens rest ∧ D (tokens rest).head? ts a

theorem Gives.imp {rule : Rule α} {D E : Option Token → List Token → α → Prop} (h : rule.Gives D)
    (hDE : ∀ next ts a, D next ts a → E next ts a) : rule.Gives E := by
  intro stop input a rest ha
  obtain ⟨ts, hts, hd⟩ := h stop input a rest ha
  exact ⟨ts, hts, hDE _ _ _ hd⟩

theorem Gives.choice {rules : List (Rule α)} {D : Option Token → List Token → α → Prop}
    (h : ∀ rule ∈ rules, rule.Gives D) (expected : String) : (choice expected rules).Gives D := by
  intro stop input a rest ha
  obtain ⟨rule, hmem, hr⟩ := mem_of_choice ha
  exact h rule hmem stop input a rest hr

/-! ## Repetition -/

section Chain

variable {accepted : Operator → Bool} {operators : List Operator} {operand : Rule Expr}
  {D : List Token → Expr → Prop}

/-- The chain read so far grows on the right by an operator and an operand. -/
theorem chainFrom_gives (hlevel : ∀ op, accepted op = true ↔ op ∈ operators) (h : operand.Gives fun _ => D)
    {ts : List Token} {left : Expr} (hl : Grammar.IsChain operators D ts left) (n : Nat) :
    (chainFrom accepted operand n left).Gives fun _ us e => Grammar.IsChain operators D (ts ++ us) e := by
  induction n generalizing ts left with
  | zero =>
    intro stop input e rest he
    obtain ⟨rfl, rfl⟩ := pure_eq_ok_iff.mp he
    exact ⟨[], rfl, by simpa using hl⟩
  | succ n ih =>
    intro stop input e rest he
    -- Three of the four branches read nothing more: no token, no operator, none of this level.
    have stay (hs : (pure left : Rule Expr) stop input = .ok e rest) :
        ∃ us, tokens input = us ++ tokens rest ∧ Grammar.IsChain operators D (ts ++ us) e := by
      obtain ⟨rfl, rfl⟩ := pure_eq_ok_iff.mp hs
      exact ⟨[], rfl, by simpa using hl⟩
    cases input with
    | nil => exact stay he
    | cons lexeme more =>
      simp only [chainFrom, bind_apply, peek, List.head?_cons, Option.map_some, Option.bind_some] at he
      cases hop : lexeme.token.operator? with
      | none => exact stay (by simpa only [hop] using he)
      | some op =>
        simp only [hop] at he
        split at he
        · rename_i hacc
          simp only [advance, bind_apply, List.head?_cons, Option.map_some, List.tail_cons] at he
          have ht : lexeme.token = .operator op := by
            cases hl : lexeme.token <;> simp_all [Token.operator?]
          split at he
          · rename_i right mid hr
            obtain ⟨us, hus, hright⟩ := h stop more right mid hr
            obtain ⟨vs, hvs, hchain⟩ := ih (hl.more ((hlevel op).mp hacc) hright) stop mid e rest he
            refine ⟨.operator op :: us ++ vs, ?_, ?_⟩
            · rw [tokens_cons, ht, hus, hvs]
              simp
            · simpa using hchain
          · cases he
        · exact stay he

theorem Gives.chain (h : operand.Gives fun _ => D) (hlevel : ∀ op, accepted op = true ↔ op ∈ operators) (n : Nat) :
    (chain accepted operand n).Gives fun _ => Grammar.IsChain operators D := by
  intro stop input e rest he
  obtain ⟨left, mid, hleft, hrest⟩ := bind_eq_ok_iff.mp he
  obtain ⟨ts, hts, hd⟩ := h stop input left mid hleft
  obtain ⟨us, hus, hc⟩ := chainFrom_gives hlevel h (.single hd) n stop mid e rest hrest
  exact ⟨ts ++ us, by rw [hts, hus, List.append_assoc], hc⟩

end Chain

section Separated

variable {closing : Token} {item : Rule α} {D : List Token → α → Prop}

/-- After an item, a comma asks for more of them and the closing token ends them. -/
theorem separatedFrom_gives (h : item.Gives fun _ => D) (n : Nat) (found : List α) :
    (separatedFrom closing item n found).Gives fun _ ts as =>
      ∃ us bs, ts = us ++ [closing] ∧ as = found.reverse ++ bs ∧ Grammar.IsItems D us bs := by
  have finish {a : α} {mid input rest : List Lexeme} {as : List α} {us : List Token} {found : List α}
      (hus : tokens input = us ++ tokens mid) (hd : D us a) {stop : Position}
      (hend : (do if ← eat closing then pure (a :: found).reverse
                  else refuse ("',' or " ++ closing.describe) : Rule (List α)) stop mid = .ok as rest) :
      ∃ ts, tokens input = ts ++ tokens rest ∧
        ∃ us bs, ts = us ++ [closing] ∧ as = found.reverse ++ bs ∧ Grammar.IsItems D us bs := by
    obtain ⟨ate, after, hate, hclosed⟩ := bind_eq_ok_iff.mp hend
    rcases tokens_of_eat hate with ⟨rfl, hclose⟩ | ⟨rfl, rfl, -⟩
    · obtain ⟨rfl, rfl⟩ := pure_eq_ok_iff.mp hclosed
      exact ⟨us ++ [closing], by rw [hus, hclose]; simp, us, [a], rfl, by simp, .last hd⟩
    · cases hclosed
  induction n generalizing found with
  | zero =>
    intro stop input as rest has
    obtain ⟨a, mid, ha, hend⟩ := bind_eq_ok_iff.mp has
    obtain ⟨us, hus, hd⟩ := h stop input a mid ha
    exact finish hus hd hend
  | succ n ih =>
    intro stop input as rest has
    obtain ⟨a, mid, ha, hend⟩ := bind_eq_ok_iff.mp has
    obtain ⟨us, hus, hd⟩ := h stop input a mid ha
    obtain ⟨ate, after, hate, hmore⟩ := bind_eq_ok_iff.mp hend
    rcases tokens_of_eat hate with ⟨rfl, hcomma⟩ | ⟨rfl, rfl, -⟩
    · obtain ⟨ts, hts, vs, bs, rfl, rfl, hitems⟩ := ih (a :: found) stop after as rest hmore
      refine ⟨us ++ .mark .comma :: vs ++ [closing], ?_, _, a :: bs, rfl, by simp, .more hd hitems⟩
      rw [hus, hcomma, hts]
      simp
    · exact finish hus hd hmore

theorem Gives.separated (h : item.Gives fun _ => D) (n : Nat) :
    (separated closing item n).Gives fun _ ts as =>
      ∃ us, ts = us ++ [closing] ∧ Grammar.IsSeparated D us as := by
  intro stop input as rest has
  obtain ⟨ate, after, hate, hend⟩ := bind_eq_ok_iff.mp has
  rcases tokens_of_eat hate with ⟨rfl, hclose⟩ | ⟨rfl, rfl, -⟩
  · obtain ⟨rfl, rfl⟩ := pure_eq_ok_iff.mp hend
    exact ⟨[closing], by rw [hclose]; rfl, [], rfl, .nothing⟩
  · obtain ⟨ts, hts, us, bs, rfl, rfl, hitems⟩ := separatedFrom_gives h n [] stop after as rest hend
    exact ⟨_, hts, us, rfl, .items hitems⟩

end Separated

section Sequence

variable {closing : Token} {item : Rule α} {D : Option Token → List Token → α → Prop}

/-- Before the end of the text, an item is read and then what follows it. -/
theorem of_not_atEnd {β : Type} {whenDone : Rule β} {f : α → Rule β} {stop : Position}
    {input rest : List Lexeme} {b : β}
    (h : (do if ← atEnd then whenDone else item >>= f : Rule β) stop input = .ok b rest) :
    (input = [] ∧ whenDone stop input = .ok b rest) ∨
      ∃ a mid, item stop input = .ok a mid ∧ f a stop mid = .ok b rest := by
  cases input with
  | nil => exact .inl ⟨rfl, h⟩
  | cons lexeme more => exact .inr (bind_eq_ok_iff.mp h)

theorem enclosed_gives (h : item.Gives D) (n : Nat) (found : List α) :
    (enclosed closing item n found).Gives fun _ ts as =>
      ∃ us bs, ts = us ++ [closing] ∧ as = found.reverse ++ bs ∧
        Grammar.IsSequence D (some closing) us bs := by
  induction n generalizing found with
  | zero =>
    intro stop input as rest has
    obtain ⟨ate, mid, hate, hend⟩ := bind_eq_ok_iff.mp has
    rcases tokens_of_eat hate with ⟨rfl, hclose⟩ | ⟨rfl, rfl, -⟩
    · obtain ⟨rfl, rfl⟩ := pure_eq_ok_iff.mp hend
      exact ⟨[closing], hclose, [], [], rfl, by simp, .nil⟩
    · cases hend
  | succ n ih =>
    intro stop input as rest has
    obtain ⟨ate, mid, hate, hend⟩ := bind_eq_ok_iff.mp has
    rcases tokens_of_eat hate with ⟨rfl, hclose⟩ | ⟨rfl, rfl, -⟩
    · obtain ⟨rfl, rfl⟩ := pure_eq_ok_iff.mp hend
      exact ⟨[closing], hclose, [], [], rfl, by simp, .nil⟩
    · rcases of_not_atEnd hend with ⟨-, hrefused⟩ | ⟨a, next, ha, hmore⟩
      · cases hrefused
      obtain ⟨ts, hts, hd⟩ := h _ _ _ _ ha
      -- What follows the item is the next one, or the closing token after the last.
      obtain ⟨_, hvs, us, bs, rfl, rfl, hseq⟩ := ih (a :: found) _ _ _ _ hmore
      rw [hvs, List.append_assoc, List.head?_append] at hd
      refine ⟨ts ++ us ++ [closing], ?_, ts ++ us, a :: bs, rfl, by simp, .cons hd hseq⟩
      rw [hts, hvs]
      simp

/-- At the end of the text nothing is left; before it, one round more reads an item. -/
theorem untilEnd_gives (h : item.Gives D) (progress : ∀ next a, ¬ D next [] a) (n : Nat) (found : List α)
    {stop : Position} {input rest : List Lexeme} {as : List α} (enough : input.length ≤ n)
    (has : untilEnd item n found stop input = .ok as rest) :
    ∃ bs, as = found.reverse ++ bs ∧ Grammar.IsSequence D none (tokens input) bs := by
  induction n generalizing found input with
  | zero =>
    obtain ⟨rfl, rfl⟩ := pure_eq_ok_iff.mp has
    rw [List.length_eq_zero_iff.mp (Nat.le_zero.mp enough)]
    exact ⟨[], by simp, .nil⟩
  | succ n ih =>
    rcases of_not_atEnd has with ⟨rfl, hdone⟩ | ⟨a, mid, ha, hmore⟩
    · obtain ⟨rfl, rfl⟩ := pure_eq_ok_iff.mp hdone
      exact ⟨[], by simp, .nil⟩
    · obtain ⟨ts, hts, hd⟩ := h _ _ _ _ ha
      have hlen : mid.length ≤ n := by
        have hpos : 0 < ts.length := by
          cases ts with
          | nil => exact absurd hd (progress _ _)
          | cons t ts => simp
        have hsum := congrArg List.length hts
        simp only [length_tokens, List.length_append] at hsum
        omega
      obtain ⟨bs, rfl, hseq⟩ := ih (a :: found) hlen hmore
      refine ⟨a :: bs, by simp, ?_⟩
      rw [hts]
      refine .cons ?_ hseq
      simpa [Grammar.after] using hd

end Sequence

end Rule

namespace Grammar

open Rule

/-! ## Expressions -/

section Primary

variable {expr : Rule Expr} (h : expr.Gives fun _ => IsExpr)
include h

theorem parenthesized_gives : (parenthesized expr).Gives fun _ => IsParenthesized := by
  intro stop input e rest he
  simp only [parenthesized, bind_eq_ok_iff, pure_eq_ok_iff] at he
  obtain ⟨_, i, hopen, e, j, hexpr, _, k, hclose, rfl, rfl⟩ := he
  obtain ⟨ts, hts, hd⟩ := h _ _ _ _ hexpr
  refine ⟨_, ?_, .parens hd⟩
  rw [tokens_of_expect hopen, hts, tokens_of_expect hclose]
  simp

theorem call_gives (n : Nat) : (call expr n).Gives fun _ => IsPrimary := by
  intro stop input e rest he
  simp only [call, bind_eq_ok_iff, pure_eq_ok_iff] at he
  obtain ⟨f, i, hname, _, j, hopen, es, k, hargs, rfl, rfl⟩ := he
  obtain ⟨_, hts, us, rfl, hd⟩ := h.separated n _ _ _ _ hargs
  refine ⟨_, ?_, .call hd⟩
  rw [tokens_of_name hname, tokens_of_expect hopen, hts]
  simp

theorem labelledArgument_gives : (labelledArgument expr).Gives fun _ => IsArgument := by
  intro stop input e rest he
  simp only [labelledArgument, bind_eq_ok_iff, pure_eq_ok_iff] at he
  obtain ⟨x, i, hname, _, j, hassign, e, k, hexpr, rfl, rfl⟩ := he
  obtain ⟨ts, hts, hd⟩ := h _ _ _ _ hexpr
  refine ⟨_, ?_, .label hd⟩
  rw [tokens_of_name hname, tokens_of_expect hassign, hts]
  simp

theorem labelledCall_gives (n : Nat) : (labelledCall expr n).Gives fun _ => IsPrimary := by
  intro stop input e rest he
  simp only [labelledCall, bind_eq_ok_iff, pure_eq_ok_iff] at he
  obtain ⟨f, i, hname, _, j, hopen, es, k, hargs, rfl, rfl⟩ := he
  obtain ⟨_, hts, us, rfl, hd⟩ := (labelledArgument_gives h).separated n _ _ _ _ hargs
  refine ⟨_, ?_, .labelledCall hd⟩
  rw [tokens_of_name hname, tokens_of_expect hopen, hts]
  simp

theorem array_gives (n : Nat) : (array expr n).Gives fun _ => IsPrimary := by
  intro stop input e rest he
  simp only [array, bind_eq_ok_iff, pure_eq_ok_iff] at he
  obtain ⟨_, i, hopen, es, j, hitems, rfl, rfl⟩ := he
  obtain ⟨_, hts, us, rfl, hd⟩ := h.separated n _ _ _ _ hitems
  refine ⟨_, ?_, .array hd⟩
  rw [tokens_of_expect hopen, hts]
  simp

theorem primary_gives (n : Nat) : (primary expr n).Gives fun _ => IsPrimary := by
  apply Gives.choice
  intro rule hmem
  simp only [List.mem_cons, List.not_mem_nil, or_false] at hmem
  rcases hmem with rfl | rfl | rfl | rfl | rfl | rfl | rfl
  · intro stop input e rest he
    obtain ⟨ts, hts, ⟨hd⟩⟩ := parenthesized_gives h _ _ _ _ he
    exact ⟨_, hts, .group hd⟩
  · intro stop input e rest he
    obtain ⟨t, ht, hi⟩ := integer_picks.tokens_of_ok he
    refine ⟨[t], hi, ?_⟩
    cases t <;> cases ht
    exact .integer _
  · exact call_gives h n
  · exact labelledCall_gives h n
  · exact array_gives h n
  · intro stop input e rest he
    obtain ⟨t, ht, hi⟩ := boolean_picks.tokens_of_ok he
    refine ⟨[t], hi, ?_⟩
    cases t with
    | keyword k => cases k <;> cases ht <;> constructor
    | identifier | integer | operator | mark => cases ht
  · intro stop input e rest he
    simp only [reference, bind_eq_ok_iff, pure_eq_ok_iff] at he
    obtain ⟨x, i, hname, rfl, rfl⟩ := he
    exact ⟨_, tokens_of_name hname, .var x⟩

end Primary

theorem expr_gives (n : Nat) : (expr n).Gives fun _ => IsExpr := by
  induction n with
  | zero =>
    intro stop input e rest he
    cases he
  | succ n ih =>
    have hproduct : (product (expr n) n).Gives fun _ => IsProduct :=
      ((primary_gives ih n).chain Operator.isMultiplicative_iff n).imp fun _ _ _ => .chain
    have hsum : (sum (expr n) n).Gives fun _ => IsSum :=
      (hproduct.chain Operator.isAdditive_iff n).imp fun _ _ _ => .chain
    exact (hsum.chain Operator.isComparison_iff n).imp fun _ _ _ => .chain

/-! ## Lines -/

section Line

variable {expr line : Rule Expr} (hexpr : expr.Gives fun _ => IsExpr) (hline : line.Gives IsLine)

include hexpr in
theorem printLine_gives : (printLine expr).Gives IsLine := by
  intro stop input e rest he
  simp only [printLine, bind_eq_ok_iff, pure_eq_ok_iff] at he
  obtain ⟨_, i, hkey, e, j, harg, _, k, hend, rfl, rfl⟩ := he
  obtain ⟨ts, hts, hd⟩ := parenthesized_gives hexpr _ _ _ _ harg
  refine ⟨_, ?_, .println hd⟩
  rw [tokens_of_expect hkey, hts, tokens_of_expect hend]
  simp

include hexpr hline in
theorem whileLine_gives : (whileLine expr line).Gives IsLine := by
  intro stop input e rest he
  simp only [whileLine, bind_eq_ok_iff, pure_eq_ok_iff] at he
  obtain ⟨_, i, hkey, c, j, hcond, b, k, hbody, rfl, rfl⟩ := he
  obtain ⟨ts, hts, hc⟩ := parenthesized_gives hexpr _ _ _ _ hcond
  obtain ⟨us, hus, hb⟩ := hline _ _ _ _ hbody
  refine ⟨_, ?_, .whileDo hc hb⟩
  rw [tokens_of_expect hkey, hts, hus]
  simp

include hexpr hline in
/-- Where no `else` is eaten none follows, and otherwise one follows the first branch. -/
theorem ifLine_gives : (ifLine expr line).Gives IsLine := by
  intro stop input e rest he
  simp only [ifLine, bind_eq_ok_iff] at he
  obtain ⟨_, i, hkey, c, j, hcond, b, k, hbody, ate, l, hate, he⟩ := he
  obtain ⟨ts, hts, hc⟩ := parenthesized_gives hexpr _ _ _ _ hcond
  obtain ⟨us, hus, hb⟩ := hline _ _ _ _ hbody
  rcases tokens_of_eat hate with ⟨rfl, helse⟩ | ⟨rfl, rfl, hnone⟩
  · simp only [if_true, bind_eq_ok_iff, pure_eq_ok_iff] at he
    obtain ⟨o, m, hother, rfl, rfl⟩ := he
    obtain ⟨vs, hvs, ho⟩ := hline _ _ _ _ hother
    rw [helse, List.head?_cons] at hb
    refine ⟨_, ?_, .ifElse hc hb ho⟩
    rw [tokens_of_expect hkey, hts, hus, helse, hvs]
    simp
  · simp only [Bool.false_eq_true, if_false, pure_eq_ok_iff] at he
    obtain ⟨rfl, rfl⟩ := he
    refine ⟨_, ?_, .ifThen hc hb hnone⟩
    rw [tokens_of_expect hkey, hts, hus]
    simp

include hexpr hline in
theorem forLine_gives : (forLine expr line).Gives IsLine := by
  intro stop input e rest he
  simp only [forLine, bind_eq_ok_iff, pure_eq_ok_iff] at he
  obtain ⟨_, i, hkey, _, i', hopen, x, j, hname, _, j', hin, first, k, hfirst, _, k', hto, bound, l,
    hbound, _, l', hclose, body, m, hbody, rfl, rfl⟩ := he
  obtain ⟨ts, hts, hf⟩ := hexpr _ _ _ _ hfirst
  obtain ⟨us, hus, hb⟩ := hexpr _ _ _ _ hbound
  obtain ⟨vs, hvs, hl⟩ := hline _ _ _ _ hbody
  refine ⟨_, ?_, .forIn hf hb hl⟩
  rw [tokens_of_expect hkey, tokens_of_expect hopen, tokens_of_name hname, tokens_of_expect hin, hts,
    tokens_of_expect hto, hus, tokens_of_expect hclose, hvs]
  simp

include hexpr in
theorem assignLine_gives : (assignLine expr).Gives IsLine := by
  intro stop input e rest he
  simp only [assignLine, bind_eq_ok_iff, pure_eq_ok_iff] at he
  obtain ⟨x, i, hname, _, j, hassign, e, k, hvalue, _, l, hend, rfl, rfl⟩ := he
  obtain ⟨ts, hts, hd⟩ := hexpr _ _ _ _ hvalue
  refine ⟨_, ?_, .assign hd⟩
  rw [tokens_of_name hname, tokens_of_expect hassign, hts, tokens_of_expect hend]
  simp

include hexpr in
theorem exprLine_gives : (exprLine expr).Gives IsLine := by
  intro stop input e rest he
  simp only [exprLine, bind_eq_ok_iff, pure_eq_ok_iff] at he
  obtain ⟨e, i, hvalue, _, j, hend, rfl, rfl⟩ := he
  obtain ⟨ts, hts, hd⟩ := hexpr _ _ _ _ hvalue
  refine ⟨_, ?_, .expr hd⟩
  rw [hts, tokens_of_expect hend]
  simp

include hline in
theorem block_gives (n : Nat) : (block line n).Gives fun _ => IsBlock := by
  intro stop input e rest he
  simp only [block, bind_eq_ok_iff, pure_eq_ok_iff] at he
  obtain ⟨_, i, hopen, es, j, hlines, rfl, rfl⟩ := he
  obtain ⟨_, hts, us, bs, rfl, rfl, hd⟩ := enclosed_gives hline n [] _ _ _ _ hlines
  refine ⟨_, ?_, .braces hd⟩
  rw [tokens_of_expect hopen, hts]
  simp

end Line

theorem line_gives (n : Nat) : (line n).Gives IsLine := by
  induction n with
  | zero =>
    intro stop input e rest he
    cases he
  | succ n ih =>
    have hexpr := expr_gives (n + 1)
    apply Gives.choice
    intro rule hmem
    simp only [List.mem_cons, List.not_mem_nil, or_false] at hmem
    rcases hmem with rfl | rfl | rfl | rfl | rfl | rfl | rfl
    · exact printLine_gives hexpr
    · exact whileLine_gives hexpr ih
    · exact ifLine_gives hexpr ih
    · exact forLine_gives hexpr ih
    · exact assignLine_gives hexpr
    · exact exprLine_gives hexpr
    · exact (block_gives ih n).imp fun _ _ _ => .block

/-! ## Definitions -/

theorem definition_gives (n : Nat) : (definition n).Gives fun _ => IsDefinition := by
  apply Gives.choice
  intro rule hmem
  simp only [List.mem_cons, List.not_mem_nil, or_false] at hmem
  rcases hmem with rfl | rfl
  · intro stop input d rest hd
    simp only [globalDefinition, bind_eq_ok_iff, pure_eq_ok_iff] at hd
    obtain ⟨_, i, hkey, x, j, hname, _, k, hassign, e, l, hvalue, _, m, hend, rfl, rfl⟩ := hd
    obtain ⟨ts, hts, he⟩ := expr_gives n _ _ _ _ hvalue
    refine ⟨_, ?_, .global he⟩
    rw [tokens_of_expect hkey, tokens_of_name hname, tokens_of_expect hassign, hts, tokens_of_expect hend]
    simp
  · have hname : name.Gives fun _ => IsName := fun stop input x rest hx =>
      ⟨_, tokens_of_name hx, .identifier x⟩
    intro stop input d rest hd
    simp only [functionDefinition, bind_eq_ok_iff, pure_eq_ok_iff] at hd
    obtain ⟨_, i, hkey, f, j, hf, _, k, hopen, params, l, hparams, body, m, hbody, rfl, rfl⟩ := hd
    obtain ⟨_, hts, us, rfl, hp⟩ := hname.separated n _ _ _ _ hparams
    obtain ⟨vs, hvs, hb⟩ := block_gives (line_gives n) n _ _ _ _ hbody
    refine ⟨_, ?_, .function hp hb⟩
    rw [tokens_of_expect hkey, tokens_of_name hf, tokens_of_expect hopen, hts, hvs]
    simp

end Grammar

end Scriptling
