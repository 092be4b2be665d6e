/-
  Scriptling.Proofs.Grammar.Complete — what can be derived is read.

  A rule `Covers` a relation if it reads whatever stands in the relation to a value as this value.
  Rules try their alternatives in order and repeat as long as they can, so this needs to know what
  comes after: an expression must not be followed by what would go on with it (`EndsExpr`), and what
  another alternative makes of the same tokens must fail. The first token or two decide that.
  - `Covers.chain`, `Covers.separated`, `Covers.enclosed`, `Covers.untilEnd`: repetitions.
  - `expr_covers`, `line_covers`, `definition_covers`: the rules of the grammar.
-/

import Scriptling.Proofs.Grammar.Sound

namespace Scriptling

namespace Rule

variable {α : Type}

/-- The rule reads up to `n` tokens as `a` wherever `D` relates them to `a` and to the token after
    them. -/
def Covers (rule : Rule α) (D : Option Token → List Token → α → Prop) (n : Nat) : Prop :=
  ∀ ts us a, D us.head? ts a → ts.length ≤ n → rule.Reads ts a us

/-! ## Repetition -/

section Chain

variable {accepted : Operator → Bool} {operators : List Operator} {operand : Rule Expr}
  {D : List Token → Expr → Prop} {E : Option Token → Prop} {bound : Nat}

def EndsChain (accepted : Operator → Bool) (next : Option Token) : Prop :=
  ∀ op, next = some (.operator op) → accepted op = false

theorem chainFrom_stops (operand : Rule Expr) {us : List Token} (h : EndsChain accepted us.head?) (n : Nat)
    (left : Expr) : (chainFrom accepted operand n left).Reads [] left us := by
  intro stop input hi
  refine ⟨input, hi, ?_⟩
  cases n with
  | zero => rfl
  | succ n =>
    cases input with
    | nil => rfl
    | cons lexeme rest =>
      simp only [chainFrom, bind_apply, peek, List.head?_cons, Option.map_some, Option.bind_some]
      cases ht : lexeme.token with
      | operator op =>
        have hop : accepted op = false := h op (by rw [← List.nil_append us, ← hi, tokens_cons, ht]; rfl)
        simp [Token.operator?, hop]
      | integer | identifier | keyword | mark => simp [Token.operator?]

/-- Reading a chain comes to its last operand with some rounds left. -/
theorem chain_reaches (hlevel : ∀ op, accepted op = true ↔ op ∈ operators) (hD : ∀ e, ¬ D [] e)
    (hop : ∀ op, accepted op = true → E (some (.operator op)))
    (h : operand.Covers (fun next ts e => D ts e ∧ E next) bound) {ts : List Token} {e : Expr}
    (hc : Grammar.IsChain operators D ts e) (us : List Token) (hE : E us.head?) (hb : ts.length ≤ bound) :
    ∃ k < ts.length, ∀ m stop input, tokens input = ts ++ us → ∃ rest, tokens rest = us ∧
      chain accepted operand (k + m) stop input = chainFrom accepted operand m e stop rest := by
  -- A chain groups to the left, so the induction goes through its operands as the rule does.
  induction hc generalizing us with
  | @single ts e hd =>
    have hpos : 0 < ts.length := by
      cases ts with
      | nil => exact absurd hd (hD e)
      | cons => simp
    refine ⟨0, hpos, fun m stop input hi => ?_⟩
    obtain ⟨rest, hrest, hread⟩ := h ts us e ⟨hd, hE⟩ hb stop input hi
    exact ⟨rest, hrest, by simp only [chain, bind_apply, hread, Nat.zero_add]⟩
  | @more ts vs op left right hl hmem hr ih =>
    simp only [List.length_append, List.length_cons] at hb
    have hacc := (hlevel op).mpr hmem
    obtain ⟨k, hk, hreach⟩ := ih (.operator op :: vs ++ us) (hop op hacc) (by omega)
    refine ⟨k + 1, by simp only [List.length_append, List.length_cons]; omega, fun m stop input hi => ?_⟩
    obtain ⟨mid, hmid, hchain⟩ := hreach (m + 1) stop input (by simpa using hi)
    obtain ⟨lexeme, rest, rfl, ht, hrest⟩ := tokens_eq_cons_iff.mp hmid
    obtain ⟨after, hafter, hread⟩ := h vs us right ⟨hr, hE⟩ (by omega) stop rest hrest
    refine ⟨after, hafter, ?_⟩
    rw [show k + 1 + m = k + (m + 1) by omega, hchain]
    simp [chainFrom, peek, advance, ht, Token.operator?, hacc, hread]

theorem Covers.chain (hlevel : ∀ op, accepted op = true ↔ op ∈ operators) (hD : ∀ e, ¬ D [] e)
    (hop : ∀ op, accepted op = true → E (some (.operator op)))
    (h : operand.Covers (fun next ts e => D ts e ∧ E next) bound) {n : Nat} (hn : bound ≤ n + 1) :
    (chain accepted operand n).Covers
      (fun next ts e => Grammar.IsChain operators D ts e ∧ E next ∧ EndsChain accepted next) bound := by
  intro ts us e h' hb stop input hi
  obtain ⟨hc, hE, hend⟩ := h'
  obtain ⟨k, hk, hreach⟩ := chain_reaches hlevel hD hop h hc us hE hb
  obtain ⟨mid, hmid, hchain⟩ := hreach (n - k) stop input hi
  obtain ⟨rest, hrest, hstop⟩ := chainFrom_stops operand hend (n - k) e stop mid hmid
  refine ⟨rest, hrest, ?_⟩
  rw [← hstop, ← hchain, show k + (n - k) = n by omega]

end Chain

def Avoids (D : List Token → α → Prop) (t : Token) : Prop :=
  ∀ ts a, D ts a → ∃ first more, ts = first :: more ∧ first ≠ t

theorem Avoids.head?_append {D : List Token → α → Prop} {t : Token} (h : Avoids D t) {ts : List Token} {a : α}
    (hd : D ts a) (us : List Token) : (ts ++ us).head? ≠ some t := by
  obtain ⟨first, more, rfl, hne⟩ := h ts a hd
  simpa using hne

section Separated

variable {closing : Token} {item : Rule α} {D : List Token → α → Prop} {E : Option Token → Prop} {bound : Nat}

theorem separatedFrom_covers (hcomma : E (some (.mark .comma))) (hclosing : E (some closing))
    (hne : closing ≠ .mark .comma) (h : item.Covers (fun next ts a => D ts a ∧ E next) bound)
    {ts : List Token} {as : List α} (hi : Grammar.IsItems D ts as) (hb : ts.length ≤ bound) {n : Nat}
    (hn : ts.length ≤ n) (found : List α) (us : List Token) :
    (separatedFrom closing item n found).Reads (ts ++ [closing]) (found.reverse ++ as) us := by
  induction hi generalizing n found with
  | @last ts a hd =>
    have hread : item.Reads ts a ([closing] ++ us) := h ts _ a ⟨hd, hclosing⟩ hb
    have hend : (pure (a :: found).reverse : Rule (List α)).Reads [] (found.reverse ++ [a]) us := by
      simpa using Reads.pure (found.reverse ++ [a]) us
    cases n with
    | zero => exact hread.bind (hend.ifEat _)
    | succ n => exact hread.bind ((hend.ifEat _).ifNotEat (by simpa using hne) _)
  | @more ts vs a as hd hi ih =>
    simp only [List.length_append, List.length_cons] at hb hn
    cases n with
    | zero => omega
    | succ n =>
      have hread : item.Reads ts a (.mark .comma :: (vs ++ [closing]) ++ us) :=
        h ts _ a ⟨hd, hcomma⟩ (by omega)
      have hmore := ih (by omega) (by omega : vs.length ≤ n) (a :: found)
      rw [List.reverse_cons, List.append_assoc, List.singleton_append] at hmore
      rw [List.append_assoc]
      exact hread.bind (hmore.ifEat _)

theorem Covers.separated (hcomma : E (some (.mark .comma))) (hclosing : E (some closing))
    (hne : closing ≠ .mark .comma) (havoid : Avoids D closing)
    (h : item.Covers (fun next ts a => D ts a ∧ E next) bound) {ts : List Token} {as : List α}
    (hs : Grammar.IsSeparated D ts as) (hb : ts.length ≤ bound) {n : Nat} (hn : ts.length ≤ n) (us : List Token) :
    (separated closing item n).Reads (ts ++ [closing]) as us := by
  cases hs with
  | nothing => exact (Reads.pure [] us).ifEat _
  | items hi =>
    refine Reads.ifNotEat (separatedFrom_covers hcomma hclosing hne h hi hb hn [] us) ?_ _
    cases hi with
    | last hd =>
      rw [List.append_assoc]
      exact havoid.head?_append hd _
    | more hd _ =>
      rw [List.append_assoc, List.append_assoc]
      exact havoid.head?_append hd _

end Separated

section Sequence

variable {closing : Token} {item : Rule α} {D : Option Token → List Token → α → Prop} {bound : Nat}

theorem head?_append (ts us : List Token) : (ts ++ us).head? = Grammar.after ts us.head? :=
  List.head?_append

/-- Each round of a sequence reads one item, which takes at least one token. -/
theorem Covers.enclosed (havoid : ∀ next, Avoids (D next) closing) (h : item.Covers D bound) {ts : List Token}
    {as : List α} (hs : Grammar.IsSequence D (some closing) ts as) (hb : ts.length ≤ bound) {n : Nat}
    (hn : ts.length ≤ n) (found : List α) (us : List Token) :
    (enclosed closing item n found).Reads (ts ++ [closing]) (found.reverse ++ as) us := by
  induction hs generalizing n found with
  | nil =>
    have hend : (pure found.reverse : Rule (List α)).Reads [] (found.reverse ++ []) us := by
      simpa using Reads.pure found.reverse us
    cases n with
    | zero => exact hend.ifEat _
    | succ n => exact hend.ifEat _
  | @cons ts vs a as hd hs ih =>
    obtain ⟨first, more, rfl, hne⟩ := havoid _ _ _ hd
    simp only [List.length_append, List.length_cons] at hb hn
    cases n with
    | zero => omega
    | succ n =>
      have hread : item.Reads (first :: more) a (vs ++ [closing] ++ us) := by
        apply h _ _ a _ (by simp only [List.length_cons]; omega)
        rw [List.append_assoc, head?_append]
        exact hd
      have hmore := ih (by omega) (by omega : vs.length ≤ n) (a :: found)
      rw [List.reverse_cons, List.append_assoc, List.singleton_append] at hmore
      have hgo := hread.bind (f := fun a => Rule.enclosed closing item n (a :: found)) hmore
      rw [List.append_assoc]
      exact (hgo.ifNotAtEnd (by simp) _).ifNotEat (by simpa using hne) _

theorem Covers.untilEnd (havoid : ∀ next a, ¬ D next [] a) (h : item.Covers D bound) {ts : List Token}
    {as : List α} (hs : Grammar.IsSequence D none ts as) (hb : ts.length ≤ bound) {n : Nat}
    (hn : ts.length ≤ n) (found : List α) :
    (untilEnd item n found).Reads ts (found.reverse ++ as) [] := by
  induction hs generalizing n found with
  | nil =>
    intro stop input hi
    rw [tokens_eq_nil_iff.mp hi]
    refine ⟨[], rfl, ?_⟩
    cases n <;> simp [Rule.untilEnd, atEnd]
  | @cons ts vs a as hd hs ih =>
    cases ts with
    | nil => exact absurd hd (havoid _ _)
    | cons first more =>
      simp only [List.length_append, List.length_cons] at hb hn
      cases n with
      | zero => omega
      | succ n =>
        have hread : item.Reads (first :: more) a (vs ++ []) := by
          apply h _ _ a _ (by simp only [List.length_cons]; omega)
          rw [head?_append]
          exact hd
        have hmore := ih (by omega) (by omega : vs.length ≤ n) (a :: found)
        rw [List.reverse_cons, List.append_assoc, List.singleton_append] at hmore
        have hgo := hread.bind (f := fun a => Rule.untilEnd item n (a :: found)) hmore
        exact hgo.ifNotAtEnd (by simp) _

end Sequence

end Rule

namespace Grammar

open Rule

/-! ## How expressions begin and end -/

def BeginsWith (test : Token → Bool) (ts : List Token) : Prop :=
  ∃ first more, ts = first :: more ∧ test first = true

def beginsExpr : Token → Bool
  | .integer _ | .identifier _ | .keyword .true_ | .keyword .false_ => true
  | .mark .openParen | .mark .openBracket => true
  | _ => false

theorem IsPrimary.begins {ts : List Token} {e : Expr} (h : IsPrimary ts e) : BeginsWith beginsExpr ts := by
  cases h <;> exact ⟨_, _, rfl, rfl⟩

theorem IsChain.begins {operators : List Operator} {D : List Token → Expr → Prop}
    (hD : ∀ ts e, D ts e → BeginsWith beginsExpr ts) {ts : List Token} {e : Expr}
    (h : IsChain operators D ts e) : BeginsWith beginsExpr ts := by
  induction h with
  | single hd => exact hD _ _ hd
  | more _ _ _ ih =>
    obtain ⟨first, more, rfl, hb⟩ := ih
    exact ⟨first, _, rfl, hb⟩

theorem IsProduct.begins {ts : List Token} {e : Expr} : IsProduct ts e → BeginsWith beginsExpr ts
  | .chain h => h.begins fun _ _ => IsPrimary.begins

theorem IsSum.begins {ts : List Token} {e : Expr} : IsSum ts e → BeginsWith beginsExpr ts
  | .chain h => h.begins fun _ _ => IsProduct.begins

theorem IsExpr.begins {ts : List Token} {e : Expr} : IsExpr ts e → BeginsWith beginsExpr ts
  | .chain h => h.begins fun _ _ => IsSum.begins

/-- What follows a primary must not turn a name into a call. -/
def EndsPrimary (next : Option Token) : Prop :=
  next ≠ some (.mark .openParen) ∧ next ≠ some (.mark .openBracket)

def EndsExpr (next : Option Token) : Prop := EndsPrimary next ∧ ∀ op, next ≠ some (.operator op)

theorem endsPrimary_operator (op : Operator) : EndsPrimary (some (.operator op)) := by
  simp [EndsPrimary]

theorem endsExpr_mark {m : Mark} (hparen : m ≠ .openParen) (hbracket : m ≠ .openBracket) :
    EndsExpr (some (.mark m)) := by
  simp [EndsExpr, EndsPrimary, hparen, hbracket]

/-! ## Expressions -/

section Primary

variable {expr : Rule Expr} {n : Nat} (h : expr.Covers (fun next ts e => IsExpr ts e ∧ EndsExpr next) n)
include h

theorem reads_parenthesized {ts : List Token} {e : Expr} (hd : IsExpr ts e) (hn : ts.length ≤ n)
    (us : List Token) :
    (parenthesized expr).Reads (.mark .openParen :: ts ++ [.mark .closeParen]) e us := by
  have hread : expr.Reads ts e (.mark .closeParen :: [] ++ us) := h ts _ e ⟨hd, endsExpr_mark (by simp) (by simp)⟩ hn
  exact (hread.bind ((Reads.pure e us).expectThen _)).expectThen _

theorem reads_items (closing : Mark) (hclosing : EndsExpr (some (.mark closing))) (hne : closing ≠ .comma)
    {ts : List Token} {es : List Expr} (hs : IsSeparated IsExpr ts es) (hn : ts.length ≤ n) (us : List Token) :
    (separated (.mark closing) expr n).Reads (ts ++ [.mark closing]) es us := by
  refine Covers.separated (endsExpr_mark (by simp) (by simp)) hclosing (by simpa using hne) ?_ h hs hn hn us
  intro ts e hd
  obtain ⟨first, more, rfl, hf⟩ := hd.begins
  refine ⟨first, more, rfl, ?_⟩
  intro heq
  subst heq
  cases closing <;> simp_all [EndsExpr, EndsPrimary, beginsExpr]

theorem labelledArgument_covers :
    (labelledArgument expr).Covers (fun next ts a => IsArgument ts a ∧ EndsExpr next) n := by
  intro ts us a h' hn
  obtain ⟨@⟨x, ts, e, hd⟩, hE⟩ := h'
  simp only [List.length_cons] at hn
  have hread : expr.Reads ts e us := h ts us e ⟨hd, hE⟩ (by omega)
  exact reads_nameThen ((hread.returning _).expectThen _)

theorem reads_arguments {ts : List Token} {es : List (String × Expr)} (hs : IsSeparated IsArgument ts es)
    (hn : ts.length ≤ n) (us : List Token) :
    (separated (.mark .closeBracket) (labelledArgument expr) n).Reads (ts ++ [.mark .closeBracket]) es us := by
  refine Covers.separated (endsExpr_mark (by simp) (by simp)) (endsExpr_mark (by simp) (by simp)) (by simp) ?_
    (labelledArgument_covers h) hs hn hn us
  intro ts a ha
  cases ha
  exact ⟨_, _, rfl, by simp⟩

omit h in
theorem reads_boolean {k : Keyword} {e : Expr} (hk : booleanOf (.keyword k) = some e) (us : List Token) :
    FirstReads [parenthesized expr, integer, call expr n, labelledCall expr n, array expr n, boolean, reference]
      [.keyword k] e us := by
  have hfrom : FirstReads [array expr n, boolean, reference] [.keyword k] e us :=
    ((boolean_picks.reads hk us).first _).skipExpect (by simp)
  refine (((hfrom.skip ?_).skip ?_).skip ?_).skipExpect (by simp)
  · exact (name_picks.refuses rfl).bind _
  · exact (name_picks.refuses rfl).bind _
  · exact integer_picks.refuses rfl

/-- The first token tells most primaries apart, and the second one calls from variables. -/
theorem primary_covers :
    (primary expr n).Covers (fun next ts e => IsPrimary ts e ∧ EndsPrimary next) (n + 1) := by
  intro ts us e h' hn
  obtain ⟨hd, hE⟩ := h'
  apply FirstReads.choice
  cases hd with
  | @group ts e hd =>
    simp only [List.length_append, List.length_cons] at hn
    exact (reads_parenthesized h hd (by omega) us).first _
  | integer m => exact ((integer_picks.reads rfl us).first _).skipExpect (by simp)
  | @call f ts es hs =>
    simp only [List.length_append, List.length_cons] at hn
    have hargs := reads_items h .closeParen (endsExpr_mark (by simp) (by simp)) (by simp) hs (by omega) us
    have hcall : (Grammar.call expr n).Reads (.identifier f :: .mark .openParen :: ts ++ [.mark .closeParen])
        (.call f es) us := reads_nameThen ((hargs.returning _).expectThen _)
    exact ((hcall.first _).skip (integer_picks.refuses rfl)).skipExpect (by simp)
  | @labelledCall f ts es hs =>
    simp only [List.length_append, List.length_cons] at hn
    have hargs := reads_arguments h hs (by omega) us
    have hcall : (Grammar.labelledCall expr n).Reads
        (.identifier f :: .mark .openBracket :: ts ++ [.mark .closeBracket]) (.labelledCall f es) us :=
      reads_nameThen ((hargs.returning _).expectThen _)
    refine (((hcall.first _).skip ?_).skip (integer_picks.refuses rfl)).skipExpect (by simp)
    exact refuses_nameThen ((refuses_expect (by simp)).bind _)
  | @array ts es hs =>
    simp only [List.length_append, List.length_cons] at hn
    have hitems := reads_items h .closeBracket (endsExpr_mark (by simp) (by simp)) (by simp) hs (by omega) us
    have harray : (Grammar.array expr n).Reads (.mark .openBracket :: ts ++ [.mark .closeBracket]) (.array es) us :=
      (hitems.returning _).expectThen _
    refine ((((harray.first _).skip ?_).skip ?_).skip (integer_picks.refuses rfl)).skipExpect (by simp)
    · exact (name_picks.refuses rfl).bind _
    · exact (name_picks.refuses rfl).bind _
  | boolTrue => exact reads_boolean rfl us
  | boolFalse => exact reads_boolean rfl us
  | var x =>
    have hvar : reference.Reads [.identifier x] (.var x) us := (name_picks.reads rfl us).returning _
    have hfrom : FirstReads [Grammar.array expr n, boolean, reference] [.identifier x] (.var x) us :=
      ((hvar.first _).skip (boolean_picks.refuses rfl)).skipExpect (by simp)
    refine (((hfrom.skip ?_).skip ?_).skip (integer_picks.refuses rfl)).skipExpect (by simp)
    · exact refuses_nameThen ((refuses_expect hE.2).bind _)
    · exact refuses_nameThen ((refuses_expect hE.1).bind _)

end Primary

theorem not_nil_of_begins {D : List Token → Expr → Prop}
    (h : ∀ ts e, D ts e → BeginsWith beginsExpr ts) (e : Expr) : ¬ D [] e := by
  intro hd
  obtain ⟨_, _, heq, -⟩ := h [] e hd
  cases heq

theorem endsChain_operator {accepted : Operator → Bool} {op : Operator} (h : accepted op = false) :
    EndsChain accepted (some (.operator op)) := by
  intro op' heq
  cases heq
  exact h

theorem Covers.imp {α : Type} {rule : Rule α} {D E : Option Token → List Token → α → Prop} {n : Nat}
    (h : rule.Covers D n) (hED : ∀ next ts a, E next ts a → D next ts a) : rule.Covers E n :=
  fun ts us a he hn => h ts us a (hED _ _ _ he) hn

/-- An operator of a looser level ends a chain of a tighter one. -/
theorem expr_covers (n : Nat) : (expr n).Covers (fun next ts e => IsExpr ts e ∧ EndsExpr next) n := by
  induction n with
  | zero =>
    intro ts us e h hn
    obtain ⟨hd, -⟩ := h
    obtain ⟨_, _, rfl, -⟩ := hd.begins
    simp at hn
  | succ n ih =>
    have hproduct : (product (expr n) n).Covers
        (fun next ts e => IsProduct ts e ∧ EndsPrimary next ∧ EndsChain Operator.isMultiplicative next) (n + 1) := by
      refine Covers.imp (Covers.chain Operator.isMultiplicative_iff (not_nil_of_begins fun _ _ => IsPrimary.begins)
        (fun op _ => endsPrimary_operator op) (primary_covers ih) (Nat.le_refl _)) ?_
      intro next ts e h
      obtain ⟨⟨hc⟩, hE⟩ := h
      exact ⟨hc, hE⟩
    have hsum : (sum (expr n) n).Covers
        (fun next ts e => IsSum ts e ∧ (EndsPrimary next ∧ EndsChain Operator.isMultiplicative next) ∧
          EndsChain Operator.isAdditive next) (n + 1) := by
      refine Covers.imp (Covers.chain Operator.isAdditive_iff (not_nil_of_begins fun _ _ => IsProduct.begins)
        (fun op hop => ?_) hproduct (Nat.le_refl _)) ?_
      · exact ⟨endsPrimary_operator op, endsChain_operator (by cases op <;> first | rfl | cases hop)⟩
      · intro next ts e h
        obtain ⟨⟨hc⟩, hE⟩ := h
        exact ⟨hc, hE⟩
    refine Covers.imp (Covers.chain Operator.isComparison_iff (not_nil_of_begins fun _ _ => IsSum.begins)
      (fun op hop => ?_) hsum (Nat.le_refl _)) ?_
    · refine ⟨⟨endsPrimary_operator op, endsChain_operator ?_⟩, endsChain_operator ?_⟩ <;>
        cases op <;> first | rfl | cases hop
    · intro next ts e h
      obtain ⟨⟨hc⟩, hE, hop⟩ := h
      have hnone (accepted : Operator → Bool) : EndsChain accepted next := fun op heq => absurd heq (hop op)
      exact ⟨hc, ⟨⟨hE, hnone _⟩, hnone _⟩, hnone _⟩

/-- Where no expression begins, none is read. -/
theorem refuses_expr (n : Nat) {t : Token} (ht : beginsExpr t = false) (us : List Token) :
    (expr n).Refuses (t :: us) := by
  intro stop input hi
  cases he : expr n stop input with
  | fail e rest => exact ⟨e, rest, rfl⟩
  | ok e rest =>
    -- What has been read can be derived, so it begins like an expression.
    obtain ⟨ts, hts, hd⟩ := expr_gives n _ _ _ _ he
    obtain ⟨first, more, rfl, hf⟩ := hd.begins
    rw [hi] at hts
    obtain ⟨rfl, -⟩ := List.cons.inj hts
    rw [ht] at hf
    cases hf

/-! ## Assignments and expressions -/

def NoAssign (ts : List Token) : Prop := ∀ x more, ts ≠ .identifier x :: .mark .assign :: more

theorem NoAssign.append {ts us : List Token} {t : Token} (h : NoAssign ts) (hne : ts ≠ [])
    (ht : t ≠ .mark .assign) : NoAssign (ts ++ t :: us) := by
  intro x more heq
  match ts, hne with
  | [first], _ =>
    simp only [List.singleton_append, List.cons.injEq] at heq
    exact ht heq.2.1
  | first :: second :: ts, _ =>
    simp only [List.cons_append, List.cons.injEq] at heq
    obtain ⟨rfl, rfl, -⟩ := heq
    exact h x ts rfl

theorem IsChain.noAssign {operators : List Operator} {D : List Token → Expr → Prop}
    (hD : ∀ ts e, D ts e → ts ≠ [] ∧ NoAssign ts) {ts : List Token} {e : Expr} (h : IsChain operators D ts e) :
    ts ≠ [] ∧ NoAssign ts := by
  induction h with
  | single hd => exact hD _ _ hd
  | more _ _ _ ih => exact ⟨by simp, ih.2.append ih.1 (by simp)⟩

theorem IsExpr.noAssign {ts : List Token} {e : Expr} (h : IsExpr ts e) : ts ≠ [] ∧ NoAssign ts := by
  have hprimary (ts : List Token) (e : Expr) (h : IsPrimary ts e) : ts ≠ [] ∧ NoAssign ts := by
    cases h <;> simp [NoAssign]
  have hproduct (ts : List Token) (e : Expr) : IsProduct ts e → ts ≠ [] ∧ NoAssign ts
    | .chain h => h.noAssign hprimary
  have hsum (ts : List Token) (e : Expr) : IsSum ts e → ts ≠ [] ∧ NoAssign ts
    | .chain h => h.noAssign hproduct
  cases h with
  | chain h => exact h.noAssign hsum

theorem refuses_assignLine {ts : List Token} (h : NoAssign ts) (expr : Rule Expr) :
    (assignLine expr).Refuses ts := by
  match ts with
  | [] => exact (name_picks.refuses rfl).bind _
  | .identifier x :: us =>
    refine refuses_nameThen ((refuses_expect ?_).bind _)
    intro hhead
    cases us with
    | nil => cases hhead
    | cons t us =>
      cases hhead
      exact h x us rfl
  | .integer _ :: _ | .keyword _ :: _ | .operator _ :: _ | .mark _ :: _ =>
    exact (name_picks.refuses rfl).bind _

/-! ## Lines -/

def beginsLine (t : Token) : Bool :=
  beginsExpr t || t == .keyword .println_ || t == .keyword .while_ || t == .keyword .if_ ||
    t == .keyword .for_ || t == .mark .openBrace

theorem IsLine.begins {next : Option Token} {ts : List Token} {e : Expr} (h : IsLine next ts e) :
    BeginsWith beginsLine ts := by
  cases h with
  | println _ | whileDo _ _ | ifThen _ _ _ | ifElse _ _ _ | forIn _ _ _ => exact ⟨_, _, rfl, by decide⟩
  | assign _ => exact ⟨_, _, rfl, rfl⟩
  | expr hd =>
    obtain ⟨first, more, rfl, hf⟩ := hd.begins
    exact ⟨first, _, rfl, by simp [beginsLine, hf]⟩
  | block hd =>
    cases hd
    exact ⟨_, _, rfl, by decide⟩

section Line

variable {expr line : Rule Expr} {n : Nat}
  (hexpr : expr.Covers (fun next ts e => IsExpr ts e ∧ EndsExpr next) (n + 1)) (hline : line.Covers IsLine n)

include hexpr in
theorem reads_condition {ts : List Token} {e : Expr} (h : IsParenthesized ts e) (hn : ts.length ≤ n + 1)
    (us : List Token) : (parenthesized expr).Reads ts e us := by
  obtain ⟨hd⟩ := h
  simp only [List.length_append, List.length_cons] at hn
  exact reads_parenthesized hexpr hd (by omega) us

include hexpr in
theorem reads_printLine {ts : List Token} {e : Expr} (h : IsParenthesized ts e) (hn : ts.length ≤ n)
    (us : List Token) :
    (printLine expr).Reads (.keyword .println_ :: ts ++ [.mark .semicolon]) (.println e) us :=
  ((reads_condition hexpr h (by omega) _).bind ((Reads.pure _ us).expectThen _)).expectThen _

include hexpr hline in
theorem reads_whileLine {ts vs us : List Token} {c b : Expr} (hc : IsParenthesized ts c)
    (hb : IsLine us.head? vs b) (hn : ts.length + vs.length ≤ n) :
    (whileLine expr line).Reads (.keyword .while_ :: ts ++ vs) (.whileDo c b) us := by
  have hbody := hline vs us b hb (by omega)
  exact ((reads_condition hexpr hc (by omega) _).bind (hbody.returning _)).expectThen _

include hexpr hline in
theorem reads_ifThen {ts vs us : List Token} {c b : Expr} (hc : IsParenthesized ts c)
    (hb : IsLine us.head? vs b) (helse : us.head? ≠ some (.keyword .else_)) (hn : ts.length + vs.length ≤ n) :
    (ifLine expr line).Reads (.keyword .if_ :: ts ++ vs) (.ifThen c b) us := by
  have hbody : line.Reads vs b ([] ++ us) := hline vs us b hb (by omega)
  have hgo : (ifLine expr line).Reads (.keyword .if_ :: (ts ++ (vs ++ []))) (.ifThen c b) us :=
    ((reads_condition hexpr hc (by omega) _).bind
      (hbody.bind ((Reads.pure _ us).ifNotEat helse _))).expectThen _
  rwa [List.append_nil] at hgo

include hexpr hline in
theorem reads_ifElse {ts vs ws us : List Token} {c b o : Expr} (hc : IsParenthesized ts c)
    (hb : IsLine (some (.keyword .else_)) vs b) (ho : IsLine us.head? ws o)
    (hn : ts.length + vs.length + ws.length ≤ n) :
    (ifLine expr line).Reads (.keyword .if_ :: ts ++ vs ++ .keyword .else_ :: ws) (.ifElse c b o) us := by
  have hbody : line.Reads vs b (.keyword .else_ :: ws ++ us) := hline vs _ b hb (by omega)
  have hother := hline ws us o ho (by omega)
  have hgo : (ifLine expr line).Reads (.keyword .if_ :: (ts ++ (vs ++ .keyword .else_ :: ws))) (.ifElse c b o) us :=
    ((reads_condition hexpr hc (by omega) _).bind (hbody.bind ((hother.returning _).ifEat _))).expectThen _
  rwa [← List.append_assoc] at hgo

include hexpr hline in
theorem reads_forLine (x : String) {ts vs ws us : List Token} {first bound body : Expr} (hf : IsExpr ts first)
    (hb : IsExpr vs bound) (hl : IsLine us.head? ws body) (hn : ts.length + vs.length + ws.length ≤ n) :
    (forLine expr line).Reads
      (.keyword .for_ :: .mark .openParen :: .identifier x :: .keyword .in_ :: ts ++ .keyword .to_ :: vs ++
        .mark .closeParen :: ws)
      (countedLoop x first bound body) us := by
  have hbody := hline ws us body hl (by omega)
  have hbound : expr.Reads vs bound (.mark .closeParen :: ws ++ us) :=
    hexpr vs _ bound ⟨hb, endsExpr_mark (by simp) (by simp)⟩ (by omega)
  have hfirst : expr.Reads ts first (.keyword .to_ :: (vs ++ .mark .closeParen :: ws) ++ us) :=
    hexpr ts _ first ⟨hf, by simp [EndsExpr, EndsPrimary]⟩ (by omega)
  have hgo : (forLine expr line).Reads
      (.keyword .for_ :: .mark .openParen :: .identifier x :: .keyword .in_ ::
        (ts ++ .keyword .to_ :: (vs ++ .mark .closeParen :: ws)))
      (countedLoop x first bound body) us :=
    Reads.expectThen (Reads.expectThen (reads_nameThen (Reads.expectThen (hfirst.bind (Reads.expectThen
      (hbound.bind ((hbody.returning _).expectThen _)) _)) _)) _) _
  simpa using hgo

include hexpr in
theorem reads_assignLine (x : String) {ts : List Token} {e : Expr} (h : IsExpr ts e) (hn : ts.length ≤ n)
    (us : List Token) :
    (assignLine expr).Reads (.identifier x :: .mark .assign :: ts ++ [.mark .semicolon]) (.assign x e) us := by
  have hvalue : expr.Reads ts e (.mark .semicolon :: [] ++ us) :=
    hexpr ts _ e ⟨h, endsExpr_mark (by simp) (by simp)⟩ (by omega)
  exact reads_nameThen ((hvalue.bind ((Reads.pure _ us).expectThen _)).expectThen _)

include hexpr in
theorem reads_exprLine {ts : List Token} {e : Expr} (h : IsExpr ts e) (hn : ts.length ≤ n) (us : List Token) :
    (exprLine expr).Reads (ts ++ [.mark .semicolon]) e us := by
  have hvalue : expr.Reads ts e (.mark .semicolon :: [] ++ us) :=
    hexpr ts _ e ⟨h, endsExpr_mark (by simp) (by simp)⟩ (by omega)
  exact hvalue.bind ((Reads.pure _ us).expectThen _)

include hline in
theorem reads_block {ts : List Token} {e : Expr} (h : IsBlock ts e) (hn : ts.length ≤ n + 1) (us : List Token) :
    (block line n).Reads ts e us := by
  obtain ⟨hs⟩ := h
  simp only [List.length_append, List.length_cons] at hn
  have havoid (next : Option Token) : Avoids (IsLine next) (.mark .closeBrace) := by
    intro ts e hd
    obtain ⟨first, more, rfl, hf⟩ := hd.begins
    refine ⟨first, more, rfl, ?_⟩
    intro heq
    subst heq
    revert hf
    decide
  have hlines := hline.enclosed havoid hs (by omega) (n := n) (by omega) [] us
  exact (hlines.returning _).expectThen _

/-- A line whose first word is no keyword but perhaps a truth value is none of the first four. -/
theorem skip_keywords {rules : List (Rule Expr)} {ts us : List Token} {e : Expr} (h : FirstReads rules ts e us)
    (hno : ∀ k, beginsExpr (.keyword k) = false → (ts ++ us).head? ≠ some (.keyword k)) :
    FirstReads (printLine expr :: whileLine expr line :: ifLine expr line :: forLine expr line :: rules) ts e us :=
  (((h.skipExpect (hno _ rfl)).skipExpect (hno _ rfl)).skipExpect (hno _ rfl)).skipExpect (hno _ rfl)

end Line

/-- The keyword at the front tells most lines apart. An expression does not begin like an
    assignment, and where a brace opens no expression begins. -/
theorem line_covers (n : Nat) : (line n).Covers IsLine n := by
  induction n with
  | zero =>
    intro ts us e hd hn
    obtain ⟨_, _, rfl, -⟩ := hd.begins
    simp at hn
  | succ n ih =>
    have hexpr := expr_covers (n + 1)
    intro ts us e hd hn
    apply FirstReads.choice
    cases hd with
    | println hc =>
      simp only [List.length_append, List.length_cons] at hn
      exact (reads_printLine hexpr hc (by omega) us).first _
    | whileDo hc hb =>
      simp only [List.length_append, List.length_cons] at hn
      exact ((reads_whileLine hexpr ih hc hb (by omega)).first _).skipExpect (by simp)
    | ifThen hc hb helse =>
      simp only [List.length_append, List.length_cons] at hn
      have hread := reads_ifThen hexpr ih hc hb helse (by omega)
      exact ((hread.first _).skipExpect (by simp)).skipExpect (by simp)
    | ifElse hc hb ho =>
      simp only [List.length_append, List.length_cons] at hn
      have hread := reads_ifElse hexpr ih hc hb ho (by omega)
      exact ((hread.first _).skipExpect (by simp)).skipExpect (by simp)
    | @forIn _ x _ _ _ _ _ _ hf hb hl =>
      simp only [List.length_append, List.length_cons] at hn
      have hread := reads_forLine hexpr ih x hf hb hl (by omega)
      exact (((hread.first _).skipExpect (by simp)).skipExpect (by simp)).skipExpect (by simp)
    | @assign _ x _ _ hv =>
      simp only [List.length_append, List.length_cons] at hn
      have hread := reads_assignLine hexpr x hv (by omega) us
      exact skip_keywords (hread.first _) fun k _ => by simp
    | expr hv =>
      simp only [List.length_append, List.length_cons] at hn
      -- An assignment is tried first, and fails at the second token.
      obtain ⟨hne, hno⟩ := hv.noAssign
      have hread := reads_exprLine hexpr hv (by omega) us
      refine skip_keywords ((hread.first _).skip ?_) fun k hk heq => ?_
      · exact refuses_assignLine (by simpa using hno.append hne (by simp)) _
      obtain ⟨first, more, rfl, hf⟩ := hv.begins
      cases heq
      rw [hk] at hf
      cases hf
    | block hb =>
      have hread := reads_block ih hb hn us
      obtain ⟨hs⟩ := hb
      refine skip_keywords (((hread.first []).skip ?_).skip ?_) fun k _ => by simp
      · exact (refuses_expr (n + 1) rfl _).bind _
      · exact refuses_assignLine (by simp [NoAssign]) _

/-! ## Definitions -/

theorem IsDefinition.begins {ts : List Token} {d : Definition} (h : IsDefinition ts d) :
    ∃ k more, ts = .keyword k :: more := by
  cases h <;> exact ⟨_, _, rfl⟩

theorem reads_params {ts : List Token} {params : List String} {n : Nat} (h : IsSeparated IsName ts params)
    (hn : ts.length ≤ n) (us : List Token) :
    (separated (.mark .closeParen) name n).Reads (ts ++ [.mark .closeParen]) params us := by
  have hname : name.Covers (fun _ ts x => IsName ts x ∧ True) n := by
    intro ts us x h' _
    obtain ⟨⟨x⟩, -⟩ := h'
    exact name_picks.reads rfl us
  refine Covers.separated (E := fun _ => True) trivial trivial (by simp) ?_ hname h hn hn us
  intro ts x hx
  cases hx
  exact ⟨_, _, rfl, by simp⟩

theorem definition_covers (n : Nat) : (definition n).Covers (fun _ => IsDefinition) n := by
  intro ts us d hd hn
  apply FirstReads.choice
  cases hd with
  | @global x ts e he =>
    simp only [List.length_append, List.length_cons] at hn
    have hvalue : (expr n).Reads ts e (.mark .semicolon :: [] ++ us) :=
      expr_covers n ts _ e ⟨he, endsExpr_mark (by simp) (by simp)⟩ (by omega)
    have hread : (globalDefinition (expr n)).Reads
        (.keyword .global_ :: .identifier x :: .mark .assign :: ts ++ [.mark .semicolon]) (.global x e) us :=
      (reads_nameThen ((hvalue.bind ((Reads.pure _ us).expectThen _)).expectThen _)).expectThen _
    exact hread.first _
  | @function f ts vs params body hp hb =>
    simp only [List.length_append, List.length_cons] at hn
    have hparams : (separated (.mark .closeParen) name n).Reads (ts ++ [.mark .closeParen]) params (vs ++ us) :=
      reads_params hp (by omega) _
    have hbody : (block (line n) n).Reads vs body us := reads_block (line_covers n) hb (by omega) us
    have hread : (functionDefinition (block (line n) n) n).Reads
        (.keyword .define_ :: .identifier f :: .mark .openParen :: (ts ++ [.mark .closeParen] ++ vs))
        (.function ⟨f, params, body⟩) us :=
      (reads_nameThen ((hparams.bind (hbody.returning _)).expectThen _)).expectThen _
    rw [List.append_assoc] at hread
    exact (hread.first _).skipExpect (by simp)

end Grammar

end Scriptling
