/-
  Scriptling.Proofs.Grammar.Termination — the rules end, and no bound is what ends them.

  Rules are nested in each other and have loops, and the bounds that they are given make all this
  end. Here it is shown that it ends by itself. Each level of nesting and each round of a loop takes
  a lexeme before the next one begins, so after more of them than there are lexemes nothing is
  left to do, and anything at all can be put in the place of what would come then.
  - `Rule.AgreeBelow`: rules that answer the same to all inputs with less than so many lexemes. There
    is one lemma for each way of putting rules together.
  - `Rule.unrolled`: the rounds of a loop, with something else after the last one. What that is does
    not matter (`unrolled_agree`), so that the loops of the grammar end (`Rule.LoopEnds`).
  - `Grammar.exprOver`, `Grammar.lineOver`: expressions and lines up to some depth, with something else
    in the place of those nested deeper. That does not matter either (`expr_agree`, `line_agree`).
  - `rules_terminate_and_progress`: what follows for the rules that a reader can apply.
-/

import Scriptling.Proofs.Grammar.Place
import Scriptling.Proofs.Grammar.Progress

namespace Scriptling

namespace Rule

variable {α β σ : Type} {M p : Nat}

/-! ## Rules that agree on short inputs -/

def AgreeBelow (M : Nat) (rule rule' : Rule α) : Prop :=
  ∀ stop input, input.length < M → rule stop input = rule' stop input

namespace AgreeBelow

theorem refl (M : Nat) (rule : Rule α) : AgreeBelow M rule rule := fun _ _ _ => rfl

theorem trans {rule rule' rule'' : Rule α} (h : AgreeBelow M rule rule') (h' : AgreeBelow M rule' rule'') :
    AgreeBelow M rule rule'' :=
  fun stop input hlen => (h stop input hlen).trans (h' stop input hlen)

theorem mono {rule rule' : Rule α} {L : Nat} (h : AgreeBelow M rule rule') (hle : L ≤ M) : AgreeBelow L rule rule' :=
  fun stop input hlen => h stop input (Nat.lt_of_lt_of_le hlen hle)

theorem zero (rule rule' : Rule α) : AgreeBelow 0 rule rule' := fun _ _ hlen => absurd hlen (Nat.not_lt_zero _)

theorem one {rule rule' : Rule α} (h : ∀ stop, rule stop [] = rule' stop []) : AgreeBelow 1 rule rule' := by
  intro stop input hlen
  obtain rfl := List.length_eq_zero_iff.mp (Nat.lt_one_iff.mp hlen)
  exact h stop

/-- What comes after a rule that takes `p` lexemes is asked about inputs that are shorter by as many. -/
theorem bind {rule rule' : Rule α} {f f' : α → Rule β} (h : AgreeBelow M rule rule') (htakes : rule.Takes p)
    (hf : ∀ a, AgreeBelow (M - p) (f a) (f' a)) : AgreeBelow M (rule >>= f) (rule' >>= f') := by
  intro stop input hlen
  have hreply := htakes stop input
  rw [bind_apply, bind_apply, ← h stop input hlen]
  generalize rule stop input = reply at hreply
  cases hreply with
  | ok a hsuffix hlength => exact hf a stop _ (by omega)
  | fail e hsuffix => rfl

/-- The same rule comes after either. -/
theorem bind_left {rule rule' : Rule α} (h : AgreeBelow M rule rule') (f : α → Rule β) :
    AgreeBelow M (rule >>= f) (rule' >>= f) := by
  intro stop input hlen
  rw [bind_apply, bind_apply, h stop input hlen]

/-- The same rule comes before either. -/
theorem after {rule : Rule α} {f f' : α → Rule β} (htakes : rule.Takes p)
    (hf : ∀ a, AgreeBelow (M - p) (f a) (f' a)) : AgreeBelow M (rule >>= f) (rule >>= f') :=
  (refl M rule).bind htakes hf

theorem ifEat {yes yes' no no' : Rule β} (hyes : AgreeBelow M yes yes') (hno : AgreeBelow M no no') (token : Token) :
    AgreeBelow M (do if ← eat token then yes else no) (do if ← eat token then yes' else no') := by
  intro stop input hlen
  cases input with
  | nil => exact hno stop [] hlen
  | cons lexeme rest =>
    simp only [bind_apply, eat_cons]
    by_cases ht : lexeme.token = token
    · simp only [if_pos ht]
      exact hyes stop rest (Nat.lt_of_succ_lt hlen)
    · simp only [if_neg ht]
      exact hno stop (lexeme :: rest) hlen

theorem ifAtEnd {more more' : Rule β} (whenDone : Rule β) (h : AgreeBelow M more more') :
    AgreeBelow M (do if ← atEnd then whenDone else more) (do if ← atEnd then whenDone else more') := by
  intro stop input hlen
  cases input with
  | nil => rfl
  | cons lexeme rest => exact h stop (lexeme :: rest) hlen

/-- Choices whose alternatives agree one by one. -/
theorem choice (pairs : List (Rule α × Rule α)) (h : ∀ pair ∈ pairs, AgreeBelow M pair.1 pair.2) (expected : String) :
    AgreeBelow M (choice expected (pairs.map Prod.fst)) (choice expected (pairs.map Prod.snd)) := by
  intro stop input hlen
  rw [Rule.choice, Rule.choice]
  generalize mismatch expected stop input = best
  induction pairs generalizing best with
  | nil => rfl
  | cons pair pairs ih =>
    have hpair := h pair (List.mem_cons_self ..) stop input hlen
    simp only [List.map_cons, firstOf, hpair]
    cases pair.2 stop input with
    | ok a rest => rfl
    | fail e rest => exact ih (fun pair hmem => h pair (List.mem_cons_of_mem _ hmem)) _

end AgreeBelow

/-! ## Loops -/

/-- `n` rounds of a loop and `beyond` after them. A round is told what comes after it. -/
def unrolled (round : (σ → Rule β) → σ → Rule β) (beyond : σ → Rule β) : Nat → σ → Rule β
  | 0 => beyond
  | n + 1 => round (unrolled round beyond n)

def Shrink (M : Nat) (round round' : (σ → Rule β) → σ → Rule β) : Prop :=
  ∀ L < M, ∀ next next', (∀ s, AgreeBelow L (next s) (next' s)) →
    ∀ s, AgreeBelow (L + 1) (round next s) (round' next' s)

section Unrolled

variable {round round' : (σ → Rule β) → σ → Rule β}

/-- What comes after as many rounds as there are lexemes does not matter. -/
theorem unrolled_agree (h : Shrink M round round') {L n n' : Nat} (hL : L ≤ M) (hn : L ≤ n) (hn' : L ≤ n')
    (beyond beyond' : σ → Rule β) (s : σ) :
    AgreeBelow L (unrolled round beyond n s) (unrolled round' beyond' n' s) := by
  induction L generalizing n n' s with
  | zero => exact .zero _ _
  | succ L ih =>
    obtain ⟨n, rfl⟩ := Nat.exists_eq_add_of_le' (Nat.le_trans (Nat.le_add_left 1 L) hn)
    obtain ⟨n', rfl⟩ := Nat.exists_eq_add_of_le' (Nat.le_trans (Nat.le_add_left 1 L) hn')
    exact h L (by omega) _ _ (fun s => ih (by omega) (by omega) (by omega) s) s

/-- From wherever it starts, the loop comes to one answer: with every bound that is not less than the
    number of lexemes, and after more rounds than there are lexemes, whatever would come then. -/
def LoopEnds (round : (σ → Rule β) → σ → Rule β) (loop : Nat → σ → Rule β) : Prop :=
  ∀ s stop input, ∃ reply, (∀ n, input.length ≤ n → loop n s stop input = reply) ∧
    ∀ beyond n, input.length < n → unrolled round beyond n s stop input = reply

/-- The loop goes round by round, each of which takes a lexeme. With a bound of zero it does what a round
    does where nothing is left. -/
structure IsLoop (round : (σ → Rule β) → σ → Rule β) (loop : Nat → σ → Rule β) : Prop where
  step : ∀ n, loop (n + 1) = round (loop n)
  last : ∀ s, AgreeBelow 1 (loop 0 s) (round (loop 0) s)
  shrink : ∀ M, Shrink M round round

theorem eq_unrolled {loop : Nat → σ → Rule β} (hstep : ∀ n, loop (n + 1) = round (loop n)) (n : Nat) :
    loop n = unrolled round (loop 0) n := by
  induction n with
  | zero => rfl
  | succ n ih => rw [hstep, unrolled, ← ih]

namespace IsLoop

variable {loop loop' : Nat → σ → Rule β}

/-- With a bound of zero, one lexeme more could be read. -/
theorem agree_succ (h : IsLoop round loop) (n : Nat) (s : σ) : AgreeBelow (n + 1) (loop n s) (loop (n + 1) s) := by
  induction n generalizing s with
  | zero =>
    rw [h.step]
    exact h.last s
  | succ n ih =>
    rw [h.step, h.step (n + 1)]
    exact h.shrink (n + 2) (n + 1) (Nat.lt_succ_self _) _ _ ih s

/-- The loop with a bound, and one with other rounds that is unrolled. -/
theorem agree (h : IsLoop round loop) (hshrink : Shrink M round round') {L n n' : Nat} (hL : L ≤ M) (hn : L ≤ n + 1)
    (hn' : L ≤ n') (beyond : σ → Rule β) (s : σ) : AgreeBelow L (loop n s) (unrolled round' beyond n' s) := by
  refine ((h.agree_succ n s).mono hn).trans ?_
  rw [eq_unrolled h.step]
  exact unrolled_agree hshrink hL hn hn' _ beyond s

theorem ends (h : IsLoop round loop) : LoopEnds round loop := by
  intro s stop input
  have hlast := Nat.lt_succ_self input.length
  refine ⟨unrolled round (loop 0) (input.length + 1) s stop input, fun n hn => ?_, fun beyond n hn => ?_⟩
  · exact h.agree (h.shrink _) (Nat.le_refl _) (Nat.succ_le_succ hn) (Nat.le_refl _) _ s stop input hlast
  · exact unrolled_agree (h.shrink _) (Nat.le_refl _) hn (Nat.le_refl _) beyond _ s stop input hlast

end IsLoop

end Unrolled

/-! ### Operators between operands -/

def chainRound (accepted : Operator → Bool) (operand : Rule Expr) (next : Expr → Rule Expr) (left : Expr) :
    Rule Expr := do
  match (← peek).bind Token.operator? with
  | none => pure left
  | some op =>
    if accepted op then
      let _ ← advance
      let right ← operand
      next (.binary op left right)
    else pure left

section Chain

variable {accepted : Operator → Bool} {operand operand' : Rule Expr}

theorem shrink_chainRound (h : AgreeBelow M operand operand') (htakes : operand.Takes p) :
    Shrink M (chainRound accepted operand) (chainRound accepted operand') := by
  intro L hL next next' hnext left stop input hlen
  cases input with
  | nil => rfl
  | cons lexeme rest =>
    -- The operator is taken, and only then the operand comes.
    have hmore (op : Operator) : AgreeBelow L (operand >>= fun right => next (.binary op left right))
        (operand' >>= fun right => next' (.binary op left right)) :=
      (h.mono (Nat.le_of_lt hL)).bind htakes.weaken fun right => hnext _
    simp only [chainRound, bind_apply, peek, List.head?_cons, Option.map_some, Option.bind_some]
    cases lexeme.token.operator? with
    | none => rfl
    | some op =>
      by_cases hacc : accepted op = true
      · simp only [if_pos hacc]
        exact hmore op stop rest (Nat.lt_of_succ_lt_succ hlen)
      · simp only [if_neg hacc]

theorem chainFrom_step (n : Nat) :
    chainFrom accepted operand (n + 1) = chainRound accepted operand (chainFrom accepted operand n) := rfl

theorem isLoop_chainFrom (htakes : operand.Takes p) :
    IsLoop (chainRound accepted operand) (chainFrom accepted operand) where
  step := chainFrom_step
  last _ := .one fun _ => rfl
  shrink M := shrink_chainRound (.refl M operand) htakes

theorem AgreeBelow.chain (h : AgreeBelow (M + 1) operand operand') (htakes : operand.Takes 1) {n n' : Nat}
    (hn : M ≤ n + 1) (hn' : M ≤ n') : AgreeBelow (M + 1) (chain accepted operand n) (chain accepted operand' n') := by
  refine h.bind htakes fun left => ?_
  rw [eq_unrolled chainFrom_step n']
  exact (isLoop_chainFrom htakes).agree (shrink_chainRound h htakes) (Nat.le_succ M) hn hn' _ left

end Chain

/-! ### Items up to a closing token or the end -/

def separatedRound (closing : Token) (item : Rule α) (next : List α → Rule (List α)) (found : List α) :
    Rule (List α) := do
  let a ← item
  if ← eat (.mark .comma) then next (a :: found)
  else if ← eat closing then pure (a :: found).reverse
  else refuse ("',' or " ++ closing.describe)

def enclosedRound (closing : Token) (item : Rule α) (next : List α → Rule (List α)) (found : List α) :
    Rule (List α) := do
  if ← eat closing then pure found.reverse
  else if ← atEnd then refuse closing.describe
  else
    let a ← item
    next (a :: found)

def untilEndRound (item : Rule α) (next : List α → Rule (List α)) (found : List α) : Rule (List α) := do
  if ← atEnd then pure found.reverse
  else
    let a ← item
    next (a :: found)

section Items

variable {closing : Token} {item item' : Rule α}

theorem separatedFrom_step (n : Nat) :
    separatedFrom closing item (n + 1) = separatedRound closing item (separatedFrom closing item n) := rfl

theorem enclosed_step (n : Nat) :
    enclosed closing item (n + 1) = enclosedRound closing item (enclosed closing item n) := rfl

variable (h : AgreeBelow M item item') (htakes : item.Takes 1)
include htakes

include h in
theorem shrink_separatedRound : Shrink M (separatedRound closing item) (separatedRound closing item') :=
  fun _ hL _ _ hnext _ => (h.mono hL).bind htakes fun _ => (hnext _).ifEat (.refl _ _) _

include h in
theorem shrink_enclosedRound : Shrink M (enclosedRound closing item) (enclosedRound closing item') :=
  fun _ hL _ _ hnext _ =>
    AgreeBelow.ifEat (.refl _ _) (.ifAtEnd _ ((h.mono hL).bind htakes fun _ => hnext _)) closing

theorem isLoop_separatedFrom : IsLoop (separatedRound closing item) (separatedFrom closing item) where
  step := separatedFrom_step
  last _ := .after htakes fun _ => .zero _ _
  shrink M := shrink_separatedRound (.refl M item) htakes

theorem isLoop_enclosed : IsLoop (enclosedRound closing item) (enclosed closing item) where
  step := enclosed_step
  last _ := .one fun _ => rfl
  shrink M := shrink_enclosedRound (.refl M item) htakes

theorem isLoop_untilEnd : IsLoop (untilEndRound item) (untilEnd item) where
  step _ := rfl
  last _ := .one fun _ => rfl
  shrink _ _ _ _ _ hnext _ := .ifAtEnd _ (.after htakes fun _ => hnext _)

variable {n n' : Nat} (hn : M ≤ n + 1) (hn' : M ≤ n')
include h hn hn'

theorem AgreeBelow.separated : AgreeBelow M (separated closing item n) (separated closing item' n') := by
  refine AgreeBelow.ifEat (.refl _ _) ?_ closing
  rw [eq_unrolled separatedFrom_step n']
  exact (isLoop_separatedFrom htakes).agree (shrink_separatedRound h htakes) (Nat.le_refl M) hn hn' _ []

theorem AgreeBelow.enclosed (found : List α) :
    AgreeBelow M (enclosed closing item n found) (enclosed closing item' n' found) := by
  rw [eq_unrolled enclosed_step n']
  exact (isLoop_enclosed htakes).agree (shrink_enclosedRound h htakes) (Nat.le_refl M) hn hn' _ found

end Items

/-! ## Nothing left -/

/-- Where nothing is left, all alternatives fail at the same place. -/
theorem choice_nil {rules : List (Rule α)} {stop : Position}
    (h : ∀ rule ∈ rules, ∃ wanted rest, rule stop [] = .fail (mismatch wanted stop []) rest) (expected : String) :
    choice expected rules stop [] = .fail (mismatch expected stop []) [] := by
  rw [choice]
  induction rules with
  | nil => rfl
  | cons rule rules ih =>
    obtain ⟨wanted, rest, hfail⟩ := h rule (List.mem_cons_self ..)
    have hsame : ¬ (mismatch expected stop []).position < (mismatch wanted stop []).position := Position.lt_irrefl stop
    simp only [firstOf, hfail, if_neg hsame]
    exact ih fun rule hmem => h rule (List.mem_cons_of_mem _ hmem)

end Rule

namespace Grammar

open Rule

variable {e e' l l' : Rule Expr} {M n n' : Nat}

/-! ## Expressions -/

theorem parenthesized_agree (h : AgreeBelow M e e') : AgreeBelow (M + 1) (parenthesized e) (parenthesized e') :=
  .after (takes_expect _) fun _ => h.bind_left _

theorem labelledArgument_agree (h : AgreeBelow M e e') : AgreeBelow M (labelledArgument e) (labelledArgument e') :=
  .after takes_name.weaken fun _ => .after (takes_expect _).weaken fun _ => h.bind_left _

section Nested

variable (h : AgreeBelow M e e') (htakes : e.Takes 1) (hn : M ≤ n + 1) (hn' : M ≤ n')
include h htakes hn hn'

theorem call_agree : AgreeBelow (M + 1) (call e n) (call e' n') :=
  .after takes_name fun _ => .after (takes_expect _).weaken fun _ => (h.separated htakes hn hn').bind_left _

theorem labelledCall_agree : AgreeBelow (M + 1) (labelledCall e n) (labelledCall e' n') :=
  .after takes_name fun _ => .after (takes_expect _).weaken fun _ =>
    ((labelledArgument_agree h).separated (takes_labelledArgument htakes) hn hn').bind_left _

theorem array_agree : AgreeBelow (M + 1) (array e n) (array e' n') :=
  .after (takes_expect _) fun _ => (h.separated htakes hn hn').bind_left _

/-- A primary comes to the expressions nested in it only after it has taken a lexeme. -/
theorem primary_agree : AgreeBelow (M + 1) (primary e n) (primary e' n') := by
  let pairs : List (Rule Expr × Rule Expr) :=
    [(parenthesized e, parenthesized e'), (integer, integer), (call e n, call e' n'),
      (labelledCall e n, labelledCall e' n'), (array e n, array e' n'), (boolean, boolean), (reference, reference)]
  refine AgreeBelow.choice pairs (fun pair hmem => ?_) "expression"
  simp only [pairs, List.mem_cons, List.not_mem_nil, or_false] at hmem
  rcases hmem with rfl | rfl | rfl | rfl | rfl | rfl | rfl
  · exact parenthesized_agree h
  · exact .refl _ _
  · exact call_agree h htakes hn hn'
  · exact labelledCall_agree h htakes hn hn'
  · exact array_agree h htakes hn hn'
  · exact .refl _ _
  · exact .refl _ _

theorem product_agree : AgreeBelow (M + 1) (product e n) (product e' n') :=
  (primary_agree h htakes hn hn').chain (takes_primary htakes n) hn hn'

theorem sum_agree : AgreeBelow (M + 1) (sum e n) (sum e' n') :=
  (product_agree h htakes hn hn').chain (takes_product htakes n) hn hn'

theorem comparison_agree : AgreeBelow (M + 1) (comparison e n) (comparison e' n') :=
  (sum_agree h htakes hn hn').chain (takes_sum htakes n) hn hn'

end Nested

def exprOver (beyond : Rule Expr) : Nat → Rule Expr
  | 0 => beyond
  | n + 1 => comparison (exprOver beyond n) n

theorem comparison_nil (e : Rule Expr) (n : Nat) (stop : Position) :
    comparison e n stop [] = .fail (mismatch "expression" stop []) [] := by
  have hprimary : primary e n stop [] = .fail (mismatch "expression" stop []) [] := by
    refine choice_nil (fun rule hmem => ?_) _
    simp only [List.mem_cons, List.not_mem_nil, or_false] at hmem
    rcases hmem with rfl | rfl | rfl | rfl | rfl | rfl | rfl <;> exact ⟨_, _, rfl⟩
  simp only [comparison, sum, product, chain, bind_apply, hprimary]

/-- Expressions are not nested deeper than there are lexemes. -/
theorem expr_agree (beyond : Rule Expr) (hn : M ≤ n + 1) (hn' : M ≤ n') :
    AgreeBelow M (expr n) (exprOver beyond n') := by
  induction n generalizing M n' with
  | zero =>
    rcases Nat.eq_zero_or_pos M with rfl | hM
    · exact .zero _ _
    obtain ⟨n', rfl⟩ := Nat.exists_eq_add_of_le' (Nat.le_trans hM hn')
    have hnil : AgreeBelow 1 (expr 0) (exprOver beyond (n' + 1)) := .one fun stop => (comparison_nil _ n' stop).symm
    exact hnil.mono hn
  | succ n ih =>
    cases M with
    | zero => exact .zero _ _
    | succ M =>
      obtain ⟨n', rfl⟩ := Nat.exists_eq_add_of_le' (show 1 ≤ n' by omega)
      exact comparison_agree (ih (by omega) (by omega)) (takes_expr n) (by omega) (by omega)

/-! ## Lines -/

section Lines

variable (h : AgreeBelow (M + 1) e e') (htakes : e.Takes 1) (hl : AgreeBelow M l l') (hltakes : l.Takes 1)
include h

theorem condition_agree : AgreeBelow M (parenthesized e) (parenthesized e') :=
  (parenthesized_agree h).mono (Nat.le_add_right M 2)

theorem printLine_agree : AgreeBelow (M + 1) (printLine e) (printLine e') :=
  .after (takes_expect _) fun _ => (condition_agree h).bind_left _

theorem assignLine_agree : AgreeBelow (M + 1) (assignLine e) (assignLine e') :=
  .after takes_name fun _ => .after (takes_expect _).weaken fun _ => (h.mono (Nat.le_succ M)).bind_left _

include htakes hl

theorem whileLine_agree : AgreeBelow (M + 1) (whileLine e l) (whileLine e' l') :=
  .after (takes_expect _) fun _ => (condition_agree h).bind (takes_parenthesized htakes).weaken fun _ => hl.bind_left _

theorem forLine_agree : AgreeBelow (M + 1) (forLine e l) (forLine e' l') := by
  have hexpr := h.mono (Nat.le_succ M)
  exact .after (takes_expect _) fun _ => .after (takes_expect _).weaken fun _ => .after takes_name.weaken fun _ =>
    .after (takes_expect _).weaken fun _ => hexpr.bind htakes.weaken fun _ => .after (takes_expect _).weaken fun _ =>
      hexpr.bind htakes.weaken fun _ => .after (takes_expect _).weaken fun _ => hl.bind_left _

include hltakes

theorem ifLine_agree : AgreeBelow (M + 1) (ifLine e l) (ifLine e' l') :=
  .after (takes_expect _) fun _ => (condition_agree h).bind (takes_parenthesized htakes).weaken fun _ =>
    hl.bind hltakes.weaken fun _ => (hl.bind_left _).ifEat (.refl _ _) _

omit h htakes in
theorem block_agree (hn : M ≤ n + 1) (hn' : M ≤ n') : AgreeBelow (M + 1) (block l n) (block l' n') :=
  .after (takes_expect _) fun _ => (hl.enclosed hltakes hn hn' []).bind_left _

/-- A line comes to the lines nested in it only after it has taken a lexeme. -/
theorem anyLine_agree (hn : M ≤ n + 1) (hn' : M ≤ n') : AgreeBelow (M + 1) (anyLine e l n) (anyLine e' l' n') := by
  let pairs : List (Rule Expr × Rule Expr) :=
    [(printLine e, printLine e'), (whileLine e l, whileLine e' l'), (ifLine e l, ifLine e' l'),
      (forLine e l, forLine e' l'), (assignLine e, assignLine e'), (exprLine e, exprLine e'),
      (block l n, block l' n')]
  refine AgreeBelow.choice pairs (fun pair hmem => ?_) "statement"
  simp only [pairs, List.mem_cons, List.not_mem_nil, or_false] at hmem
  rcases hmem with rfl | rfl | rfl | rfl | rfl | rfl | rfl
  · exact printLine_agree h
  · exact whileLine_agree h htakes hl
  · exact ifLine_agree h htakes hl hltakes
  · exact forLine_agree h htakes hl
  · exact assignLine_agree h
  · exact h.bind_left _
  · exact block_agree hl hltakes hn hn'

end Lines

def lineOver (beyondExpr beyond : Rule Expr) : Nat → Rule Expr
  | 0 => beyond
  | n + 1 => anyLine (exprOver beyondExpr (n + 1)) (lineOver beyondExpr beyond n) n

theorem anyLine_nil {stop : Position} (h : e stop [] = .fail (mismatch "expression" stop []) []) (l : Rule Expr)
    (n : Nat) : anyLine e l n stop [] = .fail (mismatch "statement" stop []) [] := by
  refine choice_nil (fun rule hmem => ?_) _
  simp only [List.mem_cons, List.not_mem_nil, or_false] at hmem
  rcases hmem with rfl | rfl | rfl | rfl | rfl | rfl | rfl
  case inr.inr.inr.inr.inr.inl => exact ⟨"expression", [], by simp only [exprLine, bind_apply, h]⟩
  all_goals exact ⟨_, _, rfl⟩

/-- Lines are not nested deeper than there are lexemes. -/
theorem line_agree (beyondExpr beyond : Rule Expr) (hn : M ≤ n + 1) (hn' : M ≤ n') :
    AgreeBelow M (line n) (lineOver beyondExpr beyond n') := by
  induction n generalizing M n' with
  | zero =>
    rcases Nat.eq_zero_or_pos M with rfl | hM
    · exact .zero _ _
    obtain ⟨n', rfl⟩ := Nat.exists_eq_add_of_le' (Nat.le_trans hM hn')
    have hnil : AgreeBelow 1 (line 0) (lineOver beyondExpr beyond (n' + 1)) :=
      .one fun stop => (anyLine_nil (comparison_nil _ n' stop) _ n').symm
    exact hnil.mono hn
  | succ n ih =>
    cases M with
    | zero => exact .zero _ _
    | succ M =>
      obtain ⟨n', rfl⟩ := Nat.exists_eq_add_of_le' (show 1 ≤ n' by omega)
      exact anyLine_agree (expr_agree beyondExpr (by omega) hn') (takes_expr (n + 1)) (ih (by omega) (by omega))
        (takes_line n) (by omega) (by omega)

/-! ## Definitions -/

def definitionOver (beyondExpr beyondLine : Rule Expr) (n : Nat) : Rule Definition :=
  choice "'global' or 'define'"
    [globalDefinition (exprOver beyondExpr n), functionDefinition (block (lineOver beyondExpr beyondLine n) n) n]

theorem globalDefinition_agree (h : AgreeBelow M e e') :
    AgreeBelow M (globalDefinition e) (globalDefinition e') :=
  .after (takes_expect _).weaken fun _ => .after takes_name.weaken fun _ => .after (takes_expect _).weaken fun _ =>
    h.bind_left _

theorem functionDefinition_agree {b b' : Rule Expr} (h : AgreeBelow M b b') (hn : M ≤ n + 1) (hn' : M ≤ n') :
    AgreeBelow M (functionDefinition b n) (functionDefinition b' n') :=
  .after (takes_expect _).weaken fun _ => .after takes_name.weaken fun _ => .after (takes_expect _).weaken fun _ =>
    (AgreeBelow.separated (.refl M name) takes_name hn hn').bind (takes_name.separated _ n) fun _ => h.bind_left _

theorem definition_agree (beyondExpr beyondLine : Rule Expr) (hn : M ≤ n + 1) (hn' : M ≤ n') :
    AgreeBelow M (definition n) (definitionOver beyondExpr beyondLine n') := by
  have hexpr := expr_agree beyondExpr hn hn'
  have hblock := (block_agree (line_agree beyondExpr beyondLine hn hn') (takes_line n) hn hn').mono (Nat.le_succ M)
  let pairs : List (Rule Definition × Rule Definition) :=
    [(globalDefinition (expr n), globalDefinition (exprOver beyondExpr n')),
      (functionDefinition (block (line n) n) n,
        functionDefinition (block (lineOver beyondExpr beyondLine n') n') n')]
  refine AgreeBelow.choice pairs (fun pair hmem => ?_) "'global' or 'define'"
  simp only [pairs, List.mem_cons, List.not_mem_nil, or_false] at hmem
  rcases hmem with rfl | rfl
  · exact globalDefinition_agree hexpr
  · exact functionDefinition_agree hblock hn hn'

/-! ## The rules that a reader applies -/

inductive Entry where
  | expr | comparison | sum | product | primary | line | block | definition

namespace Entry

def Result : Entry → Type
  | definition => Definition
  | _ => Expr

def among (expr line : Rule Expr) (definition : Rule Definition) (n : Nat) : (entry : Entry) → Rule entry.Result
  | .expr => expr
  | .comparison => Grammar.comparison expr n
  | .sum => Grammar.sum expr n
  | .product => Grammar.product expr n
  | .primary => Grammar.primary expr n
  | .line => line
  | .block => Grammar.block line n
  | .definition => definition

def rule (entry : Entry) (n : Nat) : Rule entry.Result :=
  entry.among (Grammar.expr n) (Grammar.line n) (Grammar.definition n) n

/-- The rule with anything in the place of the expressions and lines that are nested deeper than `n`. -/
def ruleOver (entry : Entry) (beyondExpr beyondLine : Rule Expr) (n : Nat) : Rule entry.Result :=
  entry.among (exprOver beyondExpr n) (lineOver beyondExpr beyondLine n) (definitionOver beyondExpr beyondLine n) n

def restores : Entry → Bool
  | primary | line | definition => true
  | expr | comparison | sum | product | block => false

theorem takes (entry : Entry) (n : Nat) : (entry.rule n).Takes 1 := by
  have hexpr := takes_expr n
  cases entry with
  | expr => exact hexpr
  | comparison => exact takes_comparison hexpr n
  | sum => exact takes_sum hexpr n
  | product => exact takes_product hexpr n
  | primary => exact takes_primary hexpr n
  | line => exact takes_line n
  | block => exact takes_block (takes_line n) n
  | definition => exact takes_definition n

theorem restores_rule {entry : Entry} (h : entry.restores = true) (n : Nat) : (entry.rule n).Restores := by
  cases entry with
  | primary | definition => exact restores_choice _ _
  | line => exact restores_line n
  | expr | comparison | sum | product | block => cases h

theorem agree (entry : Entry) (beyondExpr beyondLine : Rule Expr) (hn : M ≤ n + 1) (hn' : M ≤ n') :
    AgreeBelow M (entry.rule n) (entry.ruleOver beyondExpr beyondLine n') := by
  have hexpr := expr_agree beyondExpr hn hn'
  have hline := line_agree beyondExpr beyondLine hn hn'
  have htakes := takes_expr n
  cases entry with
  | expr => exact hexpr
  | comparison => exact (comparison_agree hexpr htakes hn hn').mono (Nat.le_succ M)
  | sum => exact (sum_agree hexpr htakes hn hn').mono (Nat.le_succ M)
  | product => exact (product_agree hexpr htakes hn hn').mono (Nat.le_succ M)
  | primary => exact (primary_agree hexpr htakes hn hn').mono (Nat.le_succ M)
  | line => exact hline
  | block => exact (block_agree hline (takes_line n) hn hn').mono (Nat.le_succ M)
  | definition => exact definition_agree beyondExpr beyondLine hn hn'

end Entry

end Grammar

open Grammar Rule in
/-- Wherever a reader stands in any lexemes, each rule comes to one result and leaves the reader at one
    place: with every bound that is not less than the number of lexemes ahead, and with anything at all
    in the place of what is nested deeper than that. With a value the reader has moved on and stands in
    the text. With an error it has not moved back, and for a primary, a line and a definition it has
    not moved.

    So all loops of the grammar end: of operators and operands, of items with commas between them, of
    lines up to a brace, and of lines and definitions up to the end of the text. -/
theorem rules_terminate_and_progress :
    (∀ (entry : Entry) (reader : Reader), ∃ result after,
      (∀ n, reader.rest.length ≤ n → reader.apply (entry.rule n) = (result, after)) ∧
      (∀ beyondExpr beyondLine n, reader.rest.length < n →
        reader.apply (entry.ruleOver beyondExpr beyondLine n) = (result, after)) ∧
      (∀ a, result = .ok a → reader.index < after.index ∧ after.index ≤ reader.size) ∧
      (∀ e, result = .error e → reader.index ≤ after.index ∧ after.index ≤ max reader.index reader.size ∧
        (entry.restores = true → after = reader))) ∧
    ∀ n accepted closing,
      (∀ operand ∈ [sum (expr n) n, product (expr n) n, primary (expr n) n],
        LoopEnds (chainRound accepted operand) (chainFrom accepted operand)) ∧
      LoopEnds (separatedRound closing (expr n)) (separatedFrom closing (expr n)) ∧
      LoopEnds (separatedRound closing (labelledArgument (expr n)))
        (separatedFrom closing (labelledArgument (expr n))) ∧
      LoopEnds (separatedRound closing name) (separatedFrom closing name) ∧
      LoopEnds (enclosedRound closing (line n)) (enclosed closing (line n)) ∧
      LoopEnds (untilEndRound (line n)) (untilEnd (line n)) ∧
      LoopEnds (untilEndRound (definition n)) (untilEnd (definition n)) := by
  refine ⟨fun entry reader => ?_, fun n accepted closing => ⟨fun operand hmem => ?_, ?_⟩⟩
  · have hover (n n' : Nat) (beyondExpr beyondLine : Rule Expr) (hn : reader.rest.length ≤ n)
        (hn' : reader.rest.length < n') :
        reader.apply (entry.rule n) = reader.apply (entry.ruleOver beyondExpr beyondLine n') :=
      Reader.apply_congr (entry.agree beyondExpr beyondLine (Nat.succ_le_succ hn) hn' _ _ (Nat.lt_succ_self _))
    obtain ⟨hok, herror⟩ := reader.apply_moves (entry.takes reader.rest.length)
    rcases hresult : reader.apply (entry.rule reader.rest.length) with ⟨result, after⟩
    rw [hresult] at hok herror
    refine ⟨result, after, fun n hn => ?_, fun beyondExpr beyondLine n hn => ?_, fun a ha => ?_, fun e he => ?_⟩
    · -- Both bounds are as good as one more level.
      have hmore := hover n (n + 1) (refuse "") (refuse "") hn (Nat.lt_succ_of_le hn)
      rw [hmore, ← hover _ (n + 1) _ _ (Nat.le_refl _) (Nat.lt_succ_of_le hn), hresult]
    · rw [← hover _ n _ _ (Nat.le_refl _) hn, hresult]
    · exact hok a after (by rw [ha])
    · obtain ⟨hge, hle⟩ := herror e after (by rw [he])
      exact ⟨hge, hle, fun hrestores => Reader.apply_restores (Entry.restores_rule hrestores _) (he ▸ hresult)⟩
  · simp only [List.mem_cons, List.not_mem_nil, or_false] at hmem
    rcases hmem with rfl | rfl | rfl
    · exact (isLoop_chainFrom (takes_sum (takes_expr n) n)).ends
    · exact (isLoop_chainFrom (takes_product (takes_expr n) n)).ends
    · exact (isLoop_chainFrom (takes_primary (takes_expr n) n)).ends
  · exact ⟨(isLoop_separatedFrom (takes_expr n)).ends,
      (isLoop_separatedFrom (takes_labelledArgument (takes_expr n))).ends, (isLoop_separatedFrom takes_name).ends,
      (isLoop_enclosed (takes_line n)).ends, (isLoop_untilEnd (takes_line n)).ends,
      (isLoop_untilEnd (takes_definition n)).ends⟩

def Reader.unclosed : Reader where
  lexemes :=
    { list := [⟨.mark .openBrace, 0, 1, ⟨1, 1⟩⟩, ⟨.identifier "x", 2, 3, ⟨1, 3⟩⟩, ⟨.mark .assign, 4, 5, ⟨1, 5⟩⟩,
        ⟨.mark .openBracket, 6, 7, ⟨1, 7⟩⟩, ⟨.integer 1, 7, 8, ⟨1, 8⟩⟩]
      stop := ⟨1, 9⟩ }
  index := 0

open Grammar in
theorem rules_terminate_and_progress_unclosed :
    ∃ e after, after.index = 1 ∧
      (∀ n, 5 ≤ n → Reader.unclosed.apply (Entry.block.rule n) = (.error e, after)) ∧
      ∀ beyondExpr beyondLine n, 5 < n →
        Reader.unclosed.apply (Entry.block.ruleOver beyondExpr beyondLine n) = (.error e, after) := by
  obtain ⟨result, after, hbound, hover, -, -⟩ := rules_terminate_and_progress.1 .block .unclosed
  have hfive := hbound 5 (by decide)
  have hafter : (Reader.unclosed.apply (Entry.block.rule 5)).2.index = 1 := by decide +kernel
  have hfails : (Reader.unclosed.apply (Entry.block.rule 5)).1.toOption.isNone = true := by decide +kernel
  rw [hfive] at hafter hfails
  cases result with
  | ok a => cases hfails
  | error e => exact ⟨e, after, hafter, hbound, hover⟩

end Scriptling
