/-
  Scriptling.Proofs.Grammar.Furthest — errors stand at the first token that cannot go on.

  Where the parser reports an error, the tokens up to and including the one that it blames begin no
  text without errors. The exception is a call that breaks off (`BrokenCall`): the parser then goes
  back to the name of the function and blames the opening mark after it, though a call could have
  gone on there.
  - `primary_settles`, `expr_settles`, `line_settles`, `definition_settles`: the rules of the grammar.
    At each choice the first two tokens leave one alternative.
  - `parse_error_furthest`: source texts.
-/

import Scriptling.Proofs.Grammar.Choice
import Scriptling.Proofs.Grammar.Viable

namespace Scriptling

namespace Grammar

open Rule

variable {n n' : Nat} {stop : Position}

/-! ## Expressions -/

theorem progresses_of_begins {rule : Rule Expr} {D : List Token → Expr → Prop} (h : rule.Gives fun _ => D)
    (hD : ∀ ts e, D ts e → BeginsWith beginsExpr ts) : rule.Progresses := by
  refine h.imp fun _ ts e hd hnil => ?_
  obtain ⟨_, _, hcons, -⟩ := hD ts e hd
  exact absurd (hnil.symm.trans hcons) (by simp)

section Primary

variable {expr expr' : Rule Expr} (hgives : expr.Gives fun _ => IsExpr) (h : Settles True expr expr' n n')

include h in
theorem parenthesized_settles : Settles False (parenthesized expr) (parenthesized expr') (n + 1) (n' + 1) := by
  refine settles_expectThen _ (h.bind (fun e => settles_expectReturn _ e) fun _ e => ?_)
  exact stops_expectThen (by simp [OpensCall]) _

include hgives h in
theorem items_settle (closing : Mark) (hclosing : ¬ OpensCall (some (.mark closing))) :
    Settles False (separated (.mark closing) expr n) (separated (.mark closing) expr' n') n n' :=
  h.separated hclosing (progresses_of_begins hgives fun _ _ => IsExpr.begins)

include hgives h in
theorem call_settles : Settles False (call expr n) (call expr' n') (n + 2) (n' + 2) :=
  settles_nameThen fun _ => settles_expectThen _
    ((items_settle hgives h .closeParen (by simp [OpensCall])).returning _)

include hgives h in
theorem labelledCall_settles : Settles False (labelledCall expr n) (labelledCall expr' n') (n + 2) (n' + 2) := by
  have hargument : Settles True (labelledArgument expr) (labelledArgument expr') (n + 2) (n' + 2) :=
    settles_nameThen fun _ => settles_expectThen _ (h.returning _)
  have hprogress : (labelledArgument expr).Progresses :=
    (labelledArgument_gives hgives).imp fun _ _ _ ha => by cases ha; simp
  have hargs : Settles False (separated (.mark .closeBracket) (labelledArgument expr) n)
      (separated (.mark .closeBracket) (labelledArgument expr') n') n n' :=
    (hargument.mono id (by omega) (by omega)).separated (by simp [OpensCall]) hprogress
  exact settles_nameThen fun _ => settles_expectThen _ (hargs.returning _)

include hgives h in
theorem array_settles : Settles False (array expr n) (array expr' n') (n + 1) (n' + 1) :=
  settles_expectThen _ ((items_settle hgives h .closeBracket (by simp [OpensCall])).returning _)

end Primary

section Name

variable {expr : Rule Expr} {lexeme : Lexeme} {more : List Lexeme} {f : String}
  (hname : lexeme.token = .identifier f)
  (hcall : ∃ e rest, call expr n stop (lexeme :: more) = .fail e rest)
  (hlabelled : ∃ e rest, labelledCall expr n stop (lexeme :: more) = .fail e rest)
include hname hcall hlabelled

/-- Where neither call can be read, the name is a variable. -/
theorem primary_eq_var : primary expr n stop (lexeme :: more) = .ok (.var f) more := by
  have hvar : reference stop (lexeme :: more) = .ok (.var f) more := by
    have hpick := name_picks.2 stop lexeme more
    rw [hname] at hpick
    simp only [reference, bind_apply, show name stop (lexeme :: more) = .ok f more from hpick, pure_apply]
  refine firstOf_ok [parenthesized expr, integer, call expr n, labelledCall expr n, array expr n, boolean] ?_ hvar [] _
  simp only [List.forall_mem_cons]
  refine ⟨?_, ?_, hcall, hlabelled, ?_, ?_, List.forall_mem_nil _⟩
  · exact (refuses_expect (by simp [hname])).bind _ stop _ rfl
  · exact integer_picks.refuses (by simp [hname, integerOf]) stop _ rfl
  · exact (refuses_expect (by simp [hname])).bind _ stop _ rfl
  · exact boolean_picks.refuses (by simp [hname, booleanOf]) stop _ rfl

/-- What can be derived there is no call. -/
theorem eq_name_of_isPrimary (hcovers : expr.Covers (fun next ts e => IsExpr ts e ∧ EndsExpr next) n)
    (hlen : more.length ≤ n) {ts us : List Token} {e : Expr} (hts : .identifier f :: tokens more = ts ++ us)
    (hd : IsPrimary ts e) : ts = [.identifier f] := by
  have hinput : tokens (lexeme :: more) = ts ++ us := by rw [tokens_cons, hname, hts]
  have hbound := congrArg List.length hts
  simp only [List.length_cons, length_tokens, List.length_append] at hbound
  cases hd with
  | @call f' ts' es hs =>
    simp only [List.length_append, List.length_cons] at hbound
    have hargs := reads_items hcovers .closeParen (endsExpr_mark (by simp) (by simp)) (by simp) hs (by omega) us
    have hread : (Grammar.call expr n).Reads (.identifier f' :: .mark .openParen :: ts' ++ [.mark .closeParen])
        (.call f' es) us := reads_nameThen ((hargs.returning _).expectThen _)
    obtain ⟨_, -, hok⟩ := hread stop _ hinput
    obtain ⟨_, _, hfail⟩ := hcall
    cases hfail.symm.trans hok
  | @labelledCall f' ts' es hs =>
    simp only [List.length_append, List.length_cons] at hbound
    have hargs := reads_arguments hcovers hs (by omega) us
    have hread : (Grammar.labelledCall expr n).Reads
        (.identifier f' :: .mark .openBracket :: ts' ++ [.mark .closeBracket]) (.labelledCall f' es) us :=
      reads_nameThen ((hargs.returning _).expectThen _)
    obtain ⟨_, -, hok⟩ := hread stop _ hinput
    obtain ⟨_, _, hfail⟩ := hlabelled
    cases hfail.symm.trans hok
  | var x =>
    rw [(List.cons.inj hts).1]
  | group _ | integer _ | array _ | boolTrue | boolFalse => simp at hts

end Name

def primaryKind : List Token → Nat
  | .mark .openParen :: _ => 0
  | .integer _ :: _ => 1
  | .identifier _ :: .mark .openParen :: _ => 2
  | .identifier _ :: .mark .openBracket :: _ => 3
  | .mark .openBracket :: _ => 4
  | .keyword .true_ :: _ => 5
  | .keyword .false_ :: _ => 5
  | _ => 6

theorem primaryKind_lt (ts : List Token) : primaryKind ts < 7 := by
  unfold primaryKind
  split <;> decide

theorem call_of_primaryKind {ts : List Token} (h : primaryKind ts = 2 ∨ primaryKind ts = 3) :
    ∃ f us, ts = .identifier f :: us ∧ OpensCall us.head? := by
  unfold primaryKind at h
  split at h
  case h_3 f us => exact ⟨f, _, rfl, .inl rfl⟩
  case h_4 f us => exact ⟨f, _, rfl, .inr rfl⟩
  all_goals omega

theorem primaryKind_of_name (f : String) (us : List Token) :
    primaryKind (.identifier f :: us) = 2 ∨ primaryKind (.identifier f :: us) = 3 ∨
      primaryKind (.identifier f :: us) = 6 := by
  unfold primaryKind
  split <;> simp_all

section Primary

variable {expr expr' : Rule Expr} {input : List Lexeme}

def primaryPairs (expr expr' : Rule Expr) (n n' : Nat) : List (Rule Expr × Rule Expr) :=
  [(parenthesized expr, parenthesized expr'), (integer, integer), (call expr n, call expr' n'),
    (labelledCall expr n, labelledCall expr' n'), (array expr n, array expr' n'), (boolean, boolean),
    (reference, reference)]

/-- All alternatives but the one left and the last balk. -/
theorem primary_balks {bound : Nat} {i : Nat} {p : Rule Expr × Rule Expr}
    (hp : (primaryPairs expr expr' n n')[i]? = some p) (hi : i ≠ primaryKind (tokens input)) (hlast : i < 6) :
    Balks p.1 p.2 bound stop input := by
  have hhead {t : Token} (hne : ∀ us, primaryKind (t :: us) = i) : (tokens input).head? ≠ some t := by
    intro heq
    obtain ⟨us, hus⟩ := List.head?_eq_some_iff.mp heq
    exact hi (by rw [hus, hne])
  match i, hp with
  | 0, hp =>
    cases hp
    exact balks_expectThen (hhead fun _ => rfl) _ _
  | 1, hp =>
    cases hp
    refine integer_picks.balks integer_picks (integer_blames rfl) (Option.bind_eq_none_iff.mpr fun t ht => ?_)
    unfold integerOf
    split
    · exact absurd ht (hhead fun _ => rfl)
    · rfl
  | 2, hp =>
    cases hp
    exact balks_nameExpectThen (fun x us heq => hi (by rw [heq]; rfl)) _ _
  | 3, hp =>
    cases hp
    exact balks_nameExpectThen (fun x us heq => hi (by rw [heq]; rfl)) _ _
  | 4, hp =>
    cases hp
    exact balks_expectThen (hhead fun _ => rfl) _ _
  | 5, hp =>
    cases hp
    refine boolean_picks.balks boolean_picks (boolean_blames rfl) (Option.bind_eq_none_iff.mpr fun t ht => ?_)
    unfold booleanOf
    split
    · exact absurd ht (hhead fun _ => rfl)
    · exact absurd ht (hhead fun _ => rfl)
    · rfl

variable (hgives : expr.Gives fun _ => IsExpr)
  (hcovers : expr.Covers (fun next ts e => IsExpr ts e ∧ EndsExpr next) n) (h : Settles True expr expr' n n')
include hgives hcovers h

/-- The first two tokens leave one alternative. A call that fails leaves the variable as well, which
    is loose there. -/
theorem primary_settles : Settles True (primary expr n) (primary expr' n') (n + 1) (n' + 1) := by
  intro stop input hlen hin
  have hprogress := progresses_of_begins (primary_gives hgives n) fun _ _ => IsPrimary.begins
  have hsettled (i : Nat) (p : Rule Expr × Rule Expr) (hp : (primaryPairs expr expr' n n')[i]? = some p) :
      Settled True p.2 (n' + 1) stop input (p.1 stop input) := by
    have use {rule other : Rule Expr} {m m' : Nat} (hrule : Settles False rule other m m') (hm : n + 1 ≤ m)
        (hm' : n' + 1 ≤ m') : Settled True other (n' + 1) stop input (rule stop input) :=
      hrule.mono False.elim hm hm' stop input hlen hin
    match i, hp with
    | 0, hp => cases hp; exact use (parenthesized_settles h) (by omega) (by omega)
    | 1, hp => cases hp; exact integer_picks.settles integer_picks (integer_blames rfl) stop input hlen hin
    | 2, hp => cases hp; exact use (call_settles hgives h) (by omega) (by omega)
    | 3, hp => cases hp; exact use (labelledCall_settles hgives h) (by omega) (by omega)
    | 4, hp => cases hp; exact use (array_settles hgives h) (by omega) (by omega)
    | 5, hp => cases hp; exact boolean_picks.settles boolean_picks (boolean_blames rfl) stop input hlen hin
    | 6, hp => cases hp; exact (settles_nameThen fun x => settles_pure (Expr.var x)) stop input hlen hin
  have hlt : primaryKind (tokens input) < (primaryPairs expr expr' n n').length := primaryKind_lt _
  have hk := List.getElem?_eq_getElem hlt
  by_cases hcalls : primaryKind (tokens input) = 2 ∨ primaryKind (tokens input) = 3
  · cases hr : ((primaryPairs expr expr' n n').get ⟨primaryKind (tokens input), hlt⟩).1 stop input with
    | ok e rest =>
      refine settled_choice_first (primaryPairs expr expr' n n') hk (fun i q hq hi => ?_) hr hprogress (hsettled _ _ hk)
      exact primary_balks hq (by omega) (by omega)
    | fail e rest =>
      -- The other kind of call balks, so that the variable is all that is left.
      have hfails (i : Nat) (q : Rule Expr × Rule Expr) (hq : (primaryPairs expr expr' n n')[i]? = some q)
          (hi : i < 6) : ∃ e rest, q.1 stop input = .fail e rest := by
        by_cases heq : i = primaryKind (tokens input)
        · subst heq
          obtain rfl := Option.some.inj (hq.symm.trans hk)
          exact ⟨e, rest, hr⟩
        · have hbalks : Balks q.1 q.2 0 stop input := primary_balks hq heq hi
          exact hbalks.fails
      obtain ⟨f, us, hus, hopen⟩ := call_of_primaryKind hcalls
      obtain ⟨lexeme, more, rfl, hname, rfl⟩ := tokens_eq_cons_iff.mp hus
      have hcall := hfails 2 _ rfl (by decide)
      have hlabelled := hfails 3 _ rfl (by decide)
      rw [primary_eq_var hname hcall hlabelled]
      refine ⟨[lexeme], rfl, .inr ⟨trivial, [], f, by rw [tokens_cons, hname]; rfl, hopen, fun ts us e hts hd => ?_⟩⟩
      exact eq_name_of_isPrimary hname hcall hlabelled hcovers (by simpa using hlen) hts hd
  · refine settled_choice (primaryPairs expr expr' n n') hk hin (fun i q hq hi => ?_) hprogress (hsettled _ _ hk)
    by_cases hlast : i < 6
    · exact primary_balks hq hi hlast
    · have hbound : i < 7 := (List.getElem?_eq_some_iff.mp hq).1
      obtain rfl : i = 6 := by omega
      cases hq
      refine balks_nameThen (fun x hx => ?_) _ _
      obtain ⟨us, hus⟩ := List.head?_eq_some_iff.mp hx
      have hkind := primaryKind_of_name x us
      rw [← hus] at hkind
      omega

end Primary

theorem expr_progresses (n : Nat) : (expr n).Progresses := (takes_expr n).progresses

/-- A chain may end in a name as its last operand may. -/
theorem expr_settles (n n' : Nat) : Settles True (expr n) (expr n') n n' := by
  induction n generalizing n' with
  | zero => exact settles_refuse_nil _ (expr_progresses n')
  | succ n ih =>
    have htakes := takes_expr n
    refine Settles.of_succ (fun n' => ?_) n'
    have hprimary := primary_settles (expr_gives n) (expr_covers n) (ih n')
    have hproduct : Settles True (product (expr n) n) (product (expr n') n') (n + 1) (n' + 1) :=
      hprimary.chain (takes_primary htakes n).progresses
    have hsum : Settles True (sum (expr n) n) (sum (expr n') n') (n + 1) (n' + 1) :=
      hproduct.chain (takes_product htakes n).progresses
    exact hsum.chain (takes_sum htakes n).progresses

theorem refuses_expr_of_head (n : Nat) {us : List Token} (h : ∀ t, us.head? = some t → beginsExpr t = false) :
    (expr n).Refuses us := by
  cases us with
  | nil =>
    intro stop input hi
    obtain rfl := tokens_eq_nil_iff.mp hi
    exact (expr_progresses n).fails_nil stop
  | cons t us => exact refuses_expr n (h t rfl) us

/-- Where no expression begins, the first token is blamed: nothing else can have been read. -/
theorem expr_balks {input : List Lexeme} {bound : Nat}
    (hno : ∀ t, (tokens input).head? = some t → beginsExpr t = false) : Balks (expr n) (expr n') bound stop input := by
  obtain ⟨e, rest, hfail⟩ := refuses_expr_of_head n hno stop input rfl
  obtain ⟨read, left, expected, rfl, ⟨us, a, -, hd⟩, rfl⟩ := (expr_blames n).blames hfail
  cases read with
  | nil =>
    refine ⟨[], left, ⟨rfl, expected, rest, hfail⟩, Nat.zero_le _, fun us hus _ => refuses_expr_of_head n' ?_⟩
    rw [tokens_nil, List.nil_append, hus]
    exact hno
  | cons lexeme read =>
    obtain ⟨first, more, heq, hbegins⟩ := hd.begins
    obtain ⟨rfl, -⟩ := List.cons.inj heq
    rw [hno _ rfl] at hbegins
    cases hbegins

/-! ## Lines -/

section Line

variable {expr expr' line line' : Rule Expr} (hexpr : Settles True expr expr' (n + 1) (n' + 1))
  (hline : Settles False line line' n n')

include hexpr in
theorem condition_settles : Settles False (parenthesized expr) (parenthesized expr') n n' :=
  (parenthesized_settles hexpr).mono id (by omega) (by omega)

include hexpr in
theorem printLine_settles : Settles False (printLine expr) (printLine expr') (n + 1) (n' + 1) :=
  settles_expectThen _ ((condition_settles hexpr).bind (fun _ => settles_expectReturn _ _) False.elim)

include hexpr hline in
theorem whileLine_settles : Settles False (whileLine expr line) (whileLine expr' line') (n + 1) (n' + 1) :=
  settles_expectThen _ ((condition_settles hexpr).bind (fun _ => hline.returning _) False.elim)

include hexpr hline in
theorem ifLine_settles : Settles False (ifLine expr line) (ifLine expr' line') (n + 1) (n' + 1) := by
  refine settles_expectThen _ ((condition_settles hexpr).bind (fun c => ?_) False.elim)
  exact hline.bind (fun b => (hline.returning _).ifEat _ (settles_pure _)) False.elim

include hexpr hline in
theorem forLine_settles : Settles False (forLine expr line) (forLine expr' line') (n + 1) (n' + 1) := by
  have hbound := hexpr.mono id (Nat.le_succ n) (Nat.le_succ n')
  have hstops (t : Token) (ht : ¬ OpensCall (some t)) (f : Expr → Unit → Rule Expr) (_ : True) (e : Expr) :
      Stops False (expect t >>= f e) := stops_expectThen ht _
  refine settles_expectThen _ (Settles.afterExpect (settles_afterName fun x => Settles.afterExpect ?_ _) _)
  refine hbound.bind (fun first => Settles.afterExpect ?_ _) (hstops _ (by simp [OpensCall]) _)
  exact hbound.bind (fun bound => (hline.returning _).afterExpect _) (hstops _ (by simp [OpensCall]) _)

include hexpr in
theorem assignLine_settles : Settles False (assignLine expr) (assignLine expr') (n + 1) (n' + 1) := by
  refine settles_afterName fun x => Settles.afterExpect ?_ _
  exact hexpr.bind (fun v => settles_expectReturn _ _) fun _ v => stops_expectThen (by simp [OpensCall]) _

include hexpr in
theorem exprLine_settles : Settles False (exprLine expr) (exprLine expr') (n + 1) (n' + 1) :=
  hexpr.bind (fun _ => settles_expectReturn _ _) fun _ _ => stops_expectThen (by simp [OpensCall]) _

include hline in
theorem block_settles (hprogress : line.Progresses) :
    Settles False (block line n) (block line' n') (n + 1) (n' + 1) :=
  settles_expectThen _
    ((settles_enclosed hline hprogress n n' (Nat.le_refl _) (Nat.le_refl _) []).returning _)

end Line

/-- An assignment, read as an expression, ends after the name. -/
theorem exprLine_balks {x : String} {ts : List Token} {input : List Lexeme} {bound : Nat}
    (h : tokens input = .identifier x :: .mark .assign :: ts) :
    Balks (exprLine (expr (n + 1))) (exprLine (expr (n' + 1))) bound stop input := by
  have hreads (m : Nat) {us : List Token} (hus : us.head? = some (.mark .assign)) :
      (expr (m + 1)).Reads [.identifier x] (.var x) us :=
    expr_covers (m + 1) _ us _ ⟨(IsPrimary.var x).isExpr, by rw [hus]; exact endsExpr_mark (by simp) (by simp)⟩
      (by simp)
  obtain ⟨lexeme, more, rfl, hx, hmore⟩ := tokens_eq_cons_iff.mp h
  have hnext : (tokens more).head? = some (.mark .assign) := by rw [hmore]; rfl
  obtain ⟨rest, hrest, hread⟩ := hreads n hnext stop (lexeme :: more) (by rw [tokens_cons, hx]; rfl)
  obtain rfl : rest = more := by
    obtain ⟨read, hsplit⟩ := (expr_blames (n + 1)).leaves hread
    have hlen := congrArg List.length hrest
    simp only [length_tokens] at hlen
    exact (List.append_inj' (show [lexeme] ++ more = read ++ rest from hsplit) hlen.symm).2.symm
  refine ⟨[lexeme], rest, ⟨rfl, (Token.mark .semicolon).describe, rest, ?_⟩, Nat.le_refl _, fun us hus _ => ?_⟩
  · have hstop : (tokens rest).head? ≠ some (.mark .semicolon) := by simp [hnext]
    simp only [exprLine, bind_apply, hread, expect_fails hstop]
  · rw [hnext] at hus
    rw [tokens_cons, hx]
    exact (hreads n' hus).bind_refuses ((refuses_expect (by simp [hus])).bind _)

def lineKind : List Token → Nat
  | .keyword .println_ :: _ => 0
  | .keyword .while_ :: _ => 1
  | .keyword .if_ :: _ => 2
  | .keyword .for_ :: _ => 3
  | .identifier _ :: .mark .assign :: _ => 4
  | .mark .openBrace :: _ => 6
  | _ => 5

theorem lineKind_lt (ts : List Token) : lineKind ts < 7 := by
  unfold lineKind
  split <;> decide

def linePairs (n n' : Nat) : List (Rule Expr × Rule Expr) :=
  [(printLine (expr (n + 1)), printLine (expr (n' + 1))),
    (whileLine (expr (n + 1)) (line n), whileLine (expr (n' + 1)) (line n')),
    (ifLine (expr (n + 1)) (line n), ifLine (expr (n' + 1)) (line n')),
    (forLine (expr (n + 1)) (line n), forLine (expr (n' + 1)) (line n')),
    (assignLine (expr (n + 1)), assignLine (expr (n' + 1))),
    (exprLine (expr (n + 1)), exprLine (expr (n' + 1))), (block (line n) n, block (line n') n')]

/-- All alternatives but the one left balk. -/
theorem line_balks {bound : Nat} {input : List Lexeme} {i : Nat} {p : Rule Expr × Rule Expr}
    (hp : (linePairs n n')[i]? = some p) (hi : i ≠ lineKind (tokens input)) : Balks p.1 p.2 bound stop input := by
  have hhead {t : Token} (hne : ∀ us, lineKind (t :: us) = i) : (tokens input).head? ≠ some t := by
    intro heq
    obtain ⟨us, hus⟩ := List.head?_eq_some_iff.mp heq
    exact hi (by rw [hus, hne])
  match i, hp with
  | 0, hp => cases hp; exact balks_expectThen (hhead fun _ => rfl) _ _
  | 1, hp => cases hp; exact balks_expectThen (hhead fun _ => rfl) _ _
  | 2, hp => cases hp; exact balks_expectThen (hhead fun _ => rfl) _ _
  | 3, hp => cases hp; exact balks_expectThen (hhead fun _ => rfl) _ _
  | 4, hp => cases hp; exact balks_nameExpectThen (fun x us heq => hi (by rw [heq]; rfl)) _ _
  | 5, hp =>
    cases hp
    have hno {t : Token} {us : List Token} (hts : tokens input = t :: us) (ht : beginsExpr t = false) :
        Balks (exprLine (expr (n + 1))) (exprLine (expr (n' + 1))) bound stop input := by
      refine Balks.bind (expr_balks fun t' ht' => ?_) _ _
      rw [hts] at ht'
      cases ht'
      exact ht
    unfold lineKind at hi
    split at hi
    case h_5 heq => exact exprLine_balks heq
    case h_7 => exact absurd rfl hi
    all_goals exact hno (by assumption) rfl
  | 6, hp => cases hp; exact balks_expectThen (hhead fun _ => rfl) _ _

theorem line_progresses (n : Nat) : (line n).Progresses := (takes_line n).progresses

/-- What a line answers is settled, since it never ends in a name. -/
theorem line_settles (n n' : Nat) : Settles False (line n) (line n') n n' := by
  induction n generalizing n' with
  | zero => exact settles_refuse_nil _ (line_progresses n')
  | succ n ih =>
    refine Settles.of_succ (fun n' => ?_) n'
    intro stop input hlen hin
    have hexpr := expr_settles (n + 1) (n' + 1)
    have hsettled (i : Nat) (p : Rule Expr × Rule Expr) (hp : (linePairs n n')[i]? = some p) :
        Settled False p.2 (n' + 1) stop input (p.1 stop input) := by
      match i, hp with
      | 0, hp => cases hp; exact printLine_settles hexpr stop input hlen hin
      | 1, hp => cases hp; exact whileLine_settles hexpr (ih n') stop input hlen hin
      | 2, hp => cases hp; exact ifLine_settles hexpr (ih n') stop input hlen hin
      | 3, hp => cases hp; exact forLine_settles hexpr (ih n') stop input hlen hin
      | 4, hp => cases hp; exact assignLine_settles hexpr stop input hlen hin
      | 5, hp => cases hp; exact exprLine_settles hexpr stop input hlen hin
      | 6, hp => cases hp; exact block_settles (ih n') (line_progresses n) stop input hlen hin
    have hlt : lineKind (tokens input) < (linePairs n n').length := lineKind_lt _
    have hk := List.getElem?_eq_getElem hlt
    exact settled_choice (linePairs n n') hk hin (fun i q hq hi => line_balks hq hi) (line_progresses (n + 1))
      (hsettled _ _ hk)

/-! ## Definitions -/

theorem definition_progresses (n : Nat) : (definition n).Progresses := (takes_definition n).progresses

theorem globalDefinition_settles (n n' : Nat) :
    Settles False (globalDefinition (expr n)) (globalDefinition (expr n')) n n' := by
  refine Settles.afterExpect (settles_afterName fun x => Settles.afterExpect ?_ _) _
  exact (expr_settles n n').bind (fun v => settles_expectReturn _ _) fun _ v =>
    stops_expectThen (by simp [OpensCall]) _

theorem functionDefinition_settles (n n' : Nat) :
    Settles False (functionDefinition (block (line n) n) n) (functionDefinition (block (line n') n') n') n n' := by
  have hname : Settles False name name n n' := name_picks.settles name_picks (name_blames rfl)
  have hparams : Settles False (separated (.mark .closeParen) name n) (separated (.mark .closeParen) name n') n n' :=
    hname.separated (by simp [OpensCall]) takes_name.progresses
  have hblock := (block_settles (line_settles n n') (line_progresses n)).mono id (Nat.le_succ n) (Nat.le_succ n')
  refine Settles.afterExpect (settles_afterName fun f => Settles.afterExpect ?_ _) _
  exact hparams.bind (fun params => hblock.returning _) False.elim

/-- The keyword tells definitions apart. -/
theorem definition_settles (n n' : Nat) : Settles False (definition n) (definition n') n n' := by
  intro stop input hlen hin
  let pairs := [(globalDefinition (expr n), globalDefinition (expr n')),
    (functionDefinition (block (line n) n) n, functionDefinition (block (line n') n') n')]
  by_cases hglobal : (tokens input).head? = some (.keyword .global_)
  · refine settled_choice pairs (k := 0) rfl hin (fun i q hq hi => ?_) (definition_progresses n)
      (globalDefinition_settles n n' stop input hlen hin)
    match i, hq with
    | 0, _ => exact absurd rfl hi
    | 1, hq => cases hq; exact balks_expectThen (by simp [hglobal]) _ _
  · refine settled_choice pairs (k := 1) rfl hin (fun i q hq hi => ?_) (definition_progresses n)
      (functionDefinition_settles n n' stop input hlen hin)
    match i, hq with
    | 0, hq => cases hq; exact balks_expectThen hglobal _ _
    | 1, _ => exact absurd rfl hi

/-! ## Whole texts -/

theorem wholeExpr_settles (n n' : Nat) : Settles False (wholeExpr n) (wholeExpr n') n n' := by
  have hend : Settles False expectEnd expectEnd n n' := (settles_pure ()).ifAtEnd (settles_refuse _)
  refine (expr_settles n n').bind (fun e => hend.returning _) fun _ e stop input hopen => ?_
  cases input with
  | nil => rcases hopen with h | h <;> cases h
  | cons lexeme more => exact .inl ⟨"end of input", _, rfl⟩

theorem wholeLines_settles (n n' : Nat) : Settles False (wholeLines n) (wholeLines n') n n' :=
  (line_settles n n').bind
    (fun first => settles_untilEnd (line_settles n n') (line_progresses n) n n' (Nat.le_refl _) (Nat.le_refl _) [first])
    False.elim

theorem wholeProgram_settles (n n' : Nat) : Settles False (wholeProgram n) (wholeProgram n') n n' :=
  settles_untilEnd (definition_settles n n') (definition_progresses n) n n' (Nat.le_refl _) (Nat.le_refl _) []

/-! ## Whole texts with room to spare -/

theorem wholeExpr_reads {N : Nat} {ts : List Token} {e : Expr} (h : IsExpr ts e) (hN : ts.length ≤ N) :
    (wholeExpr N).Reads ts e [] := by
  have hread : (expr N).Reads ts e ([] ++ []) := expr_covers N ts [] e ⟨h, by simp [EndsExpr, EndsPrimary]⟩ hN
  have hend : Reads (do expectEnd; pure e) [] e [] := by
    intro stop input hi
    obtain rfl := tokens_eq_nil_iff.mp hi
    exact ⟨[], rfl, rfl⟩
  have hgo : (wholeExpr N).Reads (ts ++ []) e [] := hread.bind hend
  rwa [List.append_nil] at hgo

theorem wholeLines_reads {N : Nat} {ts : List Token} {lines : List Expr} (h : IsText ts lines) (hN : ts.length ≤ N) :
    (wholeLines N).Reads ts lines [] := by
  obtain ⟨hne, hs⟩ := h
  cases hs with
  | nil => exact absurd rfl hne
  | @cons ts us e es hd hs =>
    rw [List.length_append] at hN
    have hfirst : (line N).Reads ts e (us ++ []) := line_covers N ts _ e (by simpa [after] using hd) (by omega)
    exact hfirst.bind ((line_covers N).untilEnd not_isLine_nil hs (by omega) (by omega) [e])

theorem wholeProgram_reads {N : Nat} {ts : List Token} {program : Program} (h : IsProgram ts program)
    (hN : ts.length ≤ N) : (wholeProgram N).Reads ts program [] := by
  refine (definition_covers N).untilEnd (fun _ d hd => ?_) h hN hN []
  obtain ⟨_, _, heq⟩ := IsDefinition.begins hd
  cases heq

end Grammar

/-! ## Source texts -/

/-- The tokens up to and including the one with the index `k` begin no text that is parsed; after the
    last of them, no text that is parsed has just these tokens. -/
def DeadEnd {α : Type} (parse : String → Except SyntaxError α) (ts : List Token) (k : Nat) : Prop :=
  (k < ts.length → ¬ Viable parse (ts.take (k + 1))) ∧ (k = ts.length → ¬ Accepts parse ts)

/-- A call breaks off after the name of its function, though the opening mark could go on. -/
def DroppedCall {α : Type} (parse : String → Except SyntaxError α) (ts : List Token) (k : Nat) : Prop :=
  Grammar.BrokenCall (ts.take k) (ts.drop k) ∧ Viable parse (ts.take (k + 1))

section Read

variable {α : Type} {rule : Nat → Rule α} {D : List Token → α → Prop}
  (accepts : ∀ stop input a, (∃ rest, rule input.length stop input = .ok a rest) ↔ D (tokens input) a)
include accepts

theorem derives_of_accepts {ts : List Token} (h : Accepts (Rule.read rule) ts) : ∃ a, D ts a := by
  obtain ⟨source, lexemes, a, hscan, rfl, hread⟩ := h
  exact ⟨a, (accepts _ _ _).mp ((Rule.read_eq_ok_iff hscan).mp hread)⟩

/-- Tokens before which nothing can be derived, whatever comes after the next one, are a dead end. -/
theorem deadEnd_of_not_derives {read left : List Token}
    (h : ∀ us a, us.head? = left.head? → ¬ D (read ++ us) a) : DeadEnd (Rule.read rule) (read ++ left) read.length := by
  constructor
  · intro hlt hviable
    obtain ⟨us, hus⟩ := hviable
    obtain ⟨a, hd⟩ := derives_of_accepts accepts hus
    cases left with
    | nil => simp at hlt
    | cons t left =>
      rw [List.take_length_add_append, List.take_succ_cons, List.take_zero, List.append_assoc] at hd
      exact h (t :: us) a rfl hd
  · intro hlen haccepts
    obtain ⟨a, hd⟩ := derives_of_accepts accepts haccepts
    exact h left a rfl hd

theorem Rule.read_furthest (hreads : ∀ N ts a, D ts a → ts.length ≤ N → (rule N).Reads ts a [])
    (hsettles : ∀ n n', Rule.Settles False (rule n) (rule n') n n') {source : String} {lexemes : Lexemes}
    (scanned : Lexeme.scan source = .ok lexemes) {e : SyntaxError} (h : Rule.read rule source = .error e) :
    ∃ k, e.At source lexemes.list k ∧
      (DeadEnd (Rule.read rule) (tokens lexemes.list) k ∨ DroppedCall (Rule.read rule) (tokens lexemes.list) k) := by
  obtain ⟨rest, hfail⟩ := Rule.fail_of_read scanned h
  have hin := Lexeme.scan_inOrder scanned
  have hanswer (n' : Nat) := hsettles lexemes.list.length n' _ _ (Nat.le_refl _) hin
  simp only [hfail] at hanswer
  obtain ⟨read, left, expected, hinput, rfl, -⟩ := hanswer 0
  refine ⟨read.length, SyntaxError.at_mismatch scanned hinput expected, ?_⟩
  have htokens : tokens lexemes.list = tokens read ++ tokens left := by rw [hinput, tokens_append]
  rw [htokens, ← length_tokens read]
  by_cases hbroken : Grammar.BrokenCall (tokens read) (tokens left)
  · by_cases hviable : Viable (Rule.read rule) ((tokens read ++ tokens left).take ((tokens read).length + 1))
    · exact .inr ⟨by rwa [List.take_left, List.drop_left], hviable⟩
    · refine .inl ⟨fun _ => hviable, fun hlen => absurd hbroken ?_⟩
      rw [List.length_append, Nat.left_eq_add, List.length_eq_zero_iff] at hlen
      rw [hlen]
      exact Grammar.not_brokenCall_nil _
  refine .inl (deadEnd_of_not_derives accepts fun us a hus hd => ?_)
  -- The place of the error does not depend on the text that it is compared with.
  obtain ⟨read', left', expected', hinput', he, hstuck⟩ := hanswer ((tokens read ++ us).length + 1)
  have hat : Rule.FailsAt (rule lexemes.list.length) lexemes.stop lexemes.list read left := ⟨hinput, _, _, hfail⟩
  obtain ⟨rfl, rfl⟩ := hat.eq ⟨hinput', expected', rest, he ▸ hfail⟩ hin
  rcases hstuck with hstuck | hbroken'
  · have hlen : (tokens read).length + us.length < (tokens read ++ us).length + 1 := by simp
    obtain ⟨_, _, hrefused⟩ := hstuck us hus hlen .start (Grammar.lexemesOf (tokens read ++ us)) (by simp)
    obtain ⟨_, -, hok⟩ := hreads _ _ _ hd (Nat.le_succ _) .start (Grammar.lexemesOf (tokens read ++ us)) (by simp)
    cases hrefused.symm.trans hok
  · exact hbroken hbroken'

end Read

open Grammar in
/-- An error of the parser stands at the first token that no text without errors can have there,
    unless it stands at the opening mark of a call that breaks off. -/
theorem parse_error_furthest {source : String} {lexemes : Lexemes} (scanned : Lexeme.scan source = .ok lexemes) :
    (∀ e, Expr.parse source = .error e → ∃ k, e.At source lexemes.list k ∧
      (DeadEnd Expr.parse (tokens lexemes.list) k ∨ DroppedCall Expr.parse (tokens lexemes.list) k)) ∧
    (∀ e, Expr.parseLines source = .error e → ∃ k, e.At source lexemes.list k ∧
      (DeadEnd Expr.parseLines (tokens lexemes.list) k ∨ DroppedCall Expr.parseLines (tokens lexemes.list) k)) ∧
    (∀ e, Program.parse source = .error e → ∃ k, e.At source lexemes.list k ∧
      (DeadEnd Program.parse (tokens lexemes.list) k ∨ DroppedCall Program.parse (tokens lexemes.list) k)) :=
  ⟨fun _ => Rule.read_furthest (fun _ _ _ => wholeExpr_ok_iff) (fun _ _ _ => wholeExpr_reads) wholeExpr_settles scanned,
    fun _ => Rule.read_furthest (fun _ _ _ => wholeLines_ok_iff) (fun _ _ _ => wholeLines_reads) wholeLines_settles
      scanned,
    fun _ => Rule.read_furthest (fun _ _ _ => wholeProgram_ok_iff) (fun _ _ _ => wholeProgram_reads)
      wholeProgram_settles scanned⟩

def brokenCall : String := "x = f(1, g[y = 2 3]);"

/-- Both calls are given up, and the error is at the first opening mark. -/
theorem parse_error_furthest_brokenCall : ∃ lexemes k,
    Lexeme.scan brokenCall = .ok lexemes ∧
      Expr.parseLines brokenCall = .error ⟨.unexpected "';'" "'('", ⟨1, 6⟩⟩ ∧
      SyntaxError.At ⟨.unexpected "';'" "'('", ⟨1, 6⟩⟩ brokenCall lexemes.list k ∧
      (DeadEnd Expr.parseLines (tokens lexemes.list) k ∨ DroppedCall Expr.parseLines (tokens lexemes.list) k) := by
  obtain ⟨lexemes, scanned⟩ := scan_of_isOk (by decide +kernel : (Lexeme.scan brokenCall).isOk = true)
  have herror : Expr.parseLines brokenCall = .error ⟨.unexpected "';'" "'('", ⟨1, 6⟩⟩ :=
    eq_error_of_errorOf? (by decide +kernel)
  obtain ⟨k, hat, hwhere⟩ := (parse_error_furthest scanned).2.1 _ herror
  exact ⟨lexemes, k, scanned, herror, hat, hwhere⟩

def missingComma : String := "f(1 2)"

/-- The error is not at the first token that cannot go on, which is the `2`: it is at the opening
    parenthesis, and `f()` goes on there. -/
theorem missingComma_not_furthest : ∃ lexemes,
    Lexeme.scan missingComma = .ok lexemes ∧
      Expr.parse missingComma = .error ⟨.unexpected "end of input" "'('", ⟨1, 2⟩⟩ ∧
      SyntaxError.At ⟨.unexpected "end of input" "'('", ⟨1, 2⟩⟩ missingComma lexemes.list 1 ∧
      ¬ DeadEnd Expr.parse (tokens lexemes.list) 1 := by
  obtain ⟨lexemes, scanned⟩ := scan_of_isOk (by decide +kernel : (Lexeme.scan missingComma).isOk = true)
  have hlist : (Lexeme.scan missingComma).toOption.map Lexemes.list = some
      [⟨.identifier "f", 0, 1, ⟨1, 1⟩⟩, ⟨.mark .openParen, 1, 2, ⟨1, 2⟩⟩, ⟨.integer 1, 2, 3, ⟨1, 3⟩⟩,
        ⟨.integer 2, 4, 5, ⟨1, 5⟩⟩, ⟨.mark .closeParen, 5, 6, ⟨1, 6⟩⟩] := by decide +kernel
  rw [scanned] at hlist
  replace hlist := Option.some.inj hlist
  obtain ⟨completed, scanned'⟩ := scan_of_isOk (by decide +kernel : (Lexeme.scan "f()").isOk = true)
  have htokens : (Lexeme.scan "f()").toOption.map (fun lexemes => tokens lexemes.list) = some
      [.identifier "f", .mark .openParen, .mark .closeParen] := by decide +kernel
  rw [scanned'] at htokens
  replace htokens := Option.some.inj htokens
  have hcall : Expr.parse "f()" = .ok (.call "f" []) := eq_ok_of_toOption (by decide +kernel)
  refine ⟨lexemes, scanned, eq_error_of_errorOf? (by decide +kernel), .inl ⟨_, "end of input", by rw [hlist]; rfl, ?_⟩,
    fun hdead => hdead.1 (by rw [hlist]; decide) ?_⟩
  · decide +kernel
  · refine ⟨[.mark .closeParen], "f()", completed, _, scanned', htokens.trans ?_, hcall⟩
    rw [hlist]
    rfl

end Scriptling
