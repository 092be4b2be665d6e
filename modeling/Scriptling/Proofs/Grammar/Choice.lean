/-
  Scriptling.Proofs.Grammar.Choice — how choices settle.

  A choice keeps the first of the furthest errors (`firstOf_furthest`), which is that of the alternative
  that read most (`firstOf_fail`). In this grammar the first two tokens leave one alternative, and the
  others give up there (`Balks`). What the choice answers is then settled as the answer of that
  alternative is (`settled_choice`).
-/

import Scriptling.Proofs.Grammar.Settled

namespace Scriptling

namespace Rule

open Grammar

variable {α β : Type} {K L : Prop} {n bound : Nat} {stop : Position}

/-! ## The furthest error -/

def FailsAt (rule : Rule α) (stop : Position) (input read left : List Lexeme) : Prop :=
  input = read ++ left ∧ ∃ expected rest, rule stop input = .fail (mismatch expected stop left) rest

theorem FailsAt.eq {rule : Rule α} {input read left read' left' : List Lexeme} (h : FailsAt rule stop input read left)
    (h' : FailsAt rule stop input read' left') (hin : InOrder stop input) : read = read' ∧ left = left' := by
  obtain ⟨rfl, expected, rest, hfail⟩ := h
  obtain ⟨heq, expected', rest', hfail'⟩ := h'
  obtain ⟨he, -⟩ := Reply.fail.inj (hfail.symm.trans hfail')
  exact hin.eq_of_place heq (by simpa using congrArg SyntaxError.position he)

/-- The first of the rules that does not fail decides. -/
theorem firstOf_ok (front : List (Rule α)) {input rest : List Lexeme}
    (hfront : ∀ rule ∈ front, ∃ e rest, rule stop input = .fail e rest) {rule : Rule α} {a : α}
    (hr : rule stop input = .ok a rest) (back : List (Rule α)) (best : SyntaxError) :
    firstOf best (front ++ rule :: back) stop input = .ok a rest := by
  induction front generalizing best with
  | nil => simp only [List.nil_append, firstOf, hr]
  | cons first front ih =>
    obtain ⟨e, rest', hfail⟩ := hfront first (List.mem_cons_self ..)
    simp only [List.cons_append, firstOf, hfail]
    exact ih (fun rule hmem => hfront rule (List.mem_cons_of_mem _ hmem)) _

def FailsWith (rule : Rule α) (stop : Position) (input : List Lexeme) (e : SyntaxError) : Prop :=
  ∃ rest, rule stop input = .fail e rest

theorem FailsWith.eq {rule : Rule α} {input : List Lexeme} {e e' : SyntaxError} (h : rule.FailsWith stop input e)
    (h' : rule.FailsWith stop input e') : e = e' := by
  obtain ⟨rest, hfail⟩ := h
  obtain ⟨rest', hfail'⟩ := h'
  exact (Reply.fail.inj (hfail.symm.trans hfail')).1

/-- The error `e` is the first of those that are furthest on among the errors of the rules. -/
def FirstFurthest (rules : List (Rule α)) (stop : Position) (input : List Lexeme) (e : SyntaxError) : Prop :=
  ∃ front rule back, rules = front ++ rule :: back ∧ rule.FailsWith stop input e ∧
    (∀ earlier ∈ front, ∀ e', earlier.FailsWith stop input e' → e'.position < e.position) ∧
    ∀ later ∈ back, ∀ e', later.FailsWith stop input e' → ¬ e.position < e'.position

theorem FirstFurthest.exists_mem {rules : List (Rule α)} {input : List Lexeme} {e : SyntaxError}
    (h : FirstFurthest rules stop input e) : ∃ rule ∈ rules, rule.FailsWith stop input e := by
  obtain ⟨front, rule, back, rfl, hfails, -⟩ := h
  exact ⟨rule, by simp, hfails⟩

theorem FirstFurthest.not_lt {rules : List (Rule α)} {input : List Lexeme} {e : SyntaxError}
    (h : FirstFurthest rules stop input e) {rule : Rule α} (hmem : rule ∈ rules) {e' : SyntaxError}
    (hfails : rule.FailsWith stop input e') : ¬ e.position < e'.position := by
  obtain ⟨front, first, back, rfl, hfirst, hfront, hback⟩ := h
  rcases List.mem_append.mp hmem with hmem | hmem
  · exact fun hlt => Position.lt_irrefl _ (Position.lt_trans hlt (hfront rule hmem e' hfails))
  rcases List.mem_cons.mp hmem with rfl | hmem
  · rw [hfirst.eq hfails]
    exact Position.lt_irrefl _
  · exact hback rule hmem e' hfails

/-- Where all rules fail, the error is the first of the furthest, if that is further on than the one
    before all. -/
theorem firstOf_furthest {input : List Lexeme} {rules : List (Rule α)}
    (hall : ∀ rule ∈ rules, ∃ e, rule.FailsWith stop input e) (best : SyntaxError) :
    ∃ e, firstOf best rules stop input = .fail e input ∧
      (best.position < e.position ∧ FirstFurthest rules stop input e ∨
        e = best ∧ ∀ rule ∈ rules, ∀ e', rule.FailsWith stop input e' → ¬ best.position < e'.position) := by
  induction rules generalizing best with
  | nil => exact ⟨best, rfl, .inr ⟨rfl, by simp⟩⟩
  | cons first rules ih =>
    obtain ⟨e₁, rest, hfail⟩ := hall first (List.mem_cons_self ..)
    have hfirst {e : SyntaxError} (h : first.FailsWith stop input e) : e = e₁ := h.eq ⟨rest, hfail⟩
    have ih' := ih fun rule hmem => hall rule (List.mem_cons_of_mem _ hmem)
    simp only [firstOf, hfail]
    -- An error of a later rule is selected against the best one so far, so it is past the first too.
    have later {e : SyntaxError} (h : FirstFurthest rules stop input e) (hlt : e₁.position < e.position) :
        FirstFurthest (first :: rules) stop input e := by
      obtain ⟨front, rule, back, rfl, hrule, hfront, hback⟩ := h
      refine ⟨first :: front, rule, back, rfl, hrule, List.forall_mem_cons.mpr ⟨fun e' he' => ?_, hfront⟩, hback⟩
      rw [hfirst he']
      exact hlt
    by_cases hbetter : best.position < e₁.position
    · rw [if_pos hbetter]
      obtain ⟨e, heq, ⟨hlt, hfurthest⟩ | ⟨rfl, hnone⟩⟩ := ih' e₁
      · exact ⟨e, heq, .inl ⟨Position.lt_trans hbetter hlt, later hfurthest hlt⟩⟩
      · exact ⟨e, heq, .inl ⟨hbetter, [], first, rules, rfl, ⟨rest, hfail⟩, by simp, hnone⟩⟩
    · rw [if_neg hbetter]
      obtain ⟨e, heq, ⟨hlt, hfurthest⟩ | ⟨rfl, hnone⟩⟩ := ih' best
      · exact ⟨e, heq, .inl ⟨hlt, later hfurthest (Position.lt_of_not_lt_of_lt hbetter hlt)⟩⟩
      · refine ⟨e, heq, .inr ⟨rfl, List.forall_mem_cons.mpr ⟨fun e' he' => ?_, hnone⟩⟩⟩
        rw [hfirst he']
        exact hbetter

/-- Where all rules fail, the error is that of one which went furthest, or the one before all. -/
theorem firstOf_fail {input : List Lexeme} (hin : InOrder stop input) {rules : List (Rule α)}
    (hall : ∀ rule ∈ rules, ∃ read left, FailsAt rule stop input read left) {start left₀ : List Lexeme}
    (hstart : input = start ++ left₀) (expected₀ : String) :
    ∃ read left expected, input = read ++ left ∧
      firstOf (mismatch expected₀ stop left₀) rules stop input = .fail (mismatch expected stop left) input ∧
      start.length ≤ read.length ∧
      (∀ rule ∈ rules, ∀ read' left', FailsAt rule stop input read' left' → read'.length ≤ read.length) ∧
      ((read = start ∧ left = left₀) ∨ ∃ rule ∈ rules, FailsAt rule stop input read left) := by
  -- Of two cuts of the input, the one that is not at the later place has not read more.
  have hle {read left read' left' : List Lexeme} (h : input = read ++ left) (h' : input = read' ++ left')
      (hlt : ¬ place stop left < place stop left') : read'.length ≤ read.length :=
    Nat.not_lt.mp (mt ((h ▸ hin).lt_iff (h.symm.trans h')).mpr hlt)
  obtain ⟨e, heq, ⟨hlt, hfurthest⟩ | ⟨rfl, hnone⟩⟩ := firstOf_furthest
    (fun rule hmem => by
      obtain ⟨_, _, -, expected, rest, hfail⟩ := hall rule hmem
      exact ⟨_, rest, hfail⟩) (mismatch expected₀ stop left₀)
  · obtain ⟨rule, hmem, hfails⟩ := hfurthest.exists_mem
    obtain ⟨read, left, hinput, expected, rest, hfail⟩ := hall rule hmem
    obtain rfl := hfails.eq ⟨rest, hfail⟩
    simp only [position_mismatch] at hlt
    refine ⟨read, left, expected, hinput, heq, ?_, fun rule' hmem' read' left' hfails' => ?_,
      .inr ⟨rule, hmem, hinput, expected, rest, hfail⟩⟩
    · exact Nat.le_of_lt (((hstart ▸ hin).lt_iff (hstart.symm.trans hinput)).mp hlt)
    · obtain ⟨hinput', expected', rest', hfail'⟩ := hfails'
      refine hle hinput hinput' ?_
      simpa using hfurthest.not_lt hmem' ⟨rest', hfail'⟩
  · refine ⟨start, left₀, expected₀, hstart, heq, Nat.le_refl _, fun rule hmem read' left' hfails => ?_, .inl ⟨rfl, rfl⟩⟩
    obtain ⟨hinput, expected, rest, hfail⟩ := hfails
    refine hle hstart hinput ?_
    simpa using hnone rule hmem _ ⟨rest, hfail⟩

/-! ## The alternative that is left -/

/-- Being stuck goes over to what is longer. -/
theorem Stuck.longer {other : Rule α} {ts us ts' us' : List Token} (h : other.Stuck bound ts us.head?)
    (heq : ts ++ us = ts' ++ us') (hlen : ts.length ≤ ts'.length) : other.Stuck bound ts' us'.head? := by
  obtain ⟨mid, rfl, rfl⟩ | ⟨mid, rfl, rfl⟩ := List.append_eq_append_iff.mp heq
  · intro vs hvs hbound
    rw [List.append_assoc]
    refine h (mid ++ vs) ?_ (by simp only [List.length_append] at hbound ⊢; omega)
    rw [List.head?_append, List.head?_append, hvs]
  · obtain rfl : mid = [] := List.length_eq_zero_iff.mp (by simp only [List.length_append] at hlen; omega)
    simpa using h

/-- The rule gives up at the first or second token, and so does the other on all that has these. -/
def Balks (rule other : Rule α) (bound : Nat) (stop : Position) (input : List Lexeme) : Prop :=
  ∃ read left, FailsAt rule stop input read left ∧ read.length ≤ 1 ∧ other.Stuck bound (tokens read) (tokens left).head?

theorem Balks.fails {rule other : Rule α} {input : List Lexeme} (h : Balks rule other bound stop input) :
    ∃ e rest, rule stop input = .fail e rest := by
  obtain ⟨_, _, ⟨-, _, _, hfail⟩, -⟩ := h
  exact ⟨_, _, hfail⟩

/-- What balks refuses all that goes on after the first two tokens. -/
theorem Balks.refuses {rule other : Rule α} {read left : List Lexeme}
    (h : Balks rule other bound stop (read ++ left)) (hpos : 1 ≤ read.length) :
    other.Stuck bound (tokens read) (tokens left).head? := by
  obtain ⟨read', left', ⟨heq, -⟩, hle, hstuck⟩ := h
  have htokens := congrArg tokens heq
  rw [tokens_append, tokens_append] at htokens
  exact hstuck.longer htokens.symm (by simp only [length_tokens]; omega)

theorem choice_ok {front : List (Rule α × Rule α)} {rule : Rule α} {input rest : List Lexeme} {a : α}
    (hfront : ∀ p ∈ front, Balks p.1 p.2 bound stop input) (hr : rule stop input = .ok a rest)
    (back : List (Rule α)) (expected : String) :
    choice expected (front.map Prod.fst ++ rule :: back) stop input = .ok a rest := by
  refine firstOf_ok _ (fun rule hmem => ?_) hr back _
  obtain ⟨p, hp, rfl⟩ := List.mem_map.mp hmem
  exact (hfront p hp).fails

/-- A choice is settled by the first alternative that succeeds, if those before it balk. -/
theorem settled_choice_ok (front : List (Rule α × Rule α)) {rule other : Rule α} (back back' : List (Rule α))
    {expected : String} {input rest : List Lexeme} {a : α}
    (hfront : ∀ p ∈ front, Balks p.1 p.2 bound stop input) (hr : rule stop input = .ok a rest)
    (hpos : ∀ read, input = read ++ rest → 1 ≤ read.length) (h : Settled L other bound stop input (.ok a rest)) :
    Settled L (choice expected (front.map Prod.snd ++ other :: back')) bound stop input
      (choice expected (front.map Prod.fst ++ rule :: back) stop input) := by
  rw [choice_ok hfront hr]
  obtain ⟨read, rfl, hsure | hbroken⟩ := h
  · refine ⟨read, rfl, .inl fun us hus hlen => FirstReads.choice ?_ expected⟩
    induction front with
    | nil => exact (hsure us hus hlen).first back'
    | cons p front ih =>
      have hrest := ih fun q hq => hfront q (List.mem_cons_of_mem _ hq)
      exact hrest.skip ((hfront p (List.mem_cons_self ..)).refuses (hpos read rfl) us hus hlen)
  · exact ⟨read, rfl, .inr hbroken⟩

theorem refuses_choice {rules : List (Rule α)} {ts : List Token} (h : ∀ rule ∈ rules, rule.Refuses ts)
    (expected : String) : (choice expected rules).Refuses ts := by
  intro stop input hi
  unfold Rule.choice
  generalize mismatch expected stop input = best
  induction rules generalizing best with
  | nil => exact ⟨_, _, rfl⟩
  | cons rule rules ih =>
    obtain ⟨e, rest, hfail⟩ := h rule (List.mem_cons_self ..) stop input hi
    simp only [firstOf, hfail]
    exact ih (fun rule hmem => h rule (List.mem_cons_of_mem _ hmem)) _

/-- If one alternative fails and the others balk, then the choice fails where that one does or where
    they are all stuck. The others go no further than the second token, and a broken call is never
    before it. -/
theorem settled_choice_fail (front back : List (Rule α × Rule α)) {rule other : Rule α} {expected : String}
    {input rest : List Lexeme} {e : SyntaxError} (hin : InOrder stop input)
    (hothers : ∀ p ∈ front ++ back, Balks p.1 p.2 bound stop input) (hr : rule stop input = .fail e rest)
    (h : Settled L other bound stop input (.fail e rest)) :
    Settled L (choice expected (front.map Prod.snd ++ other :: back.map Prod.snd)) bound stop input
      (choice expected (front.map Prod.fst ++ rule :: back.map Prod.fst) stop input) := by
  have member {f : Rule α × Rule α → Rule α} {r r' : Rule α} (hmem : r ∈ front.map f ++ r' :: back.map f) :
      r = r' ∨ ∃ p ∈ front ++ back, f p = r := by
    simp only [List.mem_append, List.mem_cons, List.mem_map] at hmem ⊢
    rcases hmem with ⟨p, hp, rfl⟩ | rfl | ⟨p, hp, rfl⟩
    · exact .inr ⟨p, .inl hp, rfl⟩
    · exact .inl rfl
    · exact .inr ⟨p, .inr hp, rfl⟩
  have mem_rules {p : Rule α × Rule α} (hp : p ∈ front ++ back) :
      p.1 ∈ front.map Prod.fst ++ rule :: back.map Prod.fst := by
    rcases List.mem_append.mp hp with hp | hp
    · exact List.mem_append_left _ (List.mem_map_of_mem hp)
    · exact List.mem_append_right _ (List.mem_cons_of_mem _ (List.mem_map_of_mem hp))
  obtain ⟨read₁, left₁, expected₁, hinput, rfl, hanswer⟩ := h
  have hrule : FailsAt rule stop input read₁ left₁ := ⟨hinput, expected₁, rest, hr⟩
  obtain ⟨read, left, expected₂, hsplit, heq, -, hmax, hone⟩ := firstOf_fail hin
    (fun r hmem => by
      rcases member hmem with rfl | ⟨p, hp, rfl⟩
      · exact ⟨_, _, hrule⟩
      · obtain ⟨_, _, hfails, -⟩ := hothers p hp
        exact ⟨_, _, hfails⟩)
    (List.nil_append input).symm expected
  have hle := hmax rule (by simp) _ _ hrule
  have hcut {read' left' : List Lexeme} (hinput : input = read' ++ left') :
      tokens read' ++ tokens left' = tokens read ++ tokens left := by
    rw [← tokens_append, ← tokens_append, ← hinput, ← hsplit]
  rw [show choice expected _ stop input = _ from heq]
  refine ⟨read, left, expected₂, hsplit, rfl, ?_⟩
  rcases hanswer with hstuck | hbroken
  · refine .inl fun us hus hlen => refuses_choice (fun r hmem => ?_) expected
    rcases member hmem with rfl | ⟨p, hp, rfl⟩
    · exact hstuck.longer (hcut hinput) (by simpa using hle) us hus hlen
    · obtain ⟨read', left', hfails, -, hstuck⟩ := hothers p hp
      have hle := hmax p.1 (mem_rules hp) _ _ hfails
      exact hstuck.longer (hcut hfails.1) (by simpa using hle) us hus hlen
  · have hpos := hbroken.length_pos
    rw [length_tokens] at hpos
    have hlen : read.length ≤ read₁.length := by
      rcases hone with ⟨rfl, -⟩ | ⟨r, hmem, hfails⟩
      · exact Nat.zero_le _
      rcases member hmem with rfl | ⟨p, hp, rfl⟩
      · exact Nat.le_of_eq (by rw [(hrule.eq hfails hin).1])
      · obtain ⟨read', left', hfails', hshort, -⟩ := hothers p hp
        obtain ⟨rfl, -⟩ := hfails'.eq hfails hin
        omega
    obtain ⟨rfl, rfl⟩ := List.append_inj (hinput.symm.trans hsplit) (by omega)
    exact .inr hbroken

/-- The alternatives before and after the one with the index `k`. -/
theorem exists_append_of_getElem? {pairs : List (Rule α × Rule α)} {k : Nat} {p : Rule α × Rule α}
    (hk : pairs[k]? = some p) : ∃ front back, pairs = front ++ p :: back ∧ front.length = k := by
  obtain ⟨hlt, rfl⟩ := List.getElem?_eq_some_iff.mp hk
  exact ⟨pairs.take k, pairs.drop (k + 1), by simp, by simp; omega⟩

/-- A choice is settled by the alternative with the index `k`, if it succeeds and those before it
    balk. -/
theorem settled_choice_first (pairs : List (Rule α × Rule α)) {k : Nat} {p : Rule α × Rule α} (hk : pairs[k]? = some p)
    {expected : String} {input rest : List Lexeme} {a : α}
    (hothers : ∀ i q, pairs[i]? = some q → i < k → Balks q.1 q.2 bound stop input)
    (hr : p.1 stop input = .ok a rest) (hprogress : (choice expected (pairs.map Prod.fst)).Progresses)
    (h : Settled L p.2 bound stop input (p.1 stop input)) :
    Settled L (choice expected (pairs.map Prod.snd)) bound stop input
      (choice expected (pairs.map Prod.fst) stop input) := by
  obtain ⟨front, back, rfl, rfl⟩ := exists_append_of_getElem? hk
  have hfront (q : Rule α × Rule α) (hq : q ∈ front) : Balks q.1 q.2 bound stop input := by
    obtain ⟨i, hi, rfl⟩ := List.mem_iff_getElem.mp hq
    exact hothers i _ (by rw [List.getElem?_append_left hi, List.getElem?_eq_getElem hi]) hi
  simp only [List.map_append, List.map_cons] at hprogress ⊢
  refine settled_choice_ok front _ _ hfront hr (fun read hinput => ?_) (hr ▸ h)
  exact hprogress.length_pos stop read a rest (hinput ▸ choice_ok hfront hr _ expected)

/-- A choice is settled by the alternative with the index `k`, if all others balk. -/
theorem settled_choice (pairs : List (Rule α × Rule α)) {k : Nat} {p : Rule α × Rule α} (hk : pairs[k]? = some p)
    {expected : String} {input : List Lexeme} (hin : InOrder stop input)
    (hothers : ∀ i q, pairs[i]? = some q → i ≠ k → Balks q.1 q.2 bound stop input)
    (hprogress : (choice expected (pairs.map Prod.fst)).Progresses)
    (h : Settled L p.2 bound stop input (p.1 stop input)) :
    Settled L (choice expected (pairs.map Prod.snd)) bound stop input
      (choice expected (pairs.map Prod.fst) stop input) := by
  cases hr : p.1 stop input with
  | ok a rest =>
    exact settled_choice_first pairs hk (fun i q hq hlt => hothers i q hq (Nat.ne_of_lt hlt)) hr hprogress h
  | fail e rest =>
    obtain ⟨front, back, rfl, rfl⟩ := exists_append_of_getElem? hk
    simp only [List.map_append, List.map_cons]
    refine settled_choice_fail front back hin (fun q hq => ?_) hr (hr ▸ h)
    rcases List.mem_append.mp hq with hq | hq
    · obtain ⟨i, hi, rfl⟩ := List.mem_iff_getElem.mp hq
      exact hothers i _ (by rw [List.getElem?_append_left hi, List.getElem?_eq_getElem hi]) (Nat.ne_of_lt hi)
    · obtain ⟨i, hi, rfl⟩ := List.mem_iff_getElem.mp hq
      refine hothers (front.length + 1 + i) _ ?_ (by omega)
      rw [List.getElem?_append_right (by omega), show front.length + 1 + i - front.length = i + 1 by omega]
      simp

/-! ## Rules that balk -/

theorem Balks.bind {rule other : Rule α} {input : List Lexeme} (h : Balks rule other bound stop input)
    (f g : α → Rule β) : Balks (rule >>= f) (other >>= g) bound stop input := by
  obtain ⟨read, left, ⟨hinput, expected, rest, hfail⟩, hle, hstuck⟩ := h
  refine ⟨read, left, ⟨hinput, expected, rest, ?_⟩, hle, fun us hus hlen => (hstuck us hus hlen).bind g⟩
  rw [bind_apply, hfail]

theorem balks_expectThen {t : Token} {input : List Lexeme} (h : (tokens input).head? ≠ some t) (f g : Unit → Rule β) :
    Balks (expect t >>= f) (expect t >>= g) bound stop input := by
  refine Balks.bind ⟨[], input, ⟨rfl, t.describe, input, expect_fails h stop⟩, Nat.zero_le _, fun us hus _ => ?_⟩ f g
  exact refuses_expect (by rwa [tokens_nil, List.nil_append, hus])

theorem Picks.balks {rule other : Rule α} {pick : Token → Option α} (h : rule.Picks pick) (h' : other.Picks pick)
    (hblames : rule.Blames (· = [])) {input : List Lexeme} (hnone : (tokens input).head?.bind pick = none) :
    Balks rule other bound stop input := by
  obtain ⟨e, rest, hfail⟩ := h.refuses hnone stop input rfl
  obtain ⟨read, left, expected, hinput, hread, rfl⟩ := hblames.blames hfail
  obtain rfl := tokens_eq_nil_iff.mp hread
  refine ⟨[], left, ⟨hinput, expected, rest, hfail⟩, Nat.zero_le _, fun us hus _ => h'.refuses ?_⟩
  rw [tokens_nil, List.nil_append, hus]
  rwa [hinput, List.nil_append] at hnone

/-- A rule for one token takes it, or balks. -/
theorem Picks.settles {rule other : Rule α} {pick : Token → Option α} (h : rule.Picks pick) (h' : other.Picks pick)
    (hblames : rule.Blames (· = [])) : Settles K rule other n bound := by
  intro stop input _ _
  cases hpick : (tokens input).head?.bind pick with
  | none =>
    have hbalks : Balks rule other bound stop input := h.balks h' hblames hpick
    obtain ⟨read, left, ⟨hinput, expected, rest, hfail⟩, -, hstuck⟩ := hbalks
    rw [hfail]
    exact ⟨read, left, expected, hinput, rfl, .inl hstuck⟩
  | some a =>
    cases input with
    | nil => cases hpick
    | cons lexeme more =>
      replace hpick : pick lexeme.token = some a := by simpa using hpick
      have hok := h.2 stop lexeme more
      rw [hpick] at hok
      rw [show rule stop (lexeme :: more) = .ok a more from hok]
      exact ⟨[lexeme], rfl, .inl fun us _ _ => h'.reads hpick us⟩

end Rule

namespace Grammar

open Rule

variable {β : Type} {K : Prop} {n bound : Nat} {stop : Position}

theorem settles_nameThen {f g : String → Rule β} (h : ∀ x, Settles K (f x) (g x) n bound) :
    Settles K (name >>= f) (name >>= g) (n + 1) (bound + 1) := by
  have hname : Settles False name name (n + 1) (bound + 1) := name_picks.settles name_picks (name_blames rfl)
  exact hname.bindAfter takes_name.progresses.length_pos h False.elim

theorem settles_afterName {f g : String → Rule β} (h : ∀ x, Settles K (f x) (g x) n bound) :
    Settles K (name >>= f) (name >>= g) n bound :=
  (settles_nameThen h).mono id (Nat.le_succ n) (Nat.le_succ bound)

theorem balks_nameThen {input : List Lexeme} (h : ∀ x, (tokens input).head? ≠ some (.identifier x))
    (f g : String → Rule β) : Balks (name >>= f) (name >>= g) bound stop input := by
  refine Balks.bind (name_picks.balks name_picks (name_blames rfl) ?_) f g
  cases hhead : (tokens input).head? with
  | none => rfl
  | some t =>
    cases t with
    | identifier x => exact absurd hhead (h x)
    | integer | keyword | operator | mark => rfl

/-- No name comes, or something else after it than the token that is asked for. -/
theorem balks_nameExpectThen {t : Token} {input : List Lexeme} (h : ∀ x us, tokens input ≠ .identifier x :: t :: us)
    (f g : String → Unit → Rule β) :
    Balks (name >>= fun x => expect t >>= f x) (name >>= fun x => expect t >>= g x) bound stop input := by
  by_cases hname : ∃ x, (tokens input).head? = some (.identifier x)
  · obtain ⟨x, hx⟩ := hname
    obtain ⟨us, hus⟩ := List.head?_eq_some_iff.mp hx
    obtain ⟨lexeme, more, rfl, hx, rfl⟩ := tokens_eq_cons_iff.mp hus
    have hnext : (tokens more).head? ≠ some t := by
      intro hnext
      obtain ⟨vs, hvs⟩ := List.head?_eq_some_iff.mp hnext
      exact h x vs (by rw [hus, hvs])
    have hread : name stop (lexeme :: more) = .ok x more := by
      have hpick := name_picks.2 stop lexeme more
      rwa [hx] at hpick
    refine ⟨[lexeme], more, ⟨rfl, t.describe, more, ?_⟩, Nat.le_refl _, fun vs hvs _ => ?_⟩
    · simp only [bind_apply, hread, expect_fails hnext]
    · rw [tokens_cons, hx]
      exact refuses_nameThen ((refuses_expect (hvs ▸ hnext)).bind _)
  · exact balks_nameThen (fun x hx => hname ⟨x, hx⟩) _ _

end Grammar

end Scriptling
