/-
  Scriptling.Proofs.Grammar.Blames — where rules fail, and after what.

  - `Opens D ts`: some tokens that can be written go on after `ts` to make something that `D`
    derives.
  - `Rule.Blames`: wherever the rule fails, the error is about the lexeme it stands before, and
    what it has read up to there is as told. There is one lemma for each way of putting rules
    together, and what it asks of the grammar is how to complete each state.
-/

import Scriptling.Proofs.Grammar.Image

namespace Scriptling

namespace Grammar

variable {α β : Type}

/-! ## Beginnings -/

/-- The tokens can be completed to something that `D` derives. -/
def Opens (D : List Token → α → Prop) (ts : List Token) : Prop := ∃ us a, Writable us ∧ D (ts ++ us) a

theorem opens_of_derives {D : List Token → α → Prop} {ts : List Token} {a : α} (h : D ts a) : Opens D ts :=
  ⟨[], a, writable_nil, by rwa [List.append_nil]⟩

/-- A beginning of what may stand between `front` and `back` is, after `front`, a beginning of the
    whole. -/
theorem Opens.within {D : List Token → α → Prop} {E : List Token → β → Prop} {ts : List Token} (h : Opens D ts)
    (front back : List Token) (hback : Writable back) (hE : ∀ us a, D us a → ∃ b, E (front ++ us ++ back) b) :
    Opens E (front ++ ts) := by
  obtain ⟨us, a, hw, hd⟩ := h
  obtain ⟨b, hb⟩ := hE _ _ hd
  exact ⟨us ++ back, b, by simp [hw, hback], by simpa using hb⟩

theorem Opens.shorter {D : List Token → α → Prop} {ts : List Token} (us : List Token) (hw : Writable us)
    (h : Opens D (ts ++ us)) : Opens D ts := by
  obtain ⟨vs, a, hvs, hd⟩ := h
  exact ⟨us ++ vs, a, by simp [hw, hvs], by simpa using hd⟩

end Grammar

namespace Rule

open Grammar

variable {α β : Type} {V W : List Token → Prop}

/-! ## Failures -/

/-- The rule leaves an end of its input. Where it fails, the error is about the lexeme it stands
    before, and the tokens that it has read are such that `V`. -/
structure Blames (rule : Rule α) (V : List Token → Prop) : Prop where
  leaves : ∀ {stop input a rest}, rule stop input = .ok a rest → ∃ read, input = read ++ rest
  blames : ∀ {stop input e rest}, rule stop input = .fail e rest →
    ∃ read left expected, input = read ++ left ∧ V (tokens read) ∧ e = mismatch expected stop left

theorem Blames.imp {rule : Rule α} (h : rule.Blames V) (hVW : ∀ ts, V ts → W ts) : rule.Blames W where
  leaves := h.leaves
  blames he := by
    obtain ⟨read, left, expected, hinput, hv, he⟩ := h.blames he
    exact ⟨read, left, expected, hinput, hVW _ hv, he⟩

theorem blames_pure (a : α) : (pure a : Rule α).Blames V where
  leaves ha := ⟨[], (pure_eq_ok_iff.mp ha).2.symm⟩
  blames := nofun

theorem blames_refuse (expected : String) (h : V []) : (refuse expected : Rule α).Blames V where
  leaves := nofun
  blames {stop input e rest} he := by
    obtain ⟨rfl, -⟩ := Reply.fail.inj he
    exact ⟨[], input, expected, rfl, h, rfl⟩

@[simp] theorem tokens_append (input rest : List Lexeme) : tokens (input ++ rest) = tokens input ++ tokens rest :=
  List.map_append

/-- What comes second fails after what the first has read. -/
theorem Blames.bind {rule : Rule α} {f : α → Rule β} {D : Option Token → List Token → α → Prop}
    (h : rule.Blames V) (hgives : rule.Gives D)
    (hf : ∀ next ts a, D next ts a → (f a).Blames fun us => V (ts ++ us)) : (rule >>= f).Blames V where
  leaves hb := by
    obtain ⟨a, mid, ha, hrest⟩ := bind_eq_ok_iff.mp hb
    obtain ⟨ts, -, hd⟩ := hgives _ _ _ _ ha
    obtain ⟨front, hfront⟩ := h.leaves ha
    obtain ⟨read, hread⟩ := (hf _ _ _ hd).leaves hrest
    exact ⟨front ++ read, by rw [hfront, hread, List.append_assoc]⟩
  blames {stop input e rest} he := by
    rw [bind_apply] at he
    cases hr : rule stop input with
    | fail e' mid =>
      simp only [hr, Reply.fail.injEq] at he
      exact h.blames (he.1 ▸ hr)
    | ok a mid =>
      simp only [hr] at he
      obtain ⟨ts, hts, hd⟩ := hgives _ _ _ _ hr
      obtain ⟨front, rfl⟩ := h.leaves hr
      obtain ⟨read, left, expected, rfl, hv, rfl⟩ := (hf _ _ _ hd).blames he
      obtain rfl : tokens front = ts := by
        rw [tokens_append] at hts
        exact List.append_cancel_right hts
      exact ⟨front ++ read, left, expected, by simp, by simpa using hv, rfl⟩

theorem blames_eat (t : Token) : (eat t).Blames V where
  leaves {stop input ate rest} h := by
    cases input with
    | nil => exact ⟨[], (Reply.ok.inj h).2⟩
    | cons lexeme more =>
      rw [eat_cons] at h
      split at h
      · exact ⟨[lexeme], by rw [(Reply.ok.inj h).2]; rfl⟩
      · exact ⟨[], (Reply.ok.inj h).2⟩
  blames {stop input e rest} h := by
    cases input with
    | nil => cases h
    | cons lexeme more =>
      rw [eat_cons] at h
      split at h <;> cases h

theorem eat_gives (t : Token) :
    (eat t).Gives fun _ ts ate => ts = if ate then [t] else [] := by
  intro stop input ate rest h
  rcases tokens_of_eat h with ⟨rfl, hi⟩ | ⟨rfl, rfl, -⟩
  · exact ⟨[t], hi, rfl⟩
  · exact ⟨[], rfl, rfl⟩

/-- Each branch is in its own state. -/
theorem Blames.ifEat {yes no : Rule β} {t : Token} (hyes : yes.Blames fun us => V (t :: us)) (hno : no.Blames V) :
    Blames (do if ← eat t then yes else no) V := by
  refine (blames_eat t).bind (eat_gives t) ?_
  intro next ts ate hts
  subst hts
  cases ate with
  | true => exact hyes
  | false => exact hno

theorem Blames.expectThen {f : Unit → Rule β} {t : Token} (h : V []) (hf : (f ()).Blames fun us => V (t :: us)) :
    (expect t >>= f).Blames V := by
  refine Blames.bind (D := fun _ ts _ => ts = [t]) ?_ ?_ ?_
  · refine (blames_eat t).bind (eat_gives t) ?_
    intro next ts ate hts
    subst hts
    cases ate with
    | true => exact blames_pure ()
    | false => exact blames_refuse _ h
  · exact fun stop input a rest ha => ⟨[t], tokens_of_expect ha, rfl⟩
  · intro next ts a hts
    subst hts
    exact hf

/-- What has been read before the token is known to stand before it. -/
theorem Blames.bindIfEat {rule : Rule α} {yes no : α → Rule β} {t : Token}
    {D : Option Token → List Token → α → Prop} (h : rule.Blames V) (hgives : rule.Gives D)
    (hyes : ∀ ts a, D (some t) ts a → (yes a).Blames fun us => V (ts ++ t :: us))
    (hno : ∀ next ts a, D next ts a → (no a).Blames fun us => V (ts ++ us)) :
    (do let a ← rule; if ← eat t then yes a else no a : Rule β).Blames V := by
  -- The token is read together with what stands before it.
  have hassoc : (do let a ← rule; if ← eat t then yes a else no a : Rule β) =
      (do let a ← rule; let ate ← eat t; pure (a, ate) : Rule (α × Bool)) >>=
        fun (a, ate) => if ate then yes a else no a := by
    funext stop input
    simp only [bind_apply]
    cases rule stop input with
    | fail e rest => rfl
    | ok a mid => cases h : eat t stop mid <;> simp [h]
  rw [hassoc]
  refine Blames.bind (D := fun next ts (a, ate) =>
    if ate then ∃ us, ts = us ++ [t] ∧ D (some t) us a else D next ts a) ?_ ?_ ?_
  · exact h.bind hgives fun _ _ _ _ => (blames_eat t).bind (eat_gives t) fun _ _ _ _ => blames_pure _
  · intro stop input p rest hp
    simp only [bind_eq_ok_iff, pure_eq_ok_iff] at hp
    obtain ⟨a, mid, ha, ate, after, hate, rfl, rfl⟩ := hp
    obtain ⟨ts, hts, hd⟩ := hgives _ _ _ _ ha
    rcases tokens_of_eat hate with ⟨rfl, heat⟩ | ⟨rfl, rfl, -⟩
    · rw [heat] at hts hd
      exact ⟨ts ++ [t], by simpa using hts, ts, rfl, hd⟩
    · exact ⟨ts, hts, hd⟩
  · intro next ts p hp
    obtain ⟨a, ate⟩ := p
    cases ate with
    | true =>
      obtain ⟨us, rfl, hd⟩ := hp
      simpa using hyes us a hd
    | false => exact hno next ts a hp

/-- Nothing changes but that the rest of the text is known to be there. -/
theorem Blames.ifAtEnd {whenDone more : Rule β} (hdone : whenDone.Blames V) (hmore : more.Blames V) :
    Blames (do if ← atEnd then whenDone else more) V where
  leaves {stop input a rest} h := by
    cases input with
    | nil => exact hdone.leaves h
    | cons lexeme input => exact hmore.leaves h
  blames {stop input e rest} h := by
    cases input with
    | nil => exact hdone.blames h
    | cons lexeme input => exact hmore.blames h

/-- A rule for one token fails before it. -/
theorem Picks.blames {rule : Rule α} {pick : Token → Option α} (h : rule.Picks pick) (hnil : V [])
    (hfail : ∀ stop input e rest, rule stop input = .fail e rest → ∃ expected, e = mismatch expected stop input) :
    rule.Blames V where
  leaves {stop input a rest} ha := by
    cases input with
    | nil =>
      obtain ⟨e, rest', hf⟩ := h.1 stop
      cases hf.symm.trans ha
    | cons lexeme more =>
      have hpick := h.2 stop lexeme more
      cases hp : pick lexeme.token with
      | none =>
        rw [hp] at hpick
        obtain ⟨e, rest', hf⟩ := hpick
        cases hf.symm.trans ha
      | some b =>
        rw [hp] at hpick
        exact ⟨[lexeme], by rw [(Reply.ok.inj (ha.symm.trans hpick)).2]; rfl⟩
  blames {stop input e rest} he := by
    obtain ⟨expected, rfl⟩ := hfail _ _ _ _ he
    exact ⟨[], input, expected, rfl, hnil, rfl⟩

/-- The error that a choice keeps is one of those of its rules, or its own. -/
theorem Blames.choice {rules : List (Rule α)} (h : ∀ rule ∈ rules, rule.Blames V) (hnil : V []) (expected : String) :
    (choice expected rules).Blames V where
  leaves ha := by
    obtain ⟨rule, hmem, hr⟩ := mem_of_choice ha
    exact (h rule hmem).leaves hr
  blames {stop input e rest} he := by
    unfold Rule.choice at he
    have hbest : ∃ read left expected', input = read ++ left ∧ V (tokens read) ∧
        mismatch expected stop input = mismatch expected' stop left := ⟨[], input, expected, rfl, hnil, rfl⟩
    generalize mismatch expected stop input = best at he hbest
    induction rules generalizing best with
    | nil =>
      obtain ⟨rfl, -⟩ := Reply.fail.inj he
      exact hbest
    | cons rule rules ih =>
      cases hr : rule stop input with
      | ok a after =>
        simp only [firstOf, hr] at he
        cases he
      | fail e' after =>
        simp only [firstOf, hr] at he
        refine ih (fun rule hmem => h rule (List.mem_cons_of_mem _ hmem)) _ he ?_
        split
        · exact (h rule (List.mem_cons_self ..)).blames hr
        · exact hbest

/-! ## Repetition -/

section Chain

variable {accepted : Operator → Bool} {operators : List Operator} {operand : Rule Expr}
  {D : List Token → Expr → Prop}

/-- One round more takes an accepted operator and an operand where such an operator stands, and
    nothing where none stands. -/
theorem chainFrom_succ_cases (n : Nat) (left : Expr) (stop : Position) (input : List Lexeme) :
    (EndsChain accepted (tokens input).head? ∧
      chainFrom accepted operand (n + 1) left stop input = .ok left input) ∨
    ∃ lexeme more op, input = lexeme :: more ∧ lexeme.token = .operator op ∧ accepted op = true ∧
      chainFrom accepted operand (n + 1) left stop input =
        (operand >>= fun right => chainFrom accepted operand n (.binary op left right)) stop more := by
  cases input with
  | nil => exact .inl ⟨by simp [EndsChain], rfl⟩
  | cons lexeme more =>
    simp only [chainFrom, bind_apply, peek, List.head?_cons, Option.map_some, Option.bind_some]
    cases ht : lexeme.token with
    | operator op =>
      cases hacc : accepted op with
      | true => exact .inr ⟨lexeme, more, op, rfl, ht, hacc, by simp [Token.operator?, hacc, advance]⟩
      | false => exact .inl ⟨by simpa [EndsChain, ht] using hacc, by simp [Token.operator?, hacc]⟩
    | integer | identifier | keyword | mark => exact .inl ⟨by simp [EndsChain, ht], rfl⟩

/-- What a chain has before it fails is completed by completing its last operand. -/
theorem chainFrom_blames (hlevel : ∀ op, accepted op = true ↔ op ∈ operators)
    (hgives : operand.Gives fun _ => D) (h : operand.Blames (Opens D)) {ts : List Token}
    {left : Expr} (hl : IsChain operators D ts left) (n : Nat) :
    (chainFrom accepted operand n left).Blames fun us => Opens (IsChain operators D) (ts ++ us) := by
  induction n generalizing ts left with
  | zero => exact blames_pure left
  | succ n ih =>
    have hround (op : Operator) (hacc : accepted op = true) :
        (operand >>= fun right => chainFrom accepted operand n (.binary op left right)).Blames fun us =>
          Opens (IsChain operators D) (ts ++ .operator op :: us) := by
      have hmem := (hlevel op).mp hacc
      refine Blames.bind (h.imp fun us hus => ?_) hgives fun next us right hright => ?_
      · have hopen := hus.within (ts ++ [.operator op]) [] writable_nil fun us right hright =>
          ⟨_, by simpa using hl.more hmem hright⟩
        simpa using hopen
      · simpa using ih (hl.more hmem hright)
    constructor
    · intro stop input e rest he
      rcases chainFrom_succ_cases n left stop input with ⟨-, heq⟩ | ⟨lexeme, more, op, rfl, -, hacc, heq⟩
      · exact ⟨[], (Reply.ok.inj (heq.symm.trans he)).2⟩
      · obtain ⟨read, rfl⟩ := (hround op hacc).leaves (heq.symm.trans he)
        exact ⟨lexeme :: read, rfl⟩
    · intro stop input e rest he
      rcases chainFrom_succ_cases n left stop input with ⟨-, heq⟩ | ⟨lexeme, more, op, rfl, ht, hacc, heq⟩
      · cases heq.symm.trans he
      · obtain ⟨read, left, expected, rfl, hv, rfl⟩ := (hround op hacc).blames (heq.symm.trans he)
        exact ⟨lexeme :: read, left, expected, rfl, by rwa [tokens_cons, ht], rfl⟩

theorem Blames.chain (hlevel : ∀ op, accepted op = true ↔ op ∈ operators)
    (hgives : operand.Gives fun _ => D) (h : operand.Blames (Opens D)) (n : Nat) :
    (chain accepted operand n).Blames (Opens (IsChain operators D)) := by
  refine Blames.bind (h.imp fun ts hts => ?_) hgives fun next ts left hleft => ?_
  · exact hts.within [] [] writable_nil fun us e he => ⟨e, by simpa using IsChain.single he⟩
  · exact chainFrom_blames hlevel hgives h (.single hleft) n

end Chain

section Separated

variable {closing : Token} {item : Rule α} {D : List Token → α → Prop}

def ClosedItems (D : List Token → α → Prop) (closing : Token) (ts : List Token) (as : List α) : Prop :=
  ∃ us, ts = us ++ [closing] ∧ IsItems D us as

def ClosedSeparated (D : List Token → α → Prop) (closing : Token) (ts : List Token) (as : List α) : Prop :=
  ∃ us, ts = us ++ [closing] ∧ IsSeparated D us as

theorem opens_closedItems (hw : closing.Writable) {ts : List Token} (h : Opens D ts) :
    Opens (ClosedItems D closing) ts :=
  h.within [] [closing] (by simpa using hw) fun us a ha => ⟨[a], us, rfl, .last ha⟩

theorem separatedFrom_blames (hw : closing.Writable) (hgives : item.Gives fun _ => D) (h : item.Blames (Opens D))
    (n : Nat) (found : List α) : (separatedFrom closing item n found).Blames (Opens (ClosedItems D closing)) := by
  have hfirst : item.Blames (Opens (ClosedItems D closing)) := h.imp fun _ => opens_closedItems hw
  -- After an item the closing token may always come.
  have hend {ts : List Token} {a : α} (hd : D ts a) (as : List α) (expected : String) :
      Blames (do if ← eat closing then pure as else refuse expected)
        fun us => Opens (ClosedItems D closing) (ts ++ us) :=
    (blames_pure as).ifEat (blames_refuse expected (by simpa using opens_closedItems hw (opens_of_derives hd)))
  induction n generalizing found with
  | zero => exact hfirst.bind hgives fun next ts a hd => hend hd _ _
  | succ n ih =>
    refine hfirst.bind hgives fun next ts a hd => Blames.ifEat ((ih (a :: found)).imp fun us hus => ?_) (hend hd _ _)
    have hopen := hus.within (E := ClosedItems D closing) (ts ++ [.mark .comma]) [] writable_nil ?_
    · simpa using hopen
    · intro us as has
      obtain ⟨vs, rfl, hitems⟩ := has
      exact ⟨a :: as, ts ++ .mark .comma :: vs, by simp, .more hd hitems⟩

theorem Blames.separated (hw : closing.Writable) (hgives : item.Gives fun _ => D) (h : item.Blames (Opens D)) (n : Nat) :
    (separated closing item n).Blames (Opens (ClosedSeparated D closing)) := by
  refine Blames.ifEat (blames_pure []) ((separatedFrom_blames hw hgives h n []).imp fun ts hts => ?_)
  refine hts.within [] [] writable_nil fun us as has => ?_
  obtain ⟨vs, rfl, hitems⟩ := has
  exact ⟨as, vs, by simp, .items hitems⟩

end Separated

section Sequence

variable {closing : Token} {item : Rule α} {D : Option Token → List Token → α → Prop}

/-- Only an `else` after it can matter to what `D` derives, and nothing that it derives begins with
    one. -/
structure Resumes (D : Option Token → List Token → α → Prop) : Prop where
  before : ∀ {next next' ts a}, D next ts a → next' ≠ some (.keyword .else_) → D next' ts a
  avoids : ∀ next, Avoids (D next) (.keyword .else_)

def ClosedSequence (D : Option Token → List Token → α → Prop) (closing : Token) (ts : List Token) (as : List α) :
    Prop :=
  ∃ us, ts = us ++ [closing] ∧ IsSequence D (some closing) us as

/-- An item more may stand before a sequence. -/
theorem Resumes.cons (hD : Resumes D) {next next' : Option Token} (hnext : next ≠ some (.keyword .else_))
    {ts us : List Token} {a : α} {as : List α} (hd : D next' ts a) (h : IsSequence D next us as) :
    IsSequence D next (ts ++ us) (a :: as) :=
  .cons (hD.before hd (h.after_ne hD.avoids hnext)) h

theorem enclosed_blames (hD : Resumes D) (hw : closing.Writable) (hne : closing ≠ .keyword .else_)
    (hgives : item.Gives D) (h : item.Blames (Opens (D none))) (n : Nat) (found : List α) :
    (enclosed closing item n found).Blames (Opens (ClosedSequence D closing)) := by
  have hnil : Opens (ClosedSequence D closing) [] :=
    ⟨[closing], [], by simpa using hw, [], rfl, .nil⟩
  have hsome : some closing ≠ some (.keyword .else_) := by simpa using hne
  induction n generalizing found with
  | zero => exact (blames_pure _).ifEat (blames_refuse _ hnil)
  | succ n ih =>
    refine (blames_pure _).ifEat ((blames_refuse _ hnil).ifAtEnd ?_)
    refine Blames.bind (h.imp fun ts hts => ?_) hgives fun next ts a hd => (ih (a :: found)).imp fun us hus => ?_
    · refine hts.within [] [closing] (by simpa using hw) fun us a hd => ⟨[a], us, rfl, ?_⟩
      simpa using hD.cons hsome hd .nil
    · refine hus.within ts [] writable_nil fun us as has => ?_
      obtain ⟨vs, rfl, hseq⟩ := has
      exact ⟨a :: as, ts ++ vs, by simp, hD.cons hsome hd hseq⟩

theorem untilEnd_blames (hD : Resumes D) (hgives : item.Gives D) (h : item.Blames (Opens (D none))) (n : Nat)
    (found : List α) : (untilEnd item n found).Blames (Opens (IsSequence D none)) := by
  have hnone : (none : Option Token) ≠ some (.keyword .else_) := nofun
  induction n generalizing found with
  | zero => exact blames_pure _
  | succ n ih =>
    refine (blames_pure _).ifAtEnd ?_
    refine Blames.bind (h.imp fun ts hts => ?_) hgives fun next ts a hd => (ih (a :: found)).imp fun us hus => ?_
    · refine hts.within [] [] writable_nil fun us a hd => ⟨[a], ?_⟩
      simpa using hD.cons hnone hd .nil
    · exact hus.within ts [] writable_nil fun us as hseq => ⟨a :: as, by simpa using hD.cons hnone hd hseq⟩

end Sequence

end Rule

namespace Grammar

open Rule

variable {β : Type} {V : List Token → Prop}

/-! ## Single tokens -/

theorem name_blames (h : V []) : name.Blames V := by
  refine name_picks.blames h fun stop input e rest he => ⟨"identifier", ?_⟩
  cases input with
  | nil => exact (Reply.fail.inj he).1.symm
  | cons lexeme more =>
    simp only [name, peek, bind_apply, List.head?_cons, Option.map_some] at he
    cases ht : lexeme.token with
    | identifier x =>
      rw [ht] at he
      cases he
    | integer | keyword | operator | mark =>
      rw [ht] at he
      exact (Reply.fail.inj he).1.symm

theorem integer_blames (h : V []) : integer.Blames V := by
  refine integer_picks.blames h fun stop input e rest he => ⟨"integer literal", ?_⟩
  cases input with
  | nil => exact (Reply.fail.inj he).1.symm
  | cons lexeme more =>
    simp only [integer, peek, bind_apply, List.head?_cons, Option.map_some] at he
    cases ht : lexeme.token with
    | integer n =>
      rw [ht] at he
      cases he
    | identifier | keyword | operator | mark =>
      rw [ht] at he
      exact (Reply.fail.inj he).1.symm

theorem boolean_blames (h : V []) : boolean.Blames V :=
  (blames_pure _).ifEat ((blames_pure _).ifEat (blames_refuse _ h))

theorem name_gives : name.Gives fun _ => IsName :=
  fun _ _ x _ hx => ⟨_, tokens_of_name hx, .identifier x⟩

theorem blames_nameThen {f : String → Rule β} (h : V []) (hf : ∀ x, (f x).Blames fun us => V (.identifier x :: us)) :
    (name >>= f).Blames V := by
  refine (name_blames h).bind name_gives fun next ts x hx => ?_
  cases hx
  exact hf x

end Grammar

end Scriptling
