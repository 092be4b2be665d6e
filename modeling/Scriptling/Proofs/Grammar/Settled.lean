/-
  Scriptling.Proofs.Grammar.Settled — how far the answer of a rule depends on what follows.

  A rule `Settles` what it answers if the answer stays as it is, whatever comes after the token
  behind the ones that it read, or after the token that it blames. The law has one exception. A name
  with an opening mark after it is read as a variable if no call can be read there, and how far the
  call went is forgotten (`BrokenCall`). A rule that may end in such a name is called loose; what
  comes after it stops at the opening mark (`Stops`).
  - `Settles.bind`, `settles_expectThen`, `Settles.ifEat`, `Settles.ifAtEnd`: sequences.
  - `Settles.chain`, `Settles.separated`, `settles_enclosed`, `settles_untilEnd`: repetitions.

  The two sides of the law are given bounds of their own, since the other text may be longer.
-/

import Scriptling.Proofs.Grammar.Blames
import Scriptling.Proofs.Grammar.Place
import Scriptling.Proofs.Grammar.Progress

namespace Scriptling

namespace Grammar

/-! ## Broken calls -/

def OpensCall (next : Option Token) : Prop := next = some (.mark .openParen) ∨ next = some (.mark .openBracket)

/-- A name has been read, what follows begins like the arguments of a call, and no call can be read
    there. -/
def BrokenCall (read left : List Token) : Prop :=
  ∃ front f, read = front ++ [.identifier f] ∧ OpensCall left.head? ∧
    ∀ ts us e, .identifier f :: left = ts ++ us → IsPrimary ts e → ts = [.identifier f]

theorem BrokenCall.after {read left : List Token} (h : BrokenCall read left) (front : List Token) :
    BrokenCall (front ++ read) left := by
  obtain ⟨front', f, rfl, hopen, hnone⟩ := h
  exact ⟨front ++ front', f, by simp, hopen, hnone⟩

theorem not_brokenCall_nil (read : List Token) : ¬ BrokenCall read [] := by
  rintro ⟨_, _, _, hopen | hopen, _⟩ <;> cases hopen

theorem BrokenCall.length_pos {read left : List Token} (h : BrokenCall read left) : 0 < read.length := by
  obtain ⟨front, f, rfl, -⟩ := h
  simp

end Grammar

namespace Rule

open Grammar

variable {α β : Type} {K L : Prop} {n bound : Nat} {stop : Position}

/-! ## Answers that are settled -/

def Sure (rule : Rule α) (bound : Nat) (ts : List Token) (a : α) (next : Option Token) : Prop :=
  ∀ us, us.head? = next → ts.length + us.length < bound → rule.Reads ts a us

def Stuck (rule : Rule α) (bound : Nat) (ts : List Token) (next : Option Token) : Prop :=
  ∀ us, us.head? = next → ts.length + us.length < bound → rule.Refuses (ts ++ us)

/-- The answer is that of the rule `other` to all that begins like the input, up to the token that
    comes after what was read or that is blamed. Otherwise a call is broken there. -/
def Settled (loose : Prop) (other : Rule α) (bound : Nat) (stop : Position) (input : List Lexeme) : Reply α → Prop
  | .ok a rest => ∃ read, input = read ++ rest ∧
      (other.Sure bound (tokens read) a (tokens rest).head? ∨ loose ∧ BrokenCall (tokens read) (tokens rest))
  | .fail e _ => ∃ read left expected, input = read ++ left ∧ e = mismatch expected stop left ∧
      (other.Stuck bound (tokens read) (tokens left).head? ∨ BrokenCall (tokens read) (tokens left))

def Settles (loose : Prop) (rule other : Rule α) (n bound : Nat) : Prop :=
  ∀ stop input, input.length ≤ n → InOrder stop input → Settled loose other bound stop input (rule stop input)

/-- An answer that is settled for one rule is so for another that has `read` in front of it. -/
theorem Settled.after (read : List Lexeme) {other other' : Rule α} {bound' : Nat} {mid : List Lexeme} {reply : Reply α}
    (h : Settled K other bound stop mid reply) (hKL : K → L)
    (hreads : ∀ ts a us, (ts ++ us).head? = (tokens mid).head? → read.length + (ts ++ us).length < bound' →
      (ts ++ us).length < bound ∧ (other.Reads ts a us → other'.Reads (tokens read ++ ts) a us))
    (hrefuses : ∀ us, us.head? = (tokens mid).head? → read.length + us.length < bound' →
      us.length < bound ∧ (other.Refuses us → other'.Refuses (tokens read ++ us))) :
    Settled L other' bound' stop (read ++ mid) reply := by
  have head {front left : List Lexeme} {us : List Token} (hmid : mid = front ++ left)
      (hus : us.head? = (tokens left).head?) : (tokens front ++ us).head? = (tokens mid).head? := by
    rw [hmid, tokens_append, List.head?_append, List.head?_append, hus]
  cases reply with
  | ok a rest =>
    obtain ⟨front, hmid, hanswer⟩ := h
    refine ⟨read ++ front, by rw [hmid, List.append_assoc], ?_⟩
    rw [tokens_append]
    rcases hanswer with hsure | ⟨hK, hbroken⟩
    · refine .inl fun us hus hlen => ?_
      simp only [List.length_append, length_tokens] at hlen
      obtain ⟨hlen', hread⟩ := hreads _ a _ (head hmid hus) (by simp only [List.length_append, length_tokens]; omega)
      exact hread (hsure us hus (by rwa [← List.length_append]))
    · exact .inr ⟨hKL hK, hbroken.after _⟩
  | fail e rest =>
    obtain ⟨front, left, expected, hmid, he, hanswer⟩ := h
    refine ⟨read ++ front, left, expected, by rw [hmid, List.append_assoc], he, ?_⟩
    rw [tokens_append]
    rcases hanswer with hstuck | hbroken
    · refine .inl fun us hus hlen => ?_
      simp only [List.length_append, length_tokens] at hlen
      obtain ⟨hlen', hrefuse⟩ := hrefuses _ (head hmid hus) (by simp only [List.length_append, length_tokens]; omega)
      rw [List.append_assoc]
      exact hrefuse (hstuck us hus (by rwa [← List.length_append]))
    · exact .inr (hbroken.after _)

/-- One token more in front. -/
theorem Settled.cons {other other' : Rule α} {lexeme : Lexeme} {more : List Lexeme} {reply : Reply α}
    (h : Settled K other (bound - 1) stop more reply)
    (hreads : 0 < bound → ∀ ts a us, other.Reads ts a us → other'.Reads (lexeme.token :: ts) a us)
    (hrefuses : 0 < bound → ∀ us, other.Refuses us → other'.Refuses (lexeme.token :: us)) :
    Settled K other' bound stop (lexeme :: more) reply := by
  refine h.after [lexeme] id (fun ts a us _ hlen => ?_) fun us _ hlen => ?_
  · rw [List.length_singleton] at hlen
    exact ⟨by omega, hreads (by omega) ts a us⟩
  · rw [List.length_singleton] at hlen
    exact ⟨by omega, hrefuses (by omega) us⟩

/-- Another rule that does the same where the input begins as it does. -/
theorem Settled.imp {other other' : Rule α} {input : List Lexeme} {reply : Reply α}
    (h : Settled K other bound stop input reply)
    (hreads : ∀ ts a us, (ts ++ us).head? = (tokens input).head? → other.Reads ts a us → other'.Reads ts a us)
    (hrefuses : ∀ us, us.head? = (tokens input).head? → other.Refuses us → other'.Refuses us) :
    Settled K other' bound stop input reply := by
  refine h.after [] id (fun ts a us hus hlen => ?_) fun us hus hlen => ?_
  · exact ⟨by simpa using hlen, hreads ts a us hus⟩
  · exact ⟨by simpa using hlen, hrefuses us hus⟩

theorem Settled.mono {other : Rule α} {bound' : Nat} {input : List Lexeme} {reply : Reply α}
    (h : Settled K other bound stop input reply) (hKL : K → L) (hbound : bound' ≤ bound) :
    Settled L other bound' stop input reply := by
  refine h.after [] hKL (fun ts a us _ hlen => ?_) fun us _ hlen => ?_
  · rw [List.length_nil] at hlen
    exact ⟨by omega, id⟩
  · rw [List.length_nil] at hlen
    exact ⟨by omega, id⟩

theorem Settles.mono {rule other : Rule α} {m bound' : Nat} (h : Settles K rule other n bound) (hKL : K → L)
    (hm : m ≤ n) (hbound : bound' ≤ bound) : Settles L rule other m bound' :=
  fun stop input hlen hin => (h stop input (by omega) hin).mono hKL hbound

/-- Where there is no room for any text there is nothing to show. -/
theorem Settled.zero {other : Rule α} {input : List Lexeme} {reply : Reply α}
    (h : Settled K other bound stop input reply) (other' : Rule α) : Settled K other' 0 stop input reply :=
  h.after [] id (fun _ _ _ _ hlen => absurd hlen (Nat.not_lt_zero _)) fun _ _ hlen => absurd hlen (Nat.not_lt_zero _)

theorem Settles.of_succ {rule : Rule α} {other : Nat → Rule α}
    (h : ∀ bound, Settles K rule (other (bound + 1)) n (bound + 1)) (bound : Nat) :
    Settles K rule (other bound) n bound := by
  cases bound with
  | zero => exact fun stop input hlen hin => (h 0 stop input hlen hin).zero _
  | succ bound => exact h bound

/-- Where a rule fails, so does whatever it begins. -/
theorem Settled.bind {other : Rule α} {input rest : List Lexeme} {e : SyntaxError}
    (h : Settled K other bound stop input (.fail e rest)) (g : α → Rule β) :
    Settled L (other >>= g) bound stop input (.fail e rest) := by
  obtain ⟨read, left, expected, hinput, he, hstuck | hbroken⟩ := h
  · exact ⟨read, left, expected, hinput, he, .inl fun us hus hlen => (hstuck us hus hlen).bind g⟩
  · exact ⟨read, left, expected, hinput, he, .inr hbroken⟩

theorem settles_pure (a : α) : Settles K (pure a) (pure a) n bound :=
  fun _ _ _ _ => ⟨[], rfl, .inl fun us _ _ => Reads.pure a us⟩

theorem settles_refuse (expected : String) : Settles K (refuse expected : Rule α) (refuse expected) n bound :=
  fun _ input _ _ => ⟨[], input, expected, rfl, rfl, .inl fun _ _ _ _ _ _ => ⟨_, _, rfl⟩⟩

/-! ## Sequences -/

/-- Before the arguments of a call the rule takes nothing: it fails, or leaves all as it is. -/
def Stops (L : Prop) (rule : Rule α) : Prop :=
  ∀ stop input, OpensCall (tokens input).head? →
    (∃ expected rest, rule stop input = .fail (mismatch expected stop input) rest) ∨
      L ∧ ∃ a, rule stop input = .ok a input

/-- What comes after a rule that takes at least `p` lexemes is given so many less. -/
theorem Settles.bindAfter {rule other : Rule α} {f g : α → Rule β} {p : Nat}
    (h : Settles K rule other (n + p) bound)
    (hp : ∀ stop read a rest, rule stop (read ++ rest) = .ok a rest → p ≤ read.length)
    (hf : ∀ a, Settles L (f a) (g a) n (bound - p)) (hstops : K → ∀ a, Stops L (f a)) :
    Settles L (rule >>= f) (other >>= g) (n + p) bound := by
  intro stop input hlen hin
  have hrule := h stop input hlen hin
  rw [bind_apply]
  cases hr : rule stop input with
  | fail e rest => exact (hr ▸ hrule).bind g
  | ok a mid =>
    rw [hr] at hrule
    obtain ⟨read, rfl, hsure | ⟨hK, hbroken⟩⟩ := hrule
    · have hread := hp _ _ _ _ hr
      rw [List.length_append] at hlen
      refine (hf a stop mid (by omega) hin.of_append).after read id (fun ts b us hus hlen => ?_) fun us hus hlen => ?_
      · rw [← length_tokens] at hlen
        exact ⟨by rw [length_tokens] at hlen; omega, (hsure (ts ++ us) hus hlen).bind⟩
      · rw [← length_tokens] at hlen
        exact ⟨by rw [length_tokens] at hlen; omega, (hsure us hus hlen).bind_refuses⟩
    · obtain ⟨_, _, _, hopen, _⟩ := id hbroken
      rcases hstops hK a stop mid hopen with ⟨expected, rest, hfail⟩ | ⟨hL, b, hok⟩
      · simp only [hfail]
        exact ⟨read, mid, expected, rfl, rfl, .inr hbroken⟩
      · simp only [hok]
        exact ⟨read, rfl, .inr ⟨hL, hbroken⟩⟩

theorem Settles.bind {rule other : Rule α} {f g : α → Rule β} (h : Settles K rule other n bound)
    (hf : ∀ a, Settles L (f a) (g a) n bound) (hstops : K → ∀ a, Stops L (f a)) :
    Settles L (rule >>= f) (other >>= g) n bound :=
  Settles.bindAfter (p := 0) h (fun _ _ _ _ _ => Nat.zero_le _) hf hstops

theorem stops_refuse (expected : String) : Stops L (refuse expected : Rule α) :=
  fun _ _ _ => .inl ⟨expected, _, rfl⟩

theorem eat_passes {t : Token} {input : List Lexeme} (h : (tokens input).head? ≠ some t) (stop : Position) :
    eat t stop input = .ok false input := by
  cases input with
  | nil => rfl
  | cons lexeme more => rw [eat_cons, if_neg (by simpa using h)]

theorem expect_fails {t : Token} {input : List Lexeme} (h : (tokens input).head? ≠ some t) (stop : Position) :
    expect t stop input = .fail (mismatch t.describe stop input) input := by
  simp [expect, eat_passes h]

theorem stops_ifEat {t : Token} (ht : ¬ OpensCall (some t)) {no : Rule β} (hno : Stops L no) (yes : Rule β) :
    Stops L (do if ← eat t then yes else no) := by
  intro stop input hopen
  have hne : (tokens input).head? ≠ some t := fun heq => ht (heq ▸ hopen)
  simp only [bind_apply, eat_passes hne]
  exact hno stop input hopen

theorem stops_expectThen {t : Token} (ht : ¬ OpensCall (some t)) (f : Unit → Rule β) : Stops L (expect t >>= f) := by
  intro stop input hopen
  have hne : (tokens input).head? ≠ some t := fun heq => ht (heq ▸ hopen)
  exact .inl ⟨t.describe, input, by simp only [bind_apply, expect_fails hne]⟩

theorem Settles.returning {rule other : Rule α} (h : Settles K rule other n bound) (f : α → β) :
    Settles K (do let a ← rule; pure (f a)) (do let a ← other; pure (f a)) n bound :=
  h.bind (fun _ => settles_pure _) fun hK _ _ _ _ => .inr ⟨hK, _, rfl⟩

/-! ## Single tokens -/

theorem settles_expectThen {f g : Unit → Rule β} (t : Token) (h : Settles K (f ()) (g ()) n bound) :
    Settles K (expect t >>= f) (expect t >>= g) (n + 1) (bound + 1) := by
  intro stop input hlen hin
  rw [bind_apply]
  by_cases hhead : (tokens input).head? = some t
  · obtain ⟨us, hus⟩ := List.head?_eq_some_iff.mp hhead
    obtain ⟨lexeme, more, rfl, rfl, -⟩ := tokens_eq_cons_iff.mp hus
    rw [expect_cons, if_pos rfl]
    exact Settled.cons (h stop more (by simpa using hlen) hin.2) (fun _ _ _ _ hr => hr.expectThen _)
      fun _ us hr => (Reads.expect _ us).bind_refuses hr
  · rw [expect_fails hhead]
    refine ⟨[], input, _, rfl, rfl, .inl fun us hus _ => (refuses_expect ?_).bind g⟩
    rwa [tokens_nil, List.nil_append, hus]

/-- The token that is expected need not be counted. -/
theorem Settles.afterExpect {f g : Unit → Rule β} (h : Settles K (f ()) (g ()) n bound) (t : Token) :
    Settles K (expect t >>= f) (expect t >>= g) n bound :=
  (settles_expectThen t h).mono id (Nat.le_succ n) (Nat.le_succ bound)

theorem settles_expectReturn (t : Token) (b : β) :
    Settles K (do expect t; pure b) (do expect t; pure b) n bound :=
  Settles.afterExpect (f := fun _ => pure b) (g := fun _ => pure b) (settles_pure b) t

theorem Settles.ifEat {yes yes' no no' : Rule β} (t : Token) (hyes : Settles K yes yes' n bound)
    (hno : Settles K no no' n bound) :
    Settles K (do if ← eat t then yes else no) (do if ← eat t then yes' else no') n bound := by
  intro stop input hlen hin
  rw [bind_apply]
  by_cases hhead : (tokens input).head? = some t
  · obtain ⟨us, hus⟩ := List.head?_eq_some_iff.mp hhead
    obtain ⟨lexeme, more, rfl, rfl, -⟩ := tokens_eq_cons_iff.mp hus
    rw [eat_cons, if_pos rfl]
    rw [List.length_cons] at hlen
    exact ((hyes stop more (by omega) hin.2).mono id (Nat.sub_le _ _)).cons (fun _ _ _ _ hr => hr.ifEat _)
      fun _ us hr => (Reads.eat _ us).bind_refuses hr
  · rw [eat_passes hhead]
    exact (hno stop input hlen hin).imp (fun ts b us hus hr => hr.ifNotEat (hus ▸ hhead) _)
      fun us hus hr => (Reads.eat_not (hus ▸ hhead)).bind_refuses hr

theorem reads_ifAtEnd {whenDone : Rule β} {b : β} (h : whenDone.Reads [] b []) (more : Rule β) :
    Reads (do if ← atEnd then whenDone else more) [] b [] := by
  intro stop input hi
  obtain ⟨rest, hrest, hr⟩ := h stop input hi
  obtain rfl := tokens_eq_nil_iff.mp hi
  exact ⟨rest, hrest, hr⟩

theorem Settles.ifAtEnd {whenDone whenDone' more more' : Rule β} (hdone : Settles K whenDone whenDone' n bound)
    (hmore : Settles K more more' n bound) :
    Settles K (do if ← atEnd then whenDone else more) (do if ← atEnd then whenDone' else more') n bound := by
  intro stop input hlen hin
  cases input with
  | nil =>
    refine (hdone stop [] hlen hin).imp (fun ts b us hus hr => ?_) fun us hus hr stop' input' hi => ?_
    · obtain ⟨rfl, rfl⟩ := List.append_eq_nil_iff.mp (List.head?_eq_none_iff.mp hus)
      exact reads_ifAtEnd hr _
    · obtain rfl := List.head?_eq_none_iff.mp hus
      obtain rfl := tokens_eq_nil_iff.mp hi
      exact hr stop' [] rfl
  | cons lexeme input =>
    have some_ne {us : List Token} (hus : us.head? = (tokens (lexeme :: input)).head?) : us ≠ [] := by
      rintro rfl
      cases hus
    refine (hmore stop (lexeme :: input) hlen hin).imp (fun ts b us hus hr => hr.ifNotAtEnd (some_ne hus) _)
      fun us hus hr stop' input' hi => ?_
    cases input' with
    | nil => exact absurd hi.symm (some_ne hus)
    | cons lexeme' input' => exact hr stop' _ hi

/-! ## Repetition -/

def Progresses (rule : Rule α) : Prop := rule.Gives fun _ ts _ => ts ≠ []

theorem Takes.progresses {rule : Rule α} (h : rule.Takes 1) : rule.Progresses := by
  intro stop input a rest hr
  have hreply := h stop input
  rw [hr] at hreply
  cases hreply with
  | ok a hsuffix hless =>
    obtain ⟨read, rfl⟩ := hsuffix
    refine ⟨tokens read, tokens_append read rest, fun hnil => ?_⟩
    rw [tokens_eq_nil_iff.mp hnil, List.nil_append] at hless
    omega

theorem Progresses.length_pos {rule : Rule α} (h : rule.Progresses) (stop : Position) (read : List Lexeme) (a : α)
    (rest : List Lexeme) (hr : rule stop (read ++ rest) = .ok a rest) : 1 ≤ read.length := by
  obtain ⟨ts, hts, hne⟩ := h _ _ _ _ hr
  rw [tokens_append] at hts
  obtain rfl := List.append_cancel_right hts
  rw [← length_tokens]
  exact List.length_pos_iff.mpr hne

theorem Progresses.fails_nil {rule : Rule α} (h : rule.Progresses) (stop : Position) :
    ∃ e rest, rule stop [] = .fail e rest := by
  cases hr : rule stop [] with
  | fail e rest => exact ⟨e, rest, rfl⟩
  | ok a rest =>
    obtain ⟨ts, hts, hne⟩ := h _ _ _ _ hr
    exact absurd (List.append_eq_nil_iff.mp hts.symm).1 hne

/-- Where nothing is left, nothing is read. -/
theorem settles_refuse_nil (expected : String) {other : Rule α} (h : other.Progresses) :
    Settles K (refuse expected) other 0 bound := by
  intro stop input hlen hin
  obtain rfl := List.length_eq_zero_iff.mp (Nat.le_zero.mp hlen)
  refine ⟨[], [], expected, rfl, rfl, .inl fun us hus _ stop' input' hi => ?_⟩
  obtain rfl := List.head?_eq_none_iff.mp hus
  obtain rfl := tokens_eq_nil_iff.mp hi
  exact h.fails_nil stop'

section Chain

variable {accepted : Operator → Bool} {operand operand' : Rule Expr}

theorem chainFrom_succ_operator {op : Operator} (hacc : accepted op = true) (n : Nat) (left : Expr) (stop : Position)
    {lexeme : Lexeme} (ht : lexeme.token = .operator op) (more : List Lexeme) :
    chainFrom accepted operand (n + 1) left stop (lexeme :: more) =
      (operand >>= fun right => chainFrom accepted operand n (.binary op left right)) stop more := by
  simp [chainFrom, peek, advance, ht, Token.operator?, hacc]

/-- A chain goes no further than a broken call. -/
theorem stops_chainFrom (m : Nat) (left : Expr) : Stops True (chainFrom accepted operand m left) := by
  intro stop input hopen
  cases m with
  | zero => exact .inr ⟨trivial, left, rfl⟩
  | succ m =>
    rcases chainFrom_succ_cases m left stop input with ⟨-, heq⟩ | ⟨lexeme, more, op, rfl, ht, -, -⟩
    · exact .inr ⟨trivial, left, heq⟩
    · rw [tokens_cons, ht] at hopen
      rcases hopen with h | h <;> cases h

theorem settles_chainFrom (h : Settles True operand operand' n bound) (m m' : Nat) (hm : m ≤ n) (hm' : m' ≤ bound)
    (left : Expr) :
    Settles True (chainFrom accepted operand m left) (chainFrom accepted operand' m' left) m m' := by
  induction m generalizing m' left with
  | zero =>
    intro stop input hlen _
    obtain rfl := List.length_eq_zero_iff.mp (Nat.le_zero.mp hlen)
    refine ⟨[], rfl, .inl fun us hus _ => chainFrom_stops _ ?_ m' left⟩
    rw [hus]
    simp [EndsChain]
  | succ m ih =>
    intro stop input hlen hin
    rcases chainFrom_succ_cases m left stop input with ⟨hend, heq⟩ | ⟨lexeme, more, op, rfl, ht, hacc, heq⟩
    · rw [heq]
      exact ⟨[], rfl, .inl fun us hus _ => chainFrom_stops _ (hus ▸ hend) m' left⟩
    · rw [heq]
      have hround := Settles.bind (h.mono id (by omega : m ≤ n) (by omega : m' - 1 ≤ bound))
        (fun right => ih (m' - 1) (by omega) (by omega) (.binary op left right)) fun _ right => stops_chainFrom m _
      have hstep {m' : Nat} (hpos : 0 < m') (stop : Position) {us : List Token} {input : List Lexeme}
          (hi : tokens input = lexeme.token :: us) :
          ∃ more, tokens more = us ∧ chainFrom accepted operand' m' left stop input =
            (operand' >>= fun right => chainFrom accepted operand' (m' - 1) (.binary op left right)) stop more := by
        obtain ⟨lexeme', more', rfl, ht', hmore⟩ := tokens_eq_cons_iff.mp hi
        obtain ⟨k, rfl⟩ := Nat.exists_eq_add_one.mpr hpos
        exact ⟨more', hmore, chainFrom_succ_operator hacc k left stop (ht'.trans ht) more'⟩
      rw [List.length_cons] at hlen
      refine (hround stop more (by omega) hin.2).cons (fun hpos ts a us hr stop' input' hi => ?_)
        fun hpos us hr stop' input' hi => ?_
      · obtain ⟨more', hmore, heq⟩ := hstep hpos stop' hi
        rw [heq]
        exact hr stop' more' hmore
      · obtain ⟨more', hmore, heq⟩ := hstep hpos stop' hi
        rw [heq]
        exact hr stop' more' hmore

theorem Settles.chain (h : Settles True operand operand' (n + 1) (bound + 1)) (hprogress : operand.Progresses) :
    Settles True (chain accepted operand n) (chain accepted operand' bound) (n + 1) (bound + 1) :=
  h.bindAfter hprogress.length_pos
    (fun left => settles_chainFrom h n bound (Nat.le_succ _) (Nat.le_succ _) left) fun _ left => stops_chainFrom n left

end Chain

section Separated

variable {closing : Token} {item item' : Rule α}

/-- At the end of the text no item is read, whatever would come after it. -/
theorem settled_nil {rule other : Rule α} {f g : α → Rule β} (hprogress : rule.Progresses)
    (h : Settles K rule other n bound) (stop : Position) :
    Settled L (other >>= g) bound stop [] ((rule >>= f) stop []) := by
  obtain ⟨e, rest, hfail⟩ := hprogress.fails_nil stop
  have hrule := h stop [] (Nat.zero_le _) trivial
  rw [hfail] at hrule
  rw [bind_apply, hfail]
  exact hrule.bind g

theorem settles_separatedFrom (hclosing : ¬ OpensCall (some closing)) (h : Settles K item item' n bound)
    (hprogress : item.Progresses) (m m' : Nat) (hm : m ≤ n) (hm' : m' ≤ bound) (found : List α) :
    Settles False (separatedFrom closing item m found) (separatedFrom closing item' m' found) m m' := by
  have hcomma : ¬ OpensCall (some (.mark .comma)) := by simp [OpensCall]
  have hend (a : α) (found : List α) {m m' : Nat} :
      Settles False (do if ← eat closing then pure (a :: found).reverse else refuse ("',' or " ++ closing.describe))
        (do if ← eat closing then pure (a :: found).reverse else refuse ("',' or " ++ closing.describe)) m m' :=
    (settles_pure _).ifEat closing (settles_refuse _)
  induction m generalizing m' found with
  | zero =>
    intro stop input hlen hin
    obtain rfl := List.length_eq_zero_iff.mp (Nat.le_zero.mp hlen)
    cases m' with
    | zero => exact settled_nil hprogress (h.mono id hm hm') stop
    | succ m' => exact settled_nil hprogress (h.mono id hm hm') stop
  | succ m ih =>
    have hround := (h.mono id hm hm').bindAfter hprogress.length_pos
      (fun a => (ih (m' - 1) (by omega) (by omega) (a :: found)).ifEat (.mark .comma) (hend a found))
      fun _ a => stops_ifEat hcomma (stops_ifEat hclosing (stops_refuse _) _) _
    cases m' with
    | zero => exact fun stop input hlen hin => (hround stop input hlen hin).zero _
    | succ m' => exact hround

theorem Settles.separated (hclosing : ¬ OpensCall (some closing)) (h : Settles K item item' n bound)
    (hprogress : item.Progresses) :
    Settles False (separated closing item n) (separated closing item' bound) n bound :=
  (settles_pure _).ifEat closing
    (settles_separatedFrom hclosing h hprogress n bound (Nat.le_refl _) (Nat.le_refl _) [])

end Separated

section Sequence

variable {closing : Token} {item item' : Rule α}

theorem settles_enclosed (h : Settles False item item' n bound) (hprogress : item.Progresses) (m m' : Nat) (hm : m ≤ n)
    (hm' : m' ≤ bound) (found : List α) :
    Settles False (enclosed closing item m found) (enclosed closing item' m' found) m m' := by
  induction m generalizing m' found with
  | zero =>
    intro stop input hlen hin
    obtain rfl := List.length_eq_zero_iff.mp (Nat.le_zero.mp hlen)
    refine ⟨[], [], _, rfl, rfl, .inl fun us hus _ stop' input' hi => ?_⟩
    obtain rfl := List.head?_eq_none_iff.mp hus
    obtain rfl := tokens_eq_nil_iff.mp hi
    cases m' <;> exact ⟨_, _, rfl⟩
  | succ m ih =>
    have hround := (settles_pure found.reverse).ifEat closing ((settles_refuse closing.describe).ifAtEnd
      ((h.mono id hm hm').bindAfter hprogress.length_pos
        (fun a => ih (m' - 1) (by omega) (by omega) (a :: found)) False.elim))
    cases m' with
    | zero => exact fun stop input hlen hin => (hround stop input hlen hin).zero _
    | succ m' => exact hround

theorem settles_untilEnd (h : Settles False item item' n bound) (hprogress : item.Progresses) (m m' : Nat) (hm : m ≤ n)
    (hm' : m' ≤ bound) (found : List α) :
    Settles False (untilEnd item m found) (untilEnd item' m' found) m m' := by
  induction m generalizing m' found with
  | zero =>
    intro stop input hlen hin
    obtain rfl := List.length_eq_zero_iff.mp (Nat.le_zero.mp hlen)
    refine ⟨[], rfl, .inl fun us hus _ stop' input' hi => ?_⟩
    obtain rfl := List.head?_eq_none_iff.mp hus
    obtain rfl := tokens_eq_nil_iff.mp hi
    cases m' <;> exact ⟨_, rfl, rfl⟩
  | succ m ih =>
    have hround := (settles_pure found.reverse).ifAtEnd ((h.mono id hm hm').bindAfter hprogress.length_pos
      (fun a => ih (m' - 1) (by omega) (by omega) (a :: found)) False.elim)
    cases m' with
    | zero => exact fun stop input hlen hin => (hround stop input hlen hin).zero _
    | succ m' => exact hround

end Sequence

end Rule

end Scriptling
