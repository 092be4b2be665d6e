/-
  Scriptling.Proofs.Grammar.Reading — what it means for a rule to read tokens.

  Whether a rule succeeds, and with what value, depends on the tokens of the lexemes only.
  - `Rule.Reads`: before the tokens `us`, the rule reads the tokens `ts` as a value. The
    combinators are put together from it (`Reads.bind`, `FirstReads.skip`).
  - `Rule.Refuses`: the rule fails on these tokens, so that a choice goes on to its next rule.
  - The lemmas named `…_eq_ok_iff` turn a success around: what was read, and what is left.
-/

import Scriptling.Grammar.Line

namespace Scriptling

def tokens (input : List Lexeme) : List Token := input.map Lexeme.token

@[simp] theorem tokens_nil : tokens [] = [] := rfl

@[simp] theorem tokens_cons (lexeme : Lexeme) (input : List Lexeme) :
    tokens (lexeme :: input) = lexeme.token :: tokens input := rfl

@[simp] theorem length_tokens (input : List Lexeme) : (tokens input).length = input.length :=
  List.length_map ..

theorem tokens_eq_cons_iff {input : List Lexeme} {t : Token} {ts : List Token} :
    tokens input = t :: ts ↔ ∃ lexeme rest, input = lexeme :: rest ∧ lexeme.token = t ∧ tokens rest = ts :=
  List.map_eq_cons_iff

theorem tokens_eq_nil_iff {input : List Lexeme} : tokens input = [] ↔ input = [] :=
  List.map_eq_nil_iff

namespace Rule

variable {α β : Type}

/-- Before the tokens `us`, the rule reads the tokens `ts` as the value `a`. -/
def Reads (rule : Rule α) (ts : List Token) (a : α) (us : List Token) : Prop :=
  ∀ stop input, tokens input = ts ++ us → ∃ rest, tokens rest = us ∧ rule stop input = .ok a rest

def Refuses (rule : Rule α) (ts : List Token) : Prop :=
  ∀ stop input, tokens input = ts → ∃ e rest, rule stop input = .fail e rest

/-! ## Sequences -/

theorem Reads.pure (a : α) (us : List Token) : Reads (pure a) [] a us :=
  fun _ input h => ⟨input, h, rfl⟩

theorem Reads.bind {rule : Rule α} {f : α → Rule β} {ts us vs : List Token} {a : α} {b : β}
    (h : rule.Reads ts a (us ++ vs)) (hf : (f a).Reads us b vs) : (rule >>= f).Reads (ts ++ us) b vs := by
  intro stop input hi
  obtain ⟨mid, hm, hr⟩ := h stop input (by simpa using hi)
  obtain ⟨rest, hv, hr'⟩ := hf stop mid hm
  exact ⟨rest, hv, by simp only [bind_apply, hr, hr']⟩

/-- What is read may be made into another value. -/
theorem Reads.returning {rule : Rule α} {ts us : List Token} {a : α} (h : rule.Reads ts a us) (f : α → β) :
    Reads (do let a ← rule; Pure.pure (f a)) ts (f a) us := by
  intro stop input hi
  obtain ⟨rest, hu, hr⟩ := h stop input hi
  exact ⟨rest, hu, by simp only [bind_apply, hr, pure_apply]⟩

theorem Refuses.bind {rule : Rule α} {ts : List Token} (h : rule.Refuses ts) (f : α → Rule β) :
    (rule >>= f).Refuses ts := by
  intro stop input hi
  obtain ⟨e, rest, hr⟩ := h stop input hi
  exact ⟨e, rest, by simp only [bind_apply, hr]⟩

/-- What comes second may refuse as well. -/
theorem Reads.bind_refuses {rule : Rule α} {f : α → Rule β} {ts us : List Token} {a : α}
    (h : rule.Reads ts a us) (hf : (f a).Refuses us) : (rule >>= f).Refuses (ts ++ us) := by
  intro stop input hi
  obtain ⟨mid, hm, hr⟩ := h stop input hi
  obtain ⟨e, rest, hr'⟩ := hf stop mid hm
  exact ⟨e, rest, by simp only [bind_apply, hr, hr']⟩

theorem bind_eq_ok_iff {rule : Rule α} {f : α → Rule β} {stop : Position} {input rest : List Lexeme} {b : β} :
    (rule >>= f) stop input = .ok b rest ↔
      ∃ a mid, rule stop input = .ok a mid ∧ f a stop mid = .ok b rest := by
  rw [bind_apply]
  cases rule stop input with
  | ok a mid =>
    refine ⟨fun h => ⟨a, mid, rfl, h⟩, ?_⟩
    intro h
    obtain ⟨_, _, heq, h⟩ := h
    obtain ⟨rfl, rfl⟩ := Reply.ok.inj heq
    exact h
  | fail e mid => simp

theorem pure_eq_ok_iff {a b : α} {stop : Position} {input rest : List Lexeme} :
    (pure a : Rule α) stop input = .ok b rest ↔ b = a ∧ rest = input := by
  rw [pure_apply, Reply.ok.injEq, eq_comm, @eq_comm _ input]

/-! ## Single tokens -/

theorem ne_of_head {lexeme : Lexeme} {rest : List Lexeme} {t : Token} {us : List Token}
    (hi : tokens (lexeme :: rest) = us) (h : us.head? ≠ some t) : lexeme.token ≠ t := by
  intro heq
  subst heq
  exact h (by rw [← hi]; rfl)

theorem Reads.eat (t : Token) (us : List Token) : Reads (eat t) [t] true us := by
  intro stop input hi
  obtain ⟨lexeme, rest, rfl, ht, hu⟩ := tokens_eq_cons_iff.mp hi
  exact ⟨rest, hu, by rw [eat_cons, if_pos ht]⟩

theorem Reads.eat_not {t : Token} {us : List Token} (h : us.head? ≠ some t) : Reads (Rule.eat t) [] false us := by
  intro stop input hi
  refine ⟨input, hi, ?_⟩
  cases input with
  | nil => rfl
  | cons lexeme rest =>
    rw [eat_cons, if_neg (ne_of_head hi h)]

/-- Where the token stands, the branch that has eaten it goes on. -/
theorem Reads.ifEat {yes : Rule β} {t : Token} {ts us : List Token} {b : β} (h : yes.Reads ts b us)
    (no : Rule β) : Reads (do if ← Rule.eat t then yes else no) (t :: ts) b us :=
  (Reads.eat t (ts ++ us)).bind h

/-- Where another token stands, the other branch goes on. -/
theorem Reads.ifNotEat {no : Rule β} {t : Token} {ts us : List Token} {b : β} (h : no.Reads ts b us)
    (hne : (ts ++ us).head? ≠ some t) (yes : Rule β) : Reads (do if ← Rule.eat t then yes else no) ts b us :=
  (Reads.eat_not hne).bind h

theorem Reads.expect (t : Token) (us : List Token) : Reads (expect t) [t] () us := by
  intro stop input hi
  obtain ⟨lexeme, rest, rfl, ht, hu⟩ := tokens_eq_cons_iff.mp hi
  exact ⟨rest, hu, by rw [expect_cons, if_pos ht]⟩

theorem Reads.expectThen {rule : Rule β} {ts us : List Token} {b : β} (h : rule.Reads ts b us) (t : Token) :
    Reads (do Rule.expect t; rule) (t :: ts) b us :=
  (Reads.expect t (ts ++ us)).bind h

theorem refuses_expect {t : Token} {us : List Token} (h : us.head? ≠ some t) : (Rule.expect t).Refuses us := by
  intro stop input hi
  cases input with
  | nil => exact ⟨_, _, rfl⟩
  | cons lexeme rest =>
    exact ⟨_, _, by rw [expect_cons, if_neg (ne_of_head hi h)]⟩

/-- A token is taken only where it stands. -/
theorem tokens_of_expect {t : Token} {stop : Position} {input rest : List Lexeme} {u : Unit}
    (h : Rule.expect t stop input = .ok u rest) : tokens input = t :: tokens rest := by
  cases input with
  | nil => simp at h
  | cons lexeme more =>
    rw [expect_cons] at h
    split at h
    · rename_i ht
      obtain ⟨-, rfl⟩ := Reply.ok.inj h
      rw [tokens_cons, ht]
    · cases h

/-- Eating says whether the token stood there, and takes it only then. -/
theorem tokens_of_eat {t : Token} {stop : Position} {input rest : List Lexeme} {ate : Bool}
    (h : Rule.eat t stop input = .ok ate rest) :
    (ate = true ∧ tokens input = t :: tokens rest) ∨
      (ate = false ∧ rest = input ∧ (tokens input).head? ≠ some t) := by
  cases input with
  | nil =>
    obtain ⟨rfl, rfl⟩ := Reply.ok.inj h
    exact .inr ⟨rfl, rfl, by simp⟩
  | cons lexeme more =>
    rw [eat_cons] at h
    split at h
    · rename_i ht
      obtain ⟨rfl, rfl⟩ := Reply.ok.inj h
      exact .inl ⟨rfl, by rw [tokens_cons, ht]⟩
    · rename_i ht
      obtain ⟨rfl, rfl⟩ := Reply.ok.inj h
      exact .inr ⟨rfl, rfl, by simpa using ht⟩

/-- Before the end of the text, the branch for more goes on. -/
theorem Reads.ifNotAtEnd {more : Rule β} {ts us : List Token} {b : β} (h : more.Reads ts b us)
    (hne : ts ++ us ≠ []) (whenDone : Rule β) : Reads (do if ← atEnd then whenDone else more) ts b us := by
  intro stop input hi
  obtain ⟨rest, hu, hr⟩ := h stop input hi
  refine ⟨rest, hu, ?_⟩
  cases input with
  | nil => exact absurd hi.symm hne
  | cons lexeme input => exact hr

/-! ## Choice -/

def FirstReads (rules : List (Rule α)) (ts : List Token) (a : α) (us : List Token) : Prop :=
  ∀ best, Reads (firstOf best rules) ts a us

theorem Reads.first {rule : Rule α} {ts us : List Token} {a : α} (h : rule.Reads ts a us)
    (rules : List (Rule α)) : FirstReads (rule :: rules) ts a us := by
  intro best stop input hi
  obtain ⟨rest, hu, hr⟩ := h stop input hi
  exact ⟨rest, hu, by simp only [firstOf, hr]⟩

theorem FirstReads.skip {rule : Rule α} {rules : List (Rule α)} {ts us : List Token} {a : α}
    (h : FirstReads rules ts a us) (hr : rule.Refuses (ts ++ us)) : FirstReads (rule :: rules) ts a us := by
  intro best stop input hi
  obtain ⟨e, rest, hf⟩ := hr stop input hi
  obtain ⟨rest', hu, ha⟩ := h (if best.position < e.position then e else best) stop input hi
  exact ⟨rest', hu, by simp only [firstOf, hf, ha]⟩

theorem FirstReads.skipExpect {t : Token} {f : Unit → Rule α} {rules : List (Rule α)} {ts us : List Token} {a : α}
    (h : FirstReads rules ts a us) (hne : (ts ++ us).head? ≠ some t) :
    FirstReads ((Rule.expect t >>= f) :: rules) ts a us :=
  h.skip ((refuses_expect hne).bind f)

theorem FirstReads.choice {rules : List (Rule α)} {ts us : List Token} {a : α}
    (h : FirstReads rules ts a us) (expected : String) : (Rule.choice expected rules).Reads ts a us :=
  fun stop input hi => h _ stop input hi

/-- A choice answers only what one of its rules answers. -/
theorem mem_of_choice {expected : String} {rules : List (Rule α)} {stop : Position}
    {input rest : List Lexeme} {a : α} (h : Rule.choice expected rules stop input = .ok a rest) :
    ∃ rule ∈ rules, rule stop input = .ok a rest := by
  unfold Rule.choice at h
  generalize mismatch expected stop input = best at h
  induction rules generalizing best with
  | nil => cases h
  | cons rule rules ih =>
    cases hr : rule stop input with
    | ok b after =>
      simp only [firstOf, hr] at h
      exact ⟨rule, List.mem_cons_self .., h ▸ hr⟩
    | fail e after =>
      simp only [firstOf, hr] at h
      obtain ⟨rule', hmem, hr'⟩ := ih _ h
      exact ⟨rule', List.mem_cons_of_mem _ hmem, hr'⟩

/-! ## Rules for one token -/

/-- The rule takes the next token if `pick` makes something of it, and fails without it. -/
def Picks (rule : Rule α) (pick : Token → Option α) : Prop :=
  (∀ stop, ∃ e rest, rule stop [] = .fail e rest) ∧
    ∀ stop lexeme rest,
      match pick lexeme.token with
      | some a => rule stop (lexeme :: rest) = .ok a rest
      | none => ∃ e after, rule stop (lexeme :: rest) = .fail e after

theorem Picks.reads {rule : Rule α} {pick : Token → Option α} (h : rule.Picks pick) {t : Token} {a : α}
    (ht : pick t = some a) (us : List Token) : rule.Reads [t] a us := by
  intro stop input hi
  obtain ⟨lexeme, rest, rfl, rfl, hu⟩ := tokens_eq_cons_iff.mp hi
  have := h.2 stop lexeme rest
  rw [ht] at this
  exact ⟨rest, hu, this⟩

theorem Picks.refuses {rule : Rule α} {pick : Token → Option α} (h : rule.Picks pick) {us : List Token}
    (hu : us.head?.bind pick = none) : rule.Refuses us := by
  intro stop input hi
  cases input with
  | nil => exact h.1 stop
  | cons lexeme rest =>
    have hp : pick lexeme.token = none := by simpa [← hi] using hu
    have := h.2 stop lexeme rest
    rw [hp] at this
    exact this

theorem Picks.tokens_of_ok {rule : Rule α} {pick : Token → Option α} (h : rule.Picks pick)
    {stop : Position} {input rest : List Lexeme} {a : α} (hr : rule stop input = .ok a rest) :
    ∃ t, pick t = some a ∧ tokens input = t :: tokens rest := by
  cases input with
  | nil =>
    obtain ⟨e, rest', hf⟩ := h.1 stop
    rw [hf] at hr
    cases hr
  | cons lexeme more =>
    have := h.2 stop lexeme more
    cases hp : pick lexeme.token with
    | none =>
      rw [hp] at this
      obtain ⟨e, after, hf⟩ := this
      rw [hf] at hr
      cases hr
    | some b =>
      rw [hp] at this
      obtain ⟨rfl, rfl⟩ := Reply.ok.inj (hr.symm.trans this)
      exact ⟨lexeme.token, hp, rfl⟩

end Rule

namespace Grammar

open Rule

def nameOf : Token → Option String
  | .identifier x => some x
  | _ => none

def integerOf : Token → Option Expr
  | .integer n => some (.int n)
  | _ => none

def booleanOf : Token → Option Expr
  | .keyword .true_ => some (.bool true)
  | .keyword .false_ => some (.bool false)
  | _ => none

theorem name_picks : name.Picks nameOf := by
  refine ⟨fun _ => ⟨_, _, rfl⟩, fun stop lexeme rest => ?_⟩
  simp only [name, peek, bind_apply, List.head?_cons, Option.map_some]
  cases lexeme.token with
  | identifier x => rfl
  | integer | keyword | operator | mark => exact ⟨_, _, rfl⟩

theorem integer_picks : integer.Picks integerOf := by
  refine ⟨fun _ => ⟨_, _, rfl⟩, fun stop lexeme rest => ?_⟩
  simp only [integer, peek, bind_apply, List.head?_cons, Option.map_some]
  cases lexeme.token with
  | integer n => rfl
  | identifier | keyword | operator | mark => exact ⟨_, _, rfl⟩

theorem boolean_picks : boolean.Picks booleanOf := by
  refine ⟨fun _ => ⟨_, _, rfl⟩, fun stop lexeme rest => ?_⟩
  obtain ⟨token, _, _, _⟩ := lexeme
  cases token with
  | keyword k => cases k <;> simp [boolean, booleanOf, eat_cons]
  | identifier | integer | operator | mark => simp [boolean, booleanOf, eat_cons]

theorem nameOf_eq_some_iff {t : Token} {x : String} : nameOf t = some x ↔ t = .identifier x := by
  cases t <;> simp [nameOf]

theorem reads_nameThen {β : Type} {f : String → Rule β} {x : String} {ts us : List Token} {b : β}
    (h : (f x).Reads ts b us) : (name >>= f).Reads (.identifier x :: ts) b us :=
  (name_picks.reads rfl (ts ++ us)).bind h

theorem refuses_nameThen {β : Type} {f : String → Rule β} {x : String} {us : List Token} (h : (f x).Refuses us) :
    (name >>= f).Refuses (.identifier x :: us) :=
  (name_picks.reads rfl us).bind_refuses h

theorem tokens_of_name {stop : Position} {input rest : List Lexeme} {x : String}
    (h : name stop input = .ok x rest) : tokens input = .identifier x :: tokens rest := by
  obtain ⟨t, ht, hi⟩ := name_picks.tokens_of_ok h
  rw [hi, nameOf_eq_some_iff.mp ht]

end Grammar

end Scriptling
