/-
  Scriptling.Proofs.Grammar.Steady — rules go by the tokens alone.

  Where lexemes stand matters to a rule only in that a choice keeps the error that is furthest on.
  So two texts with the same tokens, each in order, are read alike.
  - `Rule.Twins`: inputs with the same tokens. `Rule.SameError`: errors about the same lexeme of
    both, with the same expectation.
  - `Rule.Steady`: on twin inputs the rule gives the same value, or errors that are the same. There
    is one lemma for each way of putting rules together, and one for each rule of the grammar.
  - `Rule.read_steady`: texts with the same tokens are read as the same value, or have the same fault.
-/

import Scriptling.Proofs.Grammar.Place
import Scriptling.Proofs.Grammar.Reading

namespace Scriptling

namespace Rule

variable {α β : Type} {stop stop' : Position} {input input' left left' : List Lexeme}

/-! ## The same place in two texts -/

structure Twins (stop stop' : Position) (input input' : List Lexeme) : Prop where
  tokens_eq : tokens input = tokens input'
  inOrder : InOrder stop input
  inOrder' : InOrder stop' input'

structure SameEnd (input input' left left' : List Lexeme) : Prop where
  suffix : left <:+ input
  suffix' : left' <:+ input'
  tokens_eq : tokens left = tokens left'

theorem SameEnd.length_eq (h : SameEnd input input' left left') : left.length = left'.length := by
  rw [← length_tokens left, h.tokens_eq, length_tokens]

theorem SameEnd.trans {rest rest' : List Lexeme} (h : SameEnd input input' left left')
    (h' : SameEnd left left' rest rest') : SameEnd input input' rest rest' :=
  ⟨h'.suffix.trans h.suffix, h'.suffix'.trans h.suffix', h'.tokens_eq⟩

theorem Twins.sameEnd (h : Twins stop stop' input input') : SameEnd input input' input input' :=
  ⟨List.suffix_rfl, List.suffix_rfl, h.tokens_eq⟩

theorem Twins.of_end (h : Twins stop stop' input input') (hend : SameEnd input input' left left') :
    Twins stop stop' left left' := by
  obtain ⟨⟨read, rfl⟩, ⟨read', rfl⟩, heq⟩ := hend
  exact ⟨heq, h.inOrder.of_append, h.inOrder'.of_append⟩

/-- Of two ends, the shorter one is at the later place. -/
theorem InOrder.lt_iff_length {rest : List Lexeme} (h : InOrder stop input) (hleft : left <:+ input)
    (hrest : rest <:+ input) : place stop left < place stop rest ↔ rest.length < left.length := by
  obtain ⟨read, rfl⟩ := hleft
  obtain ⟨read', heq⟩ := hrest
  have hlength := congrArg List.length heq
  simp only [List.length_append] at hlength
  rw [h.lt_iff heq.symm]
  omega

/-! ## The same error -/

def SameError (stop stop' : Position) (input input' : List Lexeme) (e e' : SyntaxError) : Prop :=
  ∃ expected left left', SameEnd input input' left left' ∧ e = mismatch expected stop left ∧
    e' = mismatch expected stop' left'

theorem SameError.fault_eq {e e' : SyntaxError} (h : SameError stop stop' input input' e e') : e.fault = e'.fault := by
  obtain ⟨expected, left, left', hend, rfl, rfl⟩ := h
  have htokens := hend.tokens_eq
  cases left with
  | nil =>
    obtain rfl := tokens_eq_nil_iff.mp htokens.symm
    rfl
  | cons lexeme left =>
    obtain ⟨lexeme', left', rfl, htoken, -⟩ := tokens_eq_cons_iff.mp htokens.symm
    simp only [mismatch, htoken]

/-- Of two errors, the one that is further on in one input is so in the other. -/
theorem SameError.furthest (h : Twins stop stop' input input') {best best' e e' : SyntaxError}
    (hbest : SameError stop stop' input input' best best') (he : SameError stop stop' input input' e e') :
    SameError stop stop' input input' (if best.position < e.position then e else best)
      (if best'.position < e'.position then e' else best') := by
  have hiff : best.position < e.position ↔ best'.position < e'.position := by
    obtain ⟨_, left, left', hend, rfl, rfl⟩ := hbest
    obtain ⟨_, rest, rest', hend', rfl, rfl⟩ := he
    simp only [position_mismatch]
    rw [h.inOrder.lt_iff_length hend.suffix hend'.suffix, h.inOrder'.lt_iff_length hend.suffix' hend'.suffix',
      hend.length_eq, hend'.length_eq]
  by_cases hlt : best.position < e.position
  · rwa [if_pos hlt, if_pos (hiff.mp hlt)]
  · rwa [if_neg hlt, if_neg (mt hiff.mpr hlt)]

/-! ## The same answer -/

inductive SameReply (stop stop' : Position) (input input' : List Lexeme) : Reply α → Reply α → Prop
  | ok {rest rest' : List Lexeme} (a : α) : SameEnd input input' rest rest' →
      SameReply stop stop' input input' (.ok a rest) (.ok a rest')
  | fail {e e' : SyntaxError} (rest rest' : List Lexeme) : SameError stop stop' input input' e e' →
      SameReply stop stop' input input' (.fail e rest) (.fail e' rest')

/-- An answer to what is left is one to the whole. -/
theorem SameReply.of_left {reply reply' : Reply α} (hend : SameEnd input input' left left')
    (h : SameReply stop stop' left left' reply reply') : SameReply stop stop' input input' reply reply' := by
  cases h with
  | ok a h => exact .ok a (hend.trans h)
  | fail rest rest' h =>
    obtain ⟨expected, rest, rest', h, he⟩ := h
    exact .fail _ _ ⟨expected, rest, rest', hend.trans h, he⟩

/-- On inputs with the same tokens, the rule answers the same. -/
def Steady (rule : Rule α) : Prop :=
  ∀ stop stop' input input', Twins stop stop' input input' →
    SameReply stop stop' input input' (rule stop input) (rule stop' input')

theorem steady_pure (a : α) : (pure a : Rule α).Steady := fun _ _ _ _ h => .ok a h.sameEnd

theorem steady_refuse (expected : String) : (refuse expected : Rule α).Steady :=
  fun _ _ _ _ h => .fail _ _ ⟨expected, _, _, h.sameEnd, rfl, rfl⟩

theorem Steady.bind {rule : Rule α} {f : α → Rule β} (h : rule.Steady) (hf : ∀ a, (f a).Steady) :
    (rule >>= f).Steady := by
  intro stop stop' input input' htwins
  have hreply := h _ _ _ _ htwins
  simp only [bind_apply]
  generalize rule stop input = reply, rule stop' input' = reply' at hreply
  cases hreply with
  | ok a hend => exact (hf a _ _ _ _ (htwins.of_end hend)).of_left hend
  | fail rest rest' he => exact .fail rest rest' he

/-! ## Single lexemes -/

theorem Twins.head?_eq (h : Twins stop stop' input input') :
    input.head?.map Lexeme.token = input'.head?.map Lexeme.token := by
  rw [← List.head?_map, ← List.head?_map]
  exact congrArg List.head? h.tokens_eq

theorem Twins.tail (h : Twins stop stop' input input') : SameEnd input input' input.tail input'.tail := by
  refine ⟨List.tail_suffix input, List.tail_suffix input', ?_⟩
  rw [tokens, tokens, List.map_tail, List.map_tail]
  exact congrArg List.tail h.tokens_eq

theorem steady_peek : peek.Steady := by
  intro stop stop' input input' h
  rw [peek, peek, h.head?_eq]
  exact .ok _ h.sameEnd

theorem steady_advance : advance.Steady := by
  intro stop stop' input input' h
  rw [advance, advance, h.head?_eq]
  exact .ok _ h.tail

theorem steady_atEnd : atEnd.Steady := by
  intro stop stop' input input' h
  have hempty : input.isEmpty = input'.isEmpty := by
    rw [← List.isEmpty_map (f := Lexeme.token), ← List.isEmpty_map (l := input') (f := Lexeme.token)]
    exact congrArg List.isEmpty h.tokens_eq
  rw [atEnd, atEnd, hempty]
  exact .ok _ h.sameEnd

theorem steady_eat (token : Token) : (eat token).Steady := by
  intro stop stop' input input' h
  cases input with
  | nil =>
    obtain rfl := tokens_eq_nil_iff.mp h.tokens_eq.symm
    exact .ok false h.sameEnd
  | cons lexeme input =>
    obtain ⟨lexeme', input', rfl, htoken, -⟩ := tokens_eq_cons_iff.mp h.tokens_eq.symm
    rw [eat_cons, eat_cons, htoken]
    split
    · exact .ok true h.tail
    · exact .ok false h.sameEnd

theorem Steady.ifEat {yes no : Rule β} (hyes : yes.Steady) (hno : no.Steady) (token : Token) :
    Steady (do if ← eat token then yes else no) := by
  refine (steady_eat token).bind fun ate => ?_
  cases ate with
  | true => exact hyes
  | false => exact hno

theorem Steady.ifAtEnd {whenDone more : Rule β} (hdone : whenDone.Steady) (hmore : more.Steady) :
    Steady (do if ← atEnd then whenDone else more) := by
  refine steady_atEnd.bind fun done => ?_
  cases done with
  | true => exact hdone
  | false => exact hmore

theorem steady_expect (token : Token) : (expect token).Steady := by
  refine (steady_eat token).bind fun ate => ?_
  cases ate with
  | true => exact steady_pure ()
  | false => exact steady_refuse _

theorem steady_expectEnd : expectEnd.Steady := by
  refine steady_atEnd.bind fun done => ?_
  cases done with
  | true => exact steady_pure ()
  | false => exact steady_refuse _

/-! ## Choice and repetition -/

/-- The errors of the rules are the same, and so is the one that is furthest on. -/
theorem firstOf_same {rules : List (Rule α)} (h : ∀ rule ∈ rules, rule.Steady)
    (htwins : Twins stop stop' input input') {best best' : SyntaxError}
    (hbest : SameError stop stop' input input' best best') :
    SameReply stop stop' input input' (firstOf best rules stop input) (firstOf best' rules stop' input') := by
  induction rules generalizing best best' with
  | nil => exact .fail input input' hbest
  | cons rule rules ih =>
    have hreply := h rule (List.mem_cons_self ..) _ _ _ _ htwins
    simp only [firstOf]
    generalize rule stop input = reply, rule stop' input' = reply' at hreply
    cases hreply with
    | ok a hend => exact .ok a hend
    | fail rest rest' he => exact ih (fun rule hmem => h rule (List.mem_cons_of_mem _ hmem)) (hbest.furthest htwins he)

theorem Steady.choice {rules : List (Rule α)} (h : ∀ rule ∈ rules, rule.Steady) (expected : String) :
    (choice expected rules).Steady :=
  fun _ _ _ _ htwins => firstOf_same h htwins ⟨expected, _, _, htwins.sameEnd, rfl, rfl⟩

theorem Steady.chain {operand : Rule Expr} (h : operand.Steady) (accepted : Operator → Bool) (n : Nat) :
    (chain accepted operand n).Steady := by
  refine h.bind fun left => ?_
  induction n generalizing left with
  | zero => exact steady_pure left
  | succ n ih =>
    refine steady_peek.bind fun next => ?_
    split
    · exact steady_pure left
    · split
      · exact steady_advance.bind fun _ => h.bind fun right => ih _
      · exact steady_pure left

theorem Steady.separated {item : Rule α} (h : item.Steady) (closing : Token) (n : Nat) :
    (separated closing item n).Steady := by
  -- After an item the list is closed, or that is the error.
  have hclose (as : List α) (expected : String) :
      Steady (do if ← eat closing then pure as else refuse expected) :=
    (steady_pure as).ifEat (steady_refuse expected) closing
  refine (steady_pure []).ifEat ?_ closing
  generalize ([] : List α) = found
  induction n generalizing found with
  | zero => exact h.bind fun a => hclose _ _
  | succ n ih => exact h.bind fun a => (ih (a :: found)).ifEat (hclose _ _) _

theorem Steady.enclosed {item : Rule α} (h : item.Steady) (closing : Token) (n : Nat) (found : List α) :
    (enclosed closing item n found).Steady := by
  induction n generalizing found with
  | zero => exact (steady_pure _).ifEat (steady_refuse _) closing
  | succ n ih =>
    exact (steady_pure _).ifEat ((steady_refuse _).ifAtEnd (h.bind fun a => ih (a :: found))) closing

theorem Steady.untilEnd {item : Rule α} (h : item.Steady) (n : Nat) (found : List α) :
    (untilEnd item n found).Steady := by
  induction n generalizing found with
  | zero => exact steady_pure _
  | succ n ih => exact (steady_pure _).ifAtEnd (h.bind fun a => ih (a :: found))

/-! ## Whole texts -/

/-- Texts with the same tokens are read as the same, or not for the same fault. -/
theorem read_steady {rule : Nat → Rule α} (h : ∀ n, (rule n).Steady) {source source' : String}
    {lexemes lexemes' : Lexemes} (hscan : Lexeme.scan source = .ok lexemes)
    (hscan' : Lexeme.scan source' = .ok lexemes') (htokens : tokens lexemes.list = tokens lexemes'.list) :
    (read rule source).mapError SyntaxError.fault = (read rule source').mapError SyntaxError.fault := by
  have hlength : lexemes.list.length = lexemes'.list.length := by
    rw [← length_tokens, htokens, length_tokens]
  have hreply := h lexemes'.list.length _ _ _ _ ⟨htokens, Lexeme.scan_inOrder hscan, Lexeme.scan_inOrder hscan'⟩
  simp only [read, hscan, hscan', hlength, bind, Except.bind]
  generalize rule _ lexemes.stop lexemes.list = reply, rule _ lexemes'.stop lexemes'.list = reply' at hreply
  cases hreply with
  | ok a => rfl
  | fail rest rest' he => exact congrArg Except.error he.fault_eq

end Rule

namespace Grammar

open Rule

variable {expr line : Rule Expr}

/-! ## Expressions -/

theorem steady_name : name.Steady := by
  refine steady_peek.bind fun next => ?_
  split
  · exact steady_advance.bind fun _ => steady_pure _
  · exact steady_refuse _

theorem steady_integer : integer.Steady := by
  refine steady_peek.bind fun next => ?_
  split
  · exact steady_advance.bind fun _ => steady_pure _
  · exact steady_refuse _

theorem steady_boolean : boolean.Steady :=
  (steady_pure _).ifEat ((steady_pure _).ifEat (steady_refuse _) _) _

theorem steady_parenthesized {α : Type} {item : Rule α} (h : item.Steady) : (parenthesized item).Steady :=
  (steady_expect _).bind fun _ => h.bind fun _ => (steady_expect _).bind fun _ => steady_pure _

theorem steady_call (h : expr.Steady) (n : Nat) : (call expr n).Steady :=
  steady_name.bind fun _ => (steady_expect _).bind fun _ => (h.separated _ n).bind fun _ => steady_pure _

theorem steady_labelledArgument (h : expr.Steady) : (labelledArgument expr).Steady :=
  steady_name.bind fun _ => (steady_expect _).bind fun _ => h.bind fun _ => steady_pure _

theorem steady_labelledCall (h : expr.Steady) (n : Nat) : (labelledCall expr n).Steady :=
  steady_name.bind fun _ => (steady_expect _).bind fun _ =>
    ((steady_labelledArgument h).separated _ n).bind fun _ => steady_pure _

theorem steady_array (h : expr.Steady) (n : Nat) : (array expr n).Steady :=
  (steady_expect _).bind fun _ => (h.separated _ n).bind fun _ => steady_pure _

theorem steady_primary (h : expr.Steady) (n : Nat) : (primary expr n).Steady := by
  refine Steady.choice (fun rule hmem => ?_) _
  simp only [List.mem_cons, List.not_mem_nil, or_false] at hmem
  rcases hmem with rfl | rfl | rfl | rfl | rfl | rfl | rfl
  · exact steady_parenthesized h
  · exact steady_integer
  · exact steady_call h n
  · exact steady_labelledCall h n
  · exact steady_array h n
  · exact steady_boolean
  · exact steady_name.bind fun _ => steady_pure _

theorem steady_expr (n : Nat) : (Grammar.expr n).Steady := by
  induction n with
  | zero => exact steady_refuse _
  | succ n ih => exact (((steady_primary ih n).chain _ n).chain _ n).chain _ n

/-! ## Lines -/

theorem steady_printLine (h : expr.Steady) : (printLine expr).Steady :=
  (steady_expect _).bind fun _ => (steady_parenthesized h).bind fun _ => (steady_expect _).bind fun _ => steady_pure _

theorem steady_whileLine (h : expr.Steady) (hline : line.Steady) : (whileLine expr line).Steady :=
  (steady_expect _).bind fun _ => (steady_parenthesized h).bind fun _ => hline.bind fun _ => steady_pure _

theorem steady_ifLine (h : expr.Steady) (hline : line.Steady) : (ifLine expr line).Steady :=
  (steady_expect _).bind fun _ => (steady_parenthesized h).bind fun _ => hline.bind fun _ =>
    (hline.bind fun _ => steady_pure _).ifEat (steady_pure _) _

theorem steady_forLine (h : expr.Steady) (hline : line.Steady) : (forLine expr line).Steady :=
  (steady_expect _).bind fun _ => (steady_expect _).bind fun _ => steady_name.bind fun _ =>
    (steady_expect _).bind fun _ => h.bind fun _ => (steady_expect _).bind fun _ => h.bind fun _ =>
      (steady_expect _).bind fun _ => hline.bind fun _ => steady_pure _

theorem steady_assignLine (h : expr.Steady) : (assignLine expr).Steady :=
  steady_name.bind fun _ => (steady_expect _).bind fun _ => h.bind fun _ =>
    (steady_expect _).bind fun _ => steady_pure _

theorem steady_exprLine (h : expr.Steady) : (exprLine expr).Steady :=
  h.bind fun _ => (steady_expect _).bind fun _ => steady_pure _

theorem steady_block (hline : line.Steady) (n : Nat) : (block line n).Steady :=
  (steady_expect _).bind fun _ => (hline.enclosed _ n []).bind fun _ => steady_pure _

theorem steady_line (n : Nat) : (Grammar.line n).Steady := by
  induction n with
  | zero => exact steady_refuse _
  | succ n ih =>
    have hexpr := steady_expr (n + 1)
    refine Steady.choice (fun rule hmem => ?_) _
    simp only [List.mem_cons, List.not_mem_nil, or_false] at hmem
    rcases hmem with rfl | rfl | rfl | rfl | rfl | rfl | rfl
    · exact steady_printLine hexpr
    · exact steady_whileLine hexpr ih
    · exact steady_ifLine hexpr ih
    · exact steady_forLine hexpr ih
    · exact steady_assignLine hexpr
    · exact steady_exprLine hexpr
    · exact steady_block ih n

/-! ## Definitions and whole texts -/

theorem steady_definition (n : Nat) : (definition n).Steady := by
  refine Steady.choice (fun rule hmem => ?_) _
  simp only [List.mem_cons, List.not_mem_nil, or_false] at hmem
  rcases hmem with rfl | rfl
  · exact (steady_expect _).bind fun _ => steady_name.bind fun _ => (steady_expect _).bind fun _ =>
      (steady_expr n).bind fun _ => (steady_expect _).bind fun _ => steady_pure _
  · exact (steady_expect _).bind fun _ => steady_name.bind fun _ => (steady_expect _).bind fun _ =>
      (steady_name.separated _ n).bind fun _ => (steady_block (steady_line n) n).bind fun _ => steady_pure _

theorem steady_wholeExpr (n : Nat) : (wholeExpr n).Steady :=
  (steady_expr n).bind fun _ => steady_expectEnd.bind fun _ => steady_pure _

theorem steady_wholeLines (n : Nat) : (wholeLines n).Steady :=
  (steady_line n).bind fun first => (steady_line n).untilEnd n [first]

theorem steady_wholeProgram (n : Nat) : (wholeProgram n).Steady := (steady_definition n).untilEnd n []

end Grammar

end Scriptling
