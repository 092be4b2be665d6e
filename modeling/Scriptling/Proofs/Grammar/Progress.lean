/-
  Scriptling.Proofs.Grammar.Progress — every rule of the grammar takes a lexeme or fails.

  - `Rule.Takes p`: whatever the rule answers, it leaves an end of its input, and with a value at
    least `p` lexemes less. There is one lemma for each way of putting rules together, and one for
    each rule of the grammar: all of them take one lexeme at least, whatever bound they are given.
  - `Rule.Restores`: where the rule fails it has taken nothing. A choice does so.
  - `Reader.apply_moves`: where a reader comes to stand when a rule is applied.
-/

import Scriptling.Grammar.Reader

namespace Scriptling

namespace Rule

variable {α β : Type} {p : Nat}

/-! ## What is left -/

inductive Within (p : Nat) (input : List Lexeme) : Reply α → Prop
  | ok (a : α) {rest : List Lexeme} : rest <:+ input → rest.length + p ≤ input.length → Within p input (.ok a rest)
  | fail (e : SyntaxError) {rest : List Lexeme} : rest <:+ input → Within p input (.fail e rest)

theorem Within.weaken {input : List Lexeme} {reply : Reply α} (h : Within p input reply) : Within 0 input reply := by
  cases h with
  | ok a hsuffix hlength => exact .ok a hsuffix hsuffix.length_le
  | fail e hsuffix => exact .fail e hsuffix

/-- An answer to what is left is one to the whole. -/
theorem Within.of_left {input left : List Lexeme} {reply : Reply α} (h : Within 0 left reply) (hsuffix : left <:+ input)
    (hlength : left.length + p ≤ input.length) : Within p input reply := by
  cases h with
  | ok a hrest hle => exact .ok a (hrest.trans hsuffix) (by omega)
  | fail e hrest => exact .fail e (hrest.trans hsuffix)

/-- The rule never leaves more than it was given, and takes at least `p` lexemes for a value. -/
def Takes (p : Nat) (rule : Rule α) : Prop := ∀ stop input, Within p input (rule stop input)

theorem Takes.weaken {rule : Rule α} (h : rule.Takes p) : rule.Takes 0 := fun stop input => (h stop input).weaken

theorem takes_pure (a : α) : (pure a : Rule α).Takes 0 := fun _ _ => .ok a List.suffix_rfl (Nat.le_refl _)

theorem takes_refuse (expected : String) : (refuse expected : Rule α).Takes p := fun _ _ => .fail _ List.suffix_rfl

/-- What comes first takes the lexemes. -/
theorem Takes.bind {rule : Rule α} {f : α → Rule β} (h : rule.Takes p) (hf : ∀ a, (f a).Takes 0) :
    (rule >>= f).Takes p := by
  intro stop input
  have hreply := h stop input
  rw [bind_apply]
  generalize rule stop input = reply at hreply
  cases hreply with
  | ok a hsuffix hlength => exact (hf a stop _).of_left hsuffix hlength
  | fail e hsuffix => exact .fail e hsuffix

/-! ## Single lexemes -/

theorem takes_peek : peek.Takes 0 := fun _ _ => .ok _ List.suffix_rfl (Nat.le_refl _)

theorem takes_advance : advance.Takes 0 :=
  fun _ input => .ok _ (List.tail_suffix input) (List.tail_suffix input).length_le

/-- The branch that has eaten a token need not take another. -/
theorem Takes.ifEat {yes no : Rule β} (hp : p ≤ 1) (hyes : yes.Takes 0) (hno : no.Takes p) (token : Token) :
    Takes p (do if ← eat token then yes else no) := by
  intro stop input
  cases input with
  | nil => exact hno stop []
  | cons lexeme rest =>
    simp only [bind_apply, eat_cons]
    by_cases ht : lexeme.token = token
    · simp only [if_pos ht]
      exact (hyes stop rest).of_left (List.suffix_cons _ _) (by simpa using hp)
    · simp only [if_neg ht]
      exact hno stop (lexeme :: rest)

theorem Takes.ifAtEnd {whenDone more : Rule β} (hdone : whenDone.Takes p) (hmore : more.Takes p) :
    Takes p (do if ← atEnd then whenDone else more) := by
  intro stop input
  cases input with
  | nil => exact hdone stop []
  | cons lexeme rest => exact hmore stop (lexeme :: rest)

theorem takes_expect (token : Token) : (expect token).Takes 1 :=
  (takes_pure ()).ifEat (Nat.le_refl 1) (takes_refuse _) token

/-! ## Choice and repetition -/

def Restores (rule : Rule α) : Prop := ∀ stop input e rest, rule stop input = .fail e rest → rest = input

theorem restores_refuse (expected : String) : (refuse expected : Rule α).Restores := by
  intro stop input e rest h
  cases h
  rfl

theorem restores_firstOf (best : SyntaxError) (rules : List (Rule α)) : (firstOf best rules).Restores := by
  intro stop input e rest h
  induction rules generalizing best with
  | nil =>
    cases h
    rfl
  | cons rule rules ih =>
    rw [firstOf] at h
    split at h
    · cases h
    · exact ih _ h

theorem restores_choice (expected : String) (rules : List (Rule α)) : (choice expected rules).Restores :=
  fun stop input => restores_firstOf _ rules stop input

theorem Takes.choice {rules : List (Rule α)} (h : ∀ rule ∈ rules, rule.Takes p) (expected : String) :
    (choice expected rules).Takes p := by
  intro stop input
  rw [Rule.choice]
  generalize mismatch expected stop input = best
  induction rules generalizing best with
  | nil => exact .fail best List.suffix_rfl
  | cons rule rules ih =>
    have hreply := h rule (List.mem_cons_self ..) stop input
    rw [firstOf]
    generalize rule stop input = reply at hreply
    cases hreply with
    | ok a hsuffix hlength => exact .ok a hsuffix hlength
    | fail e _ => exact ih (fun rule hmem => h rule (List.mem_cons_of_mem _ hmem)) _

theorem Takes.chainFrom {operand : Rule Expr} (h : operand.Takes p) (accepted : Operator → Bool) (n : Nat)
    (left : Expr) : (chainFrom accepted operand n left).Takes 0 := by
  induction n generalizing left with
  | zero => exact takes_pure left
  | succ n ih =>
    refine takes_peek.bind fun next => ?_
    split
    · exact takes_pure left
    · split
      · exact takes_advance.bind fun _ => h.weaken.bind fun right => ih _
      · exact takes_pure left

theorem Takes.chain {operand : Rule Expr} (h : operand.Takes p) (accepted : Operator → Bool) (n : Nat) :
    (chain accepted operand n).Takes p :=
  h.bind fun left => h.chainFrom accepted n left

theorem Takes.separated {item : Rule α} (h : item.Takes p) (closing : Token) (n : Nat) :
    (separated closing item n).Takes 0 := by
  have hclose (as : List α) (expected : String) :
      Takes 0 (do if ← eat closing then pure as else refuse expected) :=
    (takes_pure as).ifEat (Nat.zero_le 1) (takes_refuse expected) closing
  refine (takes_pure []).ifEat (Nat.zero_le 1) ?_ closing
  generalize ([] : List α) = found
  induction n generalizing found with
  | zero => exact h.weaken.bind fun a => hclose _ _
  | succ n ih => exact h.weaken.bind fun a => (ih (a :: found)).ifEat (Nat.zero_le 1) (hclose _ _) _

theorem Takes.enclosed {item : Rule α} (h : item.Takes p) (closing : Token) (n : Nat) (found : List α) :
    (enclosed closing item n found).Takes 0 := by
  induction n generalizing found with
  | zero => exact (takes_pure _).ifEat (Nat.zero_le 1) (takes_refuse _) closing
  | succ n ih =>
    have hmore := (takes_refuse closing.describe).ifAtEnd (h.weaken.bind fun a => ih (a :: found))
    exact (takes_pure _).ifEat (Nat.zero_le 1) hmore closing

end Rule

namespace Grammar

open Rule

variable {expr line : Rule Expr} {p : Nat}

/-! ## Expressions -/

theorem takes_name : name.Takes 1 := by
  intro stop input
  cases input with
  | nil => exact .fail _ List.suffix_rfl
  | cons lexeme rest =>
    simp only [name, peek, bind_apply, List.head?_cons, Option.map_some]
    cases lexeme.token with
    | identifier x => exact .ok x (List.suffix_cons _ _) (Nat.le_refl _)
    | integer | keyword | operator | mark => exact .fail _ List.suffix_rfl

theorem takes_integer : integer.Takes 1 := by
  intro stop input
  cases input with
  | nil => exact .fail _ List.suffix_rfl
  | cons lexeme rest =>
    simp only [integer, peek, bind_apply, List.head?_cons, Option.map_some]
    cases lexeme.token with
    | integer n => exact .ok (Expr.int n) (List.suffix_cons _ _) (Nat.le_refl _)
    | identifier | keyword | operator | mark => exact .fail _ List.suffix_rfl

theorem takes_boolean : boolean.Takes 1 :=
  (takes_pure _).ifEat (Nat.le_refl 1) ((takes_pure _).ifEat (Nat.le_refl 1) (takes_refuse _) _) _

theorem takes_parenthesized {α : Type} {item : Rule α} (h : item.Takes p) : (parenthesized item).Takes 1 :=
  (takes_expect _).bind fun _ => h.weaken.bind fun _ => (takes_expect _).weaken.bind fun _ => takes_pure _

theorem takes_call (h : expr.Takes p) (n : Nat) : (call expr n).Takes 1 :=
  takes_name.bind fun _ => (takes_expect _).weaken.bind fun _ => (h.separated _ n).bind fun _ => takes_pure _

theorem takes_labelledArgument (h : expr.Takes p) : (labelledArgument expr).Takes 1 :=
  takes_name.bind fun _ => (takes_expect _).weaken.bind fun _ => h.weaken.bind fun _ => takes_pure _

theorem takes_labelledCall (h : expr.Takes p) (n : Nat) : (labelledCall expr n).Takes 1 :=
  takes_name.bind fun _ => (takes_expect _).weaken.bind fun _ =>
    ((takes_labelledArgument h).separated _ n).bind fun _ => takes_pure _

theorem takes_array (h : expr.Takes p) (n : Nat) : (array expr n).Takes 1 :=
  (takes_expect _).bind fun _ => (h.separated _ n).bind fun _ => takes_pure _

/-- A primary takes a lexeme before it comes to an expression nested in it. -/
theorem takes_primary (h : expr.Takes p) (n : Nat) : (primary expr n).Takes 1 := by
  refine Takes.choice (fun rule hmem => ?_) _
  simp only [List.mem_cons, List.not_mem_nil, or_false] at hmem
  rcases hmem with rfl | rfl | rfl | rfl | rfl | rfl | rfl
  · exact takes_parenthesized h
  · exact takes_integer
  · exact takes_call h n
  · exact takes_labelledCall h n
  · exact takes_array h n
  · exact takes_boolean
  · exact takes_name.bind fun _ => takes_pure _

theorem takes_product (h : expr.Takes p) (n : Nat) : (product expr n).Takes 1 := (takes_primary h n).chain _ n

theorem takes_sum (h : expr.Takes p) (n : Nat) : (sum expr n).Takes 1 := (takes_product h n).chain _ n

theorem takes_comparison (h : expr.Takes p) (n : Nat) : (comparison expr n).Takes 1 := (takes_sum h n).chain _ n

theorem takes_expr (n : Nat) : (Grammar.expr n).Takes 1 := by
  induction n with
  | zero => exact takes_refuse _
  | succ n ih => exact takes_comparison ih n

/-! ## Lines -/

theorem takes_printLine (h : expr.Takes p) : (printLine expr).Takes 1 :=
  (takes_expect _).bind fun _ => (takes_parenthesized h).weaken.bind fun _ =>
    (takes_expect _).weaken.bind fun _ => takes_pure _

theorem takes_whileLine (h : expr.Takes p) (hline : line.Takes 1) : (whileLine expr line).Takes 1 :=
  (takes_expect _).bind fun _ => (takes_parenthesized h).weaken.bind fun _ => hline.weaken.bind fun _ => takes_pure _

theorem takes_ifLine (h : expr.Takes p) (hline : line.Takes 1) : (ifLine expr line).Takes 1 :=
  (takes_expect _).bind fun _ => (takes_parenthesized h).weaken.bind fun _ => hline.weaken.bind fun _ =>
    (hline.weaken.bind fun _ => takes_pure _).ifEat (Nat.zero_le 1) (takes_pure _) _

theorem takes_forLine (h : expr.Takes p) (hline : line.Takes 1) : (forLine expr line).Takes 1 :=
  (takes_expect _).bind fun _ => (takes_expect _).weaken.bind fun _ => takes_name.weaken.bind fun _ =>
    (takes_expect _).weaken.bind fun _ => h.weaken.bind fun _ => (takes_expect _).weaken.bind fun _ =>
      h.weaken.bind fun _ => (takes_expect _).weaken.bind fun _ => hline.weaken.bind fun _ => takes_pure _

theorem takes_assignLine (h : expr.Takes p) : (assignLine expr).Takes 1 :=
  takes_name.bind fun _ => (takes_expect _).weaken.bind fun _ => h.weaken.bind fun _ =>
    (takes_expect _).weaken.bind fun _ => takes_pure _

/-- Only here a line begins with an expression, which has to take the lexeme. -/
theorem takes_exprLine (h : expr.Takes p) : (exprLine expr).Takes p :=
  h.bind fun _ => (takes_expect _).weaken.bind fun _ => takes_pure _

theorem takes_block (hline : line.Takes p) (n : Nat) : (block line n).Takes 1 :=
  (takes_expect _).bind fun _ => (hline.enclosed _ n []).bind fun _ => takes_pure _

theorem takes_anyLine (h : expr.Takes 1) (hline : line.Takes 1) (n : Nat) : (anyLine expr line n).Takes 1 := by
  refine Takes.choice (fun rule hmem => ?_) _
  simp only [List.mem_cons, List.not_mem_nil, or_false] at hmem
  rcases hmem with rfl | rfl | rfl | rfl | rfl | rfl | rfl
  · exact takes_printLine h
  · exact takes_whileLine h hline
  · exact takes_ifLine h hline
  · exact takes_forLine h hline
  · exact takes_assignLine h
  · exact takes_exprLine h
  · exact takes_block hline n

theorem takes_line (n : Nat) : (Grammar.line n).Takes 1 := by
  induction n with
  | zero => exact takes_refuse _
  | succ n ih => exact takes_anyLine (takes_expr (n + 1)) ih n

theorem restores_line (n : Nat) : (Grammar.line n).Restores := by
  cases n with
  | zero => exact restores_refuse _
  | succ n => exact restores_choice _ _

/-! ## Definitions -/

theorem takes_globalDefinition (h : expr.Takes p) : (globalDefinition expr).Takes 1 :=
  (takes_expect _).bind fun _ => takes_name.weaken.bind fun _ => (takes_expect _).weaken.bind fun _ =>
    h.weaken.bind fun _ => (takes_expect _).weaken.bind fun _ => takes_pure _

theorem takes_functionDefinition {block : Rule Expr} (h : block.Takes p) (n : Nat) :
    (functionDefinition block n).Takes 1 :=
  (takes_expect _).bind fun _ => takes_name.weaken.bind fun _ => (takes_expect _).weaken.bind fun _ =>
    (takes_name.separated _ n).bind fun _ => h.weaken.bind fun _ => takes_pure _

theorem takes_definition (n : Nat) : (definition n).Takes 1 := by
  refine Takes.choice (fun rule hmem => ?_) _
  simp only [List.mem_cons, List.not_mem_nil, or_false] at hmem
  rcases hmem with rfl | rfl
  · exact takes_globalDefinition (takes_expr n)
  · exact takes_functionDefinition (takes_block (takes_line n) n) n

end Grammar

/-! ## Readers -/

namespace Reader

theorem length_rest (reader : Reader) : reader.rest.length = reader.size - reader.index := by
  rw [rest, List.length_drop, size]

theorem leaving_rest (reader : Reader) : reader.leaving reader.rest = reader := by
  rw [leaving, Nat.sub_self]
  rfl

theorem apply_congr {α : Type} {reader : Reader} {rule rule' : Rule α}
    (h : rule reader.lexemes.stop reader.rest = rule' reader.lexemes.stop reader.rest) :
    reader.apply rule = reader.apply rule' := by
  rw [apply, apply, h]

/-- With a value the reader has moved on in the text. With an error it has not moved back, and it has
    not left the text. -/
theorem apply_moves {α : Type} {rule : Rule α} (h : rule.Takes 1) (reader : Reader) :
    (∀ a after, reader.apply rule = (.ok a, after) → reader.index < after.index ∧ after.index ≤ reader.size) ∧
      ∀ e after, reader.apply rule = (.error e, after) →
        reader.index ≤ after.index ∧ after.index ≤ max reader.index reader.size := by
  have hlength := reader.length_rest
  have hreply := h reader.lexemes.stop reader.rest
  rw [apply]
  generalize rule reader.lexemes.stop reader.rest = reply at hreply
  cases hreply with
  | ok a hsuffix hless =>
    refine ⟨fun b after heq => ?_, fun _ _ heq => (by cases heq)⟩
    obtain ⟨-, rfl⟩ := Prod.mk.inj heq
    simp only [leaving, moveTo]
    omega
  | fail e hsuffix =>
    refine ⟨fun _ _ heq => (by cases heq), fun e after heq => ?_⟩
    obtain ⟨-, rfl⟩ := Prod.mk.inj heq
    simp only [leaving, moveTo]
    omega

/-- A rule that takes nothing where it fails leaves the reader where it was. -/
theorem apply_restores {α : Type} {rule : Rule α} (h : rule.Restores) {reader after : Reader} {e : SyntaxError}
    (heq : reader.apply rule = (.error e, after)) : after = reader := by
  rw [apply] at heq
  split at heq
  · cases heq
  · rename_i e' rest hfail
    obtain ⟨-, rfl⟩ := Prod.mk.inj heq
    rw [h _ _ _ _ hfail, leaving_rest]

end Reader

end Scriptling
