/-
  Scriptling.Proofs.Grammar.Shape — the trees that can be derived.

  Operands are built from literals, names, arrays, operators and calls; statements are operands,
  assignments, prints, blocks, loops and conditions. The first branch of a condition with two
  branches must not be `Open`, or the `else` would go with a condition inside it.
  - `IsExpr.isOperand`, `IsLine.isStatement`, `IsDefinition.wellFormed`: no other trees are derived
    from tokens that can be written.
-/

import Scriptling.Proofs.Grammar.Complete
import Scriptling.Proofs.Lexeme.Layout

namespace Scriptling

/-! ## Operands and statements -/

namespace Expr

inductive IsOperand : Expr → Prop
  | int {n : Nat} : n ≤ maxInteger → IsOperand (.int n)
  | bool (b : Bool) : IsOperand (.bool b)
  | var {x : String} : Nameable x → IsOperand (.var x)
  | array {items : List Expr} : (∀ e ∈ items, IsOperand e) → IsOperand (.array items)
  | binary (op : Operator) {left right : Expr} : IsOperand left → IsOperand right →
      IsOperand (.binary op left right)
  | call {f : String} {arguments : List Expr} : Nameable f → (∀ e ∈ arguments, IsOperand e) →
      IsOperand (.call f arguments)
  | labelledCall {f : String} {arguments : List (String × Expr)} : Nameable f →
      (∀ a ∈ arguments, Nameable a.1) → (∀ a ∈ arguments, IsOperand a.2) → IsOperand (.labelledCall f arguments)

/-- The tree ends with a condition that has no `else` yet. -/
inductive Open : Expr → Prop
  | ifThen (condition body : Expr) : Open (.ifThen condition body)
  | ifElse (condition body : Expr) {orElse : Expr} : Open orElse → Open (.ifElse condition body orElse)
  | whileDo (condition : Expr) {body : Expr} : Open body → Open (.whileDo condition body)

inductive IsStatement : Expr → Prop
  | operand {e : Expr} : IsOperand e → IsStatement e
  | assign {x : String} {value : Expr} : Nameable x → IsOperand value → IsStatement (.assign x value)
  | println {argument : Expr} : IsOperand argument → IsStatement (.println argument)
  | block {lines : List Expr} : (∀ e ∈ lines, IsStatement e) → IsStatement (.block lines)
  | whileDo {condition body : Expr} : IsOperand condition → IsStatement body →
      IsStatement (.whileDo condition body)
  | ifThen {condition body : Expr} : IsOperand condition → IsStatement body →
      IsStatement (.ifThen condition body)
  | ifElse {condition body orElse : Expr} : IsOperand condition → IsStatement body → ¬ Open body →
      IsStatement orElse → IsStatement (.ifElse condition body orElse)

end Expr

inductive Definition.WellFormed : Definition → Prop
  | global {x : String} {value : Expr} : Nameable x → value.IsOperand → WellFormed (.global x value)
  | function {f : String} {params : List String} {lines : List Expr} : Nameable f → (∀ x ∈ params, Nameable x) →
      (∀ e ∈ lines, e.IsStatement) → WellFormed (.function ⟨f, params, .block lines⟩)

namespace Grammar

/-! ## What is derived -/

section Derived

variable {α : Type} {n : Nat}

theorem IsChain.isOperand {operators : List Operator} {D : List Token → Expr → Prop}
    (hD : ∀ ts e, D ts e → ts.length ≤ n → Writable ts → e.IsOperand) {ts : List Token} {e : Expr}
    (h : IsChain operators D ts e) (hn : ts.length ≤ n) (hw : Writable ts) : e.IsOperand := by
  induction h with
  | single hd => exact hD _ _ hd hn hw
  | more _ _ hr ih =>
    simp only [List.length_append, List.length_cons] at hn
    rw [writable_append, writable_cons] at hw
    exact .binary _ (ih (by omega) hw.1) (hD _ _ hr (by omega) hw.2.2)

theorem IsItems.all {D : List Token → α → Prop} {P : α → Prop}
    (hD : ∀ ts a, D ts a → ts.length ≤ n → Writable ts → P a) {ts : List Token} {as : List α}
    (h : IsItems D ts as) (hn : ts.length ≤ n) (hw : Writable ts) : ∀ a ∈ as, P a := by
  induction h with
  | last hd => simpa using hD _ _ hd hn hw
  | more hd _ ih =>
    simp only [List.length_append, List.length_cons] at hn
    rw [writable_append, writable_cons] at hw
    exact List.forall_mem_cons.mpr ⟨hD _ _ hd (by omega) hw.1, ih (by omega) hw.2.2⟩

theorem IsSeparated.all {D : List Token → α → Prop} {P : α → Prop}
    (hD : ∀ ts a, D ts a → ts.length ≤ n → Writable ts → P a) {ts : List Token} {as : List α}
    (h : IsSeparated D ts as) (hn : ts.length ≤ n) (hw : Writable ts) : ∀ a ∈ as, P a := by
  cases h with
  | nothing => simp
  | items hi => exact hi.all hD hn hw

theorem IsSequence.all {D : Option Token → List Token → α → Prop} {P : α → Prop} {next : Option Token}
    (hD : ∀ next ts a, D next ts a → ts.length ≤ n → Writable ts → P a) {ts : List Token} {as : List α}
    (h : IsSequence D next ts as) (hn : ts.length ≤ n) (hw : Writable ts) : ∀ a ∈ as, P a := by
  induction h with
  | nil => simp
  | cons hd _ ih =>
    rw [List.length_append] at hn
    rw [writable_append] at hw
    exact List.forall_mem_cons.mpr ⟨hD _ _ _ hd (by omega) hw.1, ih (by omega) hw.2⟩

theorem IsPrimary.isOperand (hexpr : ∀ ts e, IsExpr ts e → ts.length ≤ n → Writable ts → e.IsOperand)
    {ts : List Token} {e : Expr} (h : IsPrimary ts e) (hn : ts.length ≤ n + 1) (hw : Writable ts) : e.IsOperand := by
  cases h with
  | group hd =>
    simp only [List.length_append, List.length_cons] at hn
    simp only [writable_append, writable_cons] at hw
    exact hexpr _ _ hd (by omega) hw.1.2
  | integer m => exact .int (by simpa using hw)
  | call hs =>
    simp only [List.length_append, List.length_cons] at hn
    simp only [writable_append, writable_cons] at hw
    exact .call hw.1.1 (hs.all hexpr (by omega) hw.1.2.2)
  | @labelledCall f ts es hs =>
    have harg (us : List Token) (a : String × Expr) (ha : IsArgument us a) (hlen : us.length ≤ n)
        (hus : Writable us) : Nameable a.1 ∧ a.2.IsOperand := by
      cases ha with
      | label hd =>
        simp only [List.length_cons] at hlen
        simp only [writable_cons] at hus
        exact ⟨hus.1, hexpr _ _ hd (by omega) hus.2.2⟩
    simp only [List.length_append, List.length_cons] at hn
    simp only [writable_append, writable_cons] at hw
    have hall := hs.all harg (by omega) hw.1.2.2
    exact .labelledCall hw.1.1 (fun a ha => (hall a ha).1) fun a ha => (hall a ha).2
  | array hs =>
    simp only [List.length_append, List.length_cons] at hn
    simp only [writable_append, writable_cons] at hw
    exact .array (hs.all hexpr (by omega) hw.1.2)
  | boolTrue => exact .bool true
  | boolFalse => exact .bool false
  | var x => exact .var (by simpa using hw)

end Derived

/-- What is derived as an expression is an operand. -/
theorem IsExpr.isOperand {ts : List Token} {e : Expr} (h : IsExpr ts e) (hw : Writable ts) : e.IsOperand := by
  -- Expressions nested in an expression have fewer tokens.
  have bounded (n : Nat) : ∀ ts e, IsExpr ts e → ts.length ≤ n → Writable ts → e.IsOperand := by
    induction n with
    | zero =>
      intro ts e h hn
      obtain ⟨_, _, rfl, -⟩ := h.begins
      simp at hn
    | succ n ih =>
      have hproduct (ts : List Token) (e : Expr) : IsProduct ts e → ts.length ≤ n + 1 → Writable ts → e.IsOperand
        | .chain h => h.isOperand fun _ _ => IsPrimary.isOperand ih
      have hsum (ts : List Token) (e : Expr) : IsSum ts e → ts.length ≤ n + 1 → Writable ts → e.IsOperand
        | .chain h => h.isOperand hproduct
      intro ts e h
      cases h with
      | chain h => exact h.isOperand hsum
  exact bounded _ ts e h (Nat.le_refl _) hw

theorem IsParenthesized.isOperand {ts : List Token} {e : Expr} (h : IsParenthesized ts e) (hw : Writable ts) :
    e.IsOperand := by
  cases h with
  | parens hd =>
    simp only [writable_append, writable_cons] at hw
    exact hd.isOperand hw.1.2

theorem countedLoop_isStatement {x : String} {first bound body : Expr} (hx : Nameable x) (hf : first.IsOperand)
    (hb : bound.IsOperand) (hbody : body.IsStatement) : (countedLoop x first bound body).IsStatement := by
  have hnext : (Expr.assign x (.binary .add (.var x) (.int 1))).IsStatement :=
    .assign hx (.binary _ (.var hx) (.int (n := 1) (by decide)))
  have hloop : (Expr.whileDo (.binary .less (.var x) bound)
      (.block [body, .assign x (.binary .add (.var x) (.int 1))])).IsStatement :=
    .whileDo (.binary _ (.var hx) hb) (.block (by simp [hbody, hnext]))
  exact .block (by simp [hloop, Expr.IsStatement.assign hx hf])

/-- What is derived as a line is a statement, and it is not open where an `else` follows. -/
theorem IsLine.isStatement {next : Option Token} {ts : List Token} {e : Expr} (h : IsLine next ts e)
    (hw : Writable ts) : e.IsStatement ∧ (next = some (.keyword .else_) → ¬ e.Open) := by
  have bounded (n : Nat) : ∀ next ts e, IsLine next ts e → ts.length ≤ n → Writable ts →
      e.IsStatement ∧ (next = some (.keyword .else_) → ¬ e.Open) := by
    induction n with
    | zero =>
      intro next ts e h hn
      obtain ⟨_, _, rfl, -⟩ := h.begins
      simp at hn
    | succ n ih =>
      intro next ts e h hn hw
      cases h with
      | println hc =>
        simp only [writable_append, writable_cons] at hw
        exact ⟨.println (hc.isOperand hw.1.2), fun _ h => by cases h⟩
      | whileDo hc hb =>
        simp only [List.length_append, List.length_cons] at hn
        simp only [writable_append, writable_cons] at hw
        obtain ⟨hbody, hopen⟩ := ih _ _ _ hb (by omega) hw.2
        refine ⟨.whileDo (hc.isOperand hw.1.2) hbody, fun hnext h => ?_⟩
        cases h with
        | whileDo _ h => exact hopen hnext h
      | ifThen hc hb helse =>
        simp only [List.length_append, List.length_cons] at hn
        simp only [writable_append, writable_cons] at hw
        obtain ⟨hbody, -⟩ := ih _ _ _ hb (by omega) hw.2
        exact ⟨.ifThen (hc.isOperand hw.1.2) hbody, fun hnext => absurd hnext helse⟩
      | ifElse hc hb ho =>
        simp only [List.length_append, List.length_cons] at hn
        simp only [writable_append, writable_cons] at hw
        obtain ⟨hbody, hclosed⟩ := ih _ _ _ hb (by omega) hw.1.2
        obtain ⟨hother, hopen⟩ := ih _ _ _ ho (by omega) hw.2.2
        refine ⟨.ifElse (hc.isOperand hw.1.1.2) hbody (hclosed rfl) hother, fun hnext h => ?_⟩
        cases h with
        | ifElse _ _ h => exact hopen hnext h
      | forIn hf hb hl =>
        simp only [List.length_append, List.length_cons] at hn
        simp only [writable_append, writable_cons] at hw
        obtain ⟨hbody, -⟩ := ih _ _ _ hl (by omega) hw.2.2
        exact ⟨countedLoop_isStatement hw.1.1.2.2.1 (hf.isOperand hw.1.1.2.2.2.2) (hb.isOperand hw.1.2.2) hbody,
          fun _ h => by cases h⟩
      | assign hv =>
        simp only [writable_append, writable_cons] at hw
        exact ⟨.assign hw.1.1 (hv.isOperand hw.1.2.2), fun _ h => by cases h⟩
      | expr hv =>
        rw [writable_append] at hw
        have hoperand := hv.isOperand hw.1
        exact ⟨.operand hoperand, fun _ h => by cases h <;> cases hoperand⟩
      | block hb =>
        obtain ⟨hs⟩ := hb
        simp only [List.length_append, List.length_cons] at hn
        simp only [writable_append, writable_cons] at hw
        have hline (next : Option Token) (ts : List Token) (e : Expr) (hd : IsLine next ts e) (hlen : ts.length ≤ n)
            (hwd : Writable ts) : e.IsStatement := (ih next ts e hd hlen hwd).1
        exact ⟨.block (hs.all hline (by omega) hw.1.2), fun _ h => by cases h⟩
  exact bounded _ next ts e h (Nat.le_refl _) hw

theorem IsText.isStatement {ts : List Token} {lines : List Expr} (h : IsText ts lines) (hw : Writable ts) :
    ∀ e ∈ lines, e.IsStatement :=
  h.2.all (fun _ _ _ hd _ hwd => (hd.isStatement hwd).1) (Nat.le_refl _) hw

theorem IsName.nameable {ts : List Token} {x : String} (h : IsName ts x) (hw : Writable ts) : Nameable x := by
  cases h
  simpa using hw

theorem IsDefinition.wellFormed {ts : List Token} {d : Definition} (h : IsDefinition ts d) (hw : Writable ts) :
    d.WellFormed := by
  cases h with
  | global hv =>
    simp only [writable_append, writable_cons] at hw
    exact .global hw.1.2.1 (hv.isOperand hw.1.2.2.2)
  | @function f ts us params body hp hb =>
    obtain ⟨hs⟩ := hb
    simp only [writable_append, writable_cons] at hw
    have hparams := hp.all (fun _ _ hx _ hwx => hx.nameable hwx) (Nat.le_refl _) hw.1.2.2.2
    have hlines := hs.all (fun _ _ _ hd _ hwd => (hd.isStatement hwd).1) (Nat.le_refl _) hw.2.2.1.2
    exact .function hw.1.2.1 hparams hlines

theorem IsProgram.wellFormed {ts : List Token} {program : Program} (h : IsProgram ts program) (hw : Writable ts) :
    ∀ d ∈ program, d.WellFormed :=
  IsSequence.all (fun _ _ _ hd _ hwd => hd.wellFormed hwd) h (Nat.le_refl _) hw

end Grammar

end Scriptling
