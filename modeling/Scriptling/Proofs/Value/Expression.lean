/-
  Scriptling.Proofs.Value.Expression — an expression for every value without dictionaries.

  A value is `Literal` if it is made of integers that can be written, truth values and arrays. It is
  `Ordinary` if it is made of any 64-bit integers, truth values, the unit value and arrays. There are
  no literals for negative integers and for the unit value, but there are other expressions:
  `0 - n - 1`, and a call of a function that does nothing.
  - `Value.expr`: the expression for a value.
  - `Value.Literal.eval_expr`: on any machine, the expression for a literal value has that value and
    changes nothing.
  - `Value.Ordinary.eval_expr`: so has that for an ordinary value, where there is such a function and
    one more call may be made.
-/

import Scriptling.Proofs.Eval.Invariant
import Scriptling.Proofs.Grammar.Shape

namespace Scriptling

open Run

def Function.nothing : Function := ⟨"nothing", [], .block []⟩

namespace Value

/-! ## Literal and ordinary values -/

inductive Literal : Value → Prop
  | int {n : Nat} : n ≤ maxInteger → Literal (.int n)
  | bool (b : Bool) : Literal (.bool b)
  | array {items : List Value} : (∀ v ∈ items, Literal v) → Literal (.array items)

/-- Made of 64-bit integers, truth values, the unit value and arrays: there is no dictionary in it. -/
inductive Ordinary : Value → Prop
  | int {n : Int} : isWord n = true → Ordinary (.int n)
  | bool (b : Bool) : Ordinary (.bool b)
  | unit : Ordinary .unit
  | array {items : List Value} : (∀ v ∈ items, Ordinary v) → Ordinary (.array items)

theorem isWord_natCast_iff {n : Nat} : isWord n = true ↔ n ≤ maxInteger := by
  simp only [isWord, maxInteger, Bool.and_eq_true, decide_eq_true_eq]
  omega

theorem isWord_negSucc_iff {n : Nat} : isWord (.negSucc n) = true ↔ n ≤ maxInteger := by
  simp only [isWord, maxInteger, Bool.and_eq_true, decide_eq_true_eq]
  omega

theorem Literal.ordinary {v : Value} (h : v.Literal) : v.Ordinary := by
  induction h with
  | int hn => exact .int (isWord_natCast_iff.mpr hn)
  | bool b => exact .bool b
  | array _ ih => exact .array ih

mutual

def isOrdinary : Value → Bool
  | .int n => isWord n
  | .bool _ | .unit => true
  | .array items => areOrdinary items
  | .dictionary _ => false

def areOrdinary : List Value → Bool
  | [] => true
  | v :: vs => v.isOrdinary && areOrdinary vs

end

theorem areOrdinary_eq_all (items : List Value) : areOrdinary items = items.all isOrdinary := by
  induction items with
  | nil => rfl
  | cons v vs ih => rw [areOrdinary, ih, List.all_cons]

mutual

theorem Ordinary.of_isOrdinary (v : Value) (h : v.isOrdinary = true) : v.Ordinary := by
  match v with
  | .int n => exact .int h
  | .bool b => exact .bool b
  | .unit => exact .unit
  | .array items => exact .array (Ordinary.of_areOrdinary items h)

theorem Ordinary.of_areOrdinary (items : List Value) (h : areOrdinary items = true) : ∀ v ∈ items, v.Ordinary := by
  match items with
  | [] => intro v hv; cases hv
  | w :: ws =>
    rw [areOrdinary, Bool.and_eq_true] at h
    intro v hv
    rcases List.mem_cons.mp hv with heq | hv
    · rw [heq]
      exact Ordinary.of_isOrdinary w h.1
    · exact Ordinary.of_areOrdinary ws h.2 v hv

end

theorem Ordinary.isOrdinary {v : Value} (h : v.Ordinary) : v.isOrdinary = true := by
  induction h with
  | int hn => exact hn
  | bool _ | unit => rfl
  | array _ ih =>
    rw [Value.isOrdinary, areOrdinary_eq_all]
    exact List.all_eq_true.mpr ih

instance (v : Value) : Decidable v.Ordinary :=
  decidable_of_iff (v.isOrdinary = true) ⟨Ordinary.of_isOrdinary v, Ordinary.isOrdinary⟩

/-! ## Expressions for values -/

mutual

/-- An expression for a value. None is for a dictionary; the one here is for an empty array. -/
def expr : Value → Expr
  | .int (.ofNat n) => .int n
  -- The least integer has no opposite, so it is reached in two steps.
  | .int (.negSucc n) => .binary .subtract (.binary .subtract (.int 0) (.int n)) (.int 1)
  | .bool b => .bool b
  | .array items => .array (exprs items)
  | .unit => .call "nothing" []
  | .dictionary _ => .array []

def exprs : List Value → List Expr
  | [] => []
  | v :: vs => v.expr :: exprs vs

end

theorem exprs_eq_map (items : List Value) : exprs items = items.map expr := by
  induction items with
  | nil => rfl
  | cons v vs ih => rw [exprs, ih, List.map_cons]

theorem nameable_nothing : Nameable "nothing" :=
  ⟨⟨'n', "othing".toList, rfl, by decide, List.all_eq_true.mp (by decide)⟩, fun k => by cases k <;> decide⟩

/-- The expression for an ordinary value can be written. -/
theorem Ordinary.isOperand {v : Value} (h : v.Ordinary) : v.expr.IsOperand := by
  induction h with
  | @int n hn =>
    cases n with
    | ofNat n => exact .int (isWord_natCast_iff.mp hn)
    | negSucc n =>
      have hn := isWord_negSucc_iff.mp hn
      exact .binary _ (.binary _ (.int (n := 0) (by decide)) (.int hn)) (.int (n := 1) (by decide))
  | bool b => exact .bool b
  | unit => exact .call nameable_nothing fun e he => by cases he
  | array _ ih =>
    rw [expr, exprs_eq_map]
    refine .array fun e he => ?_
    obtain ⟨v, hv, rfl⟩ := List.mem_map.mp he
    exact ih v hv

/-! ## Their values -/

variable {functions : Functions} {fuel frame : Nat} {m : Machine}

/-- If the expression for each item has the item for its value and changes nothing, then so it is with
    the expression for the array. -/
theorem eval_expr_array {items : List Value}
    (h : ∀ v ∈ items, eval functions fuel frame v.expr m = .done v m) :
    eval functions (fuel + 1) frame (Value.array items).expr m = .done (.array items) m := by
  have hitems : (items.map expr).mapM (eval functions fuel frame) m = .done items m := by
    induction items with
    | nil => rfl
    | cons v vs ih =>
      have hv := h v (List.mem_cons_self ..)
      have hvs := ih fun w hw => h w (List.mem_cons_of_mem _ hw)
      rw [List.map_cons, List.mapM_cons, bind_apply, hv]
      dsimp only
      rw [bind_apply, hvs]
      rfl
  rw [expr, exprs_eq_map, eval_succ, evalNode, bind_apply, hitems]
  rfl

theorem height_expr_lt {items : List Value} {v : Value} (h : v ∈ items) :
    v.expr.height < (Value.array items).expr.height := by
  rw [expr, exprs_eq_map]
  exact Expr.height_lt_of_mem_children (List.mem_map_of_mem h)

theorem eval_expr_natural {n : Nat} (hfuel : 1 ≤ fuel) :
    eval functions fuel frame (Value.int n).expr m = .done (.int n) m := by
  obtain ⟨fuel, rfl⟩ := Nat.exists_eq_add_of_le' hfuel
  rfl

/-- The expression for a literal value has this value and changes nothing, whatever the functions, the
    frames and the sink are. -/
theorem Literal.eval_expr {v : Value} (h : v.Literal) (hfuel : v.expr.height ≤ fuel) :
    eval functions fuel frame v.expr m = .done v m := by
  induction h generalizing fuel with
  | int _ => exact eval_expr_natural hfuel
  | bool b =>
    obtain ⟨fuel, rfl⟩ := Nat.exists_eq_add_of_le' (show 1 ≤ fuel from hfuel)
    rfl
  | array _ ih =>
    cases fuel with
    | zero => cases hfuel
    | succ fuel =>
      refine eval_expr_array fun v hv => ih v hv ?_
      have hlt := height_expr_lt hv
      omega

/-- A call without arguments changes nothing if the body changes nothing in its frame. -/
theorem invoke_unchanged {evalBody : Nat → Expr → Eval Value} {f : Function} {v : Value} (hparams : f.params = [])
    (hlive : 0 < m.frames.depth) (hdepth : m.frames.depth ≤ maxCalls)
    (hbody : evalBody m.frames.nextId f.body { m with frames := m.frames.push frame } =
      .done v { m with frames := m.frames.push frame }) : invoke evalBody f [] frame m = .done v m := by
  have hpop := m.frames.pop_push frame hlive
  have henter : m.frames.enter frame [] = m.frames.push frame := rfl
  rw [invoke_eq, hparams, if_pos (by rfl), if_neg (by omega), List.zip_nil_left, henter, hbody]
  simp only [Outcome.leave, hpop]

/-- A call of the function that does nothing has the unit value and changes nothing. -/
theorem eval_call_nothing (hfind : functions.find? "nothing" = some .nothing) (hlive : 0 < m.frames.depth)
    (hdepth : m.frames.depth ≤ maxCalls) : eval functions (fuel + 2) frame Value.unit.expr m = .done .unit m := by
  have hget : functions.get "nothing" = .ok .nothing := by rw [Functions.get, hfind]
  rw [expr, eval_succ, evalNode, hget, ofExcept_ok_bind]
  show invoke (eval functions (fuel + 1)) .nothing [] frame m = _
  exact invoke_unchanged rfl hlive hdepth rfl

/-- A negative integer is the value of `0 - n - 1`, and neither step leaves the 64 bits. -/
theorem eval_expr_negative {n : Nat} (hn : n ≤ maxInteger) (hfuel : 3 ≤ fuel) :
    eval functions fuel frame (Value.int (.negSucc n)).expr m = .done (.int (.negSucc n)) m := by
  obtain ⟨fuel, rfl⟩ := Nat.exists_eq_add_of_le' hfuel
  have hopposite : Operator.apply .subtract (.int 0) (.int n) = .ok (.int (-n)) := by
    have hword : isWord (-n) = true := by
      simp only [isWord, maxInteger, Bool.and_eq_true, decide_eq_true_eq] at *
      omega
    simp only [Operator.apply, Operator.onInts, Operator.checked, hword, if_true, Int.zero_sub]
  have hpredecessor : Operator.apply .subtract (.int (-n)) (.int 1) = .ok (.int (.negSucc n)) := by
    have heq : -(n : Int) - 1 = .negSucc n := by omega
    simp only [Operator.apply, Operator.onInts, Operator.checked, heq, isWord_negSucc_iff.mpr hn, if_true]
  have hinner : eval functions (fuel + 2) frame (.binary .subtract (.int 0) (.int n)) m = .done (.int (-n)) m := by
    show Run.ofExcept (Operator.apply .subtract (.int 0) (.int n)) m = _
    rw [hopposite]
    rfl
  rw [expr, eval_succ, evalNode, bind_apply, hinner]
  show Run.ofExcept (Operator.apply .subtract (.int (-n)) (.int 1)) m = _
  rw [hpredecessor]
  rfl

/-- The expression for an ordinary value has this value and changes nothing, if there is a function that
    does nothing and it may be called. -/
theorem Ordinary.eval_expr {v : Value} (h : v.Ordinary) (hfind : functions.find? "nothing" = some .nothing)
    (hlive : 0 < m.frames.depth) (hdepth : m.frames.depth ≤ maxCalls) (hfuel : v.expr.height + 1 ≤ fuel) :
    eval functions fuel frame v.expr m = .done v m := by
  induction h generalizing fuel with
  | @int n hn =>
    cases n with
    | ofNat n => exact eval_expr_natural (Nat.le_of_succ_le hfuel)
    | negSucc n => exact eval_expr_negative (isWord_negSucc_iff.mp hn) (Nat.le_of_succ_le hfuel)
  | bool b =>
    obtain ⟨fuel, rfl⟩ := Nat.exists_eq_add_of_le' (show 2 ≤ fuel from hfuel)
    rfl
  | unit =>
    obtain ⟨fuel, rfl⟩ := Nat.exists_eq_add_of_le' (show 2 ≤ fuel from hfuel)
    exact eval_call_nothing hfind hlive hdepth
  | array _ ih =>
    cases fuel with
    | zero => cases hfuel
    | succ fuel =>
      refine eval_expr_array fun v hv => ih v hv ?_
      have hlt := height_expr_lt hv
      omega

end Value

end Scriptling
