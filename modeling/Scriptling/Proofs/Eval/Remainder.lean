/-
  Scriptling.Proofs.Eval.Remainder — the remainder of a division, written with the operators there are.

  Division goes toward zero and there is no operator for what it leaves, so `x - x / y * y` is written
  for it. The product is grouped before the difference.
  - `isWord_tdiv_iff`: of the quotients of 64-bit integers only one needs more than 64 bits.
  - `tmod_bounds`: the product and the difference are between zero and the dividend, so they need no
    more bits than it.
  - `remainder_exact`: what the text is parsed as, and what that evaluates to.
-/

import Scriptling.Proofs.Expr.Nodes
import Scriptling.Proofs.Grammar.WrittenOut

namespace Scriptling

/-! ## Quotients and remainders of 64-bit integers -/

section Words

variable {a b : Int}

theorem isWord_iff {n : Int} : isWord n = true ↔ -9223372036854775808 ≤ n ∧ n ≤ 9223372036854775807 := by
  simp only [isWord, Bool.and_eq_true, decide_eq_true_eq]

theorem isWord_tdiv_iff (ha : isWord a = true) (hb : b ≠ 0) :
    isWord (a.tdiv b) = true ↔ ¬ (a = -9223372036854775808 ∧ b = -1) := by
  rw [isWord_iff] at *
  by_cases hunit : b.natAbs = 1
  · rcases (by omega : b = 1 ∨ b = -1) with rfl | rfl
    · rw [Int.tdiv_one]
      omega
    · rw [Int.tdiv_neg, Int.tdiv_one]
      omega
  · -- A divisor of at least two halves the dividend, whatever the signs.
    have hhalf : (a.tdiv b).natAbs ≤ a.natAbs / 2 := by
      rw [Int.natAbs_tdiv]
      exact Nat.div_le_div_left (by omega) (by decide)
    omega

theorem tdiv_mul_eq (a b : Int) : a.tdiv b * b = a - a.tmod b := by
  have hsum := Int.tdiv_mul_add_tmod a b
  omega

/-- The remainder is between zero and the dividend. -/
theorem tmod_bounds (a b : Int) :
    (0 ≤ a.tmod b ∧ a.tmod b ≤ a) ∨ (a ≤ a.tmod b ∧ a.tmod b ≤ 0) := by
  have hle : (a.tmod b).natAbs ≤ a.natAbs := by
    rw [Int.natAbs_tmod]
    exact Nat.mod_le _ _
  rcases Int.le_total 0 a with ha | ha
  · have hsign := Int.tmod_nonneg b ha
    omega
  · have hsign := Int.tmod_nonneg b (Int.neg_nonneg_of_nonpos ha)
    rw [Int.neg_tmod] at hsign
    omega

theorem isWord_tdiv_mul (b : Int) (ha : isWord a = true) : isWord (a.tdiv b * b) = true := by
  have hbounds := tmod_bounds a b
  rw [tdiv_mul_eq, isWord_iff] at *
  omega

theorem isWord_remainder (b : Int) (ha : isWord a = true) : isWord (a - a.tdiv b * b) = true := by
  have hbounds := tmod_bounds a b
  rw [tdiv_mul_eq, isWord_iff] at *
  omega

theorem natAbs_remainder_lt (a : Int) (hb : b ≠ 0) : (a - a.tdiv b * b).natAbs < b.natAbs := by
  rw [tdiv_mul_eq, Int.sub_sub_self, Int.natAbs_tmod]
  exact Nat.mod_lt _ (Int.natAbs_pos.mpr hb)

theorem sign_remainder (a b : Int) : a - a.tdiv b * b = 0 ∨ (a - a.tdiv b * b).sign = a.sign := by
  rw [tdiv_mul_eq, Int.sub_sub_self]
  have hsign := Int.sign_tmod a b
  split at hsign
  · exact .inl (Int.sign_eq_zero_iff_zero.mp hsign)
  · exact .inr hsign

end Words

/-! ## The text -/

/-- `x - x / y * y` -/
def remainderText (x y : String) : String := String.join [x, " - ", x, " / ", y, " * ", y]

namespace Expr

def quotient (x y : String) : Expr := .binary .divide (.var x) (.var y)

def wholePart (x y : String) : Expr := .binary .multiply (quotient x y) (.var y)

def remainder (x y : String) : Expr := .binary .subtract (.var x) (wholePart x y)

end Expr

namespace Grammar

def remainderTokens (x y : String) : List Token :=
  [.identifier x, .operator .subtract, .identifier x, .operator .divide, .identifier y, .operator .multiply,
    .identifier y]

theorem isExpr_remainder (x y : String) : IsExpr (remainderTokens x y) (.remainder x y) := by
  have hfirst : IsProduct [.identifier x] (.var x) := .chain (.single (.var x))
  have hwhole : IsProduct [.identifier x, .operator .divide, .identifier y, .operator .multiply, .identifier y]
      (.wholePart x y) :=
    .chain (.more (.more (.single (IsPrimary.var x)) (by decide) (IsPrimary.var y)) (by decide) (IsPrimary.var y))
  exact .chain (.single (.chain (.more (.single hfirst) (by decide) hwhole)))

end Grammar

theorem parse_remainderText {x y : String} (hx : Nameable x) (hy : Nameable y) :
    Expr.parse (remainderText x y) = .ok (.remainder x y) := by
  have hlast : ScansAs [] y.toList [.identifier y] :=
    scansAs_word (t := .identifier y) (fun _ h => by cases h) hy hy.1
  have hproduct := (hlast.spaced (.operator .multiply) trivial ' ' rfl).spaced (.identifier y) hy ' ' rfl
  have hquotient := (hproduct.spaced (.operator .divide) trivial ' ' rfl).spaced (.identifier x) hx ' ' rfl
  have hall := (hquotient.spaced (.operator .subtract) trivial ' ' rfl).spaced (.identifier x) hx ' ' rfl
  have hscans : ScansAs [] (remainderText x y).toList (Grammar.remainderTokens x y) := by
    simpa [remainderText, Grammar.remainderTokens, Token.spelling, Operator.symbol] using hall
  obtain ⟨lexemes, hscan, htokens⟩ := hscans.scan
  refine (Rule.read_eq_ok_iff hscan).mpr (Grammar.wholeExpr_ok_iff.mpr ?_)
  rw [htokens]
  exact Grammar.isExpr_remainder x y

/-! ## The evaluation -/

theorem onInts_divide {a b : Int} (ha : isWord a = true) :
    Operator.onInts .divide a b =
      if b = 0 then .error .divisionByZero
      else if a = -9223372036854775808 ∧ b = -1 then .error (.overflow .divide)
      else .ok (.int (a.tdiv b)) := by
  rw [Operator.onInts]
  split
  · rfl
  · rename_i hb
    simp only [Operator.checked, isWord_tdiv_iff ha hb, ite_not]

section Evaluation

variable {functions : Functions} {fuel frame : Nat} {m : Machine}

/-- An operator between operands that change nothing. -/
theorem eval_binary {op : Operator} {left right : Expr} {v w : Except Fault Value}
    (hleft : eval functions fuel frame left m = Run.ofExcept v m)
    (hright : eval functions fuel frame right m = Run.ofExcept w m) :
    eval functions (fuel + 1) frame (.binary op left right) m =
      Run.ofExcept (do let l ← v; let r ← w; op.apply l r) m := by
  rw [eval_succ, evalNode, Run.bind_apply, hleft]
  cases v with
  | error _ => rfl
  | ok l =>
    simp only [Run.ofExcept_ok, Run.bind_apply, hright]
    cases w <;> rfl

/-- An arithmetic operator between integers whose result is in range. -/
theorem eval_checked {op : Operator} {left right : Expr} {k l n : Int}
    (hleft : eval functions fuel frame left m = .done (.int k) m)
    (hright : eval functions fuel frame right m = .done (.int l) m)
    (hop : op.onInts k l = op.checked n) (hn : isWord n = true) :
    eval functions (fuel + 1) frame (.binary op left right) m = .done (.int n) m := by
  have happly : op.apply (.int k) (.int l) = .ok (.int n) := by
    rw [Operator.apply, hop, Operator.checked, if_pos hn]
  refine (eval_binary (v := .ok (.int k)) (w := .ok (.int l)) hleft hright).trans ?_
  show Run.ofExcept (op.apply (.int k) (.int l)) m = _
  rw [happly]
  rfl

variable {x y : String} {a b : Int} (hx : m.frames.read? frame x = some (.int a))
  (hy : m.frames.read? frame y = some (.int b))

include hx in
theorem eval_var (fuel : Nat) : eval functions (fuel + 1) frame (.var x) m = .done (.int a) m := by
  rw [eval_succ, evalNode, Eval.read, hx]

include hx hy

/-- The fault of the division is that of the whole. -/
theorem eval_remainder_fault {e : Fault} (h : Operator.onInts .divide a b = .error e) (fuel : Nat) :
    eval functions (fuel + 4) frame (.remainder x y) m = .fault e m := by
  have hvar {z : String} {n : Int} (hz : m.frames.read? frame z = some (.int n)) (fuel : Nat) :
      eval functions (fuel + 1) frame (.var z) m = Run.ofExcept (.ok (.int n)) m := eval_var hz fuel
  have hquotient : eval functions (fuel + 2) frame (.quotient x y) m = Run.ofExcept (.error e) m := by
    rw [← h]
    exact eval_binary (hvar hx fuel) (hvar hy fuel)
  have hwhole : eval functions (fuel + 3) frame (.wholePart x y) m = Run.ofExcept (.error e) m :=
    eval_binary hquotient (hvar hy (fuel + 1))
  exact eval_binary (hvar hx (fuel + 2)) hwhole

variable (ha : isWord a = true) (hb : b ≠ 0) (hquotient : isWord (a.tdiv b) = true)
include hb hquotient

theorem eval_quotient (fuel : Nat) :
    eval functions (fuel + 2) frame (.quotient x y) m = .done (.int (a.tdiv b)) m :=
  eval_checked (eval_var hx fuel) (eval_var hy fuel) (if_neg hb) hquotient

include ha

theorem eval_wholePart (fuel : Nat) :
    eval functions (fuel + 3) frame (.wholePart x y) m = .done (.int (a.tdiv b * b)) m :=
  eval_checked (eval_quotient hx hy hb hquotient fuel) (eval_var hy (fuel + 1)) rfl (isWord_tdiv_mul b ha)

theorem eval_remainder (fuel : Nat) :
    eval functions (fuel + 4) frame (.remainder x y) m = .done (.int (a - a.tdiv b * b)) m :=
  eval_checked (eval_var hx (fuel + 2)) (eval_wholePart hx hy ha hb hquotient fuel) rfl (isWord_remainder b ha)

/-- No node on the way leaves the 64 bits. -/
theorem eval_remainder_nodes (hword : isWord b = true) (fuel : Nat) {node : Expr}
    (hnode : node.OccursIn (.remainder x y)) :
    ∃ n, isWord n = true ∧ eval functions (fuel + 4) frame node m = .done (.int n) m := by
  have hlist := Expr.mem_nodes_iff.mpr hnode
  simp only [Expr.remainder, Expr.wholePart, Expr.quotient, Expr.nodes, List.cons_append, List.nil_append,
    List.mem_cons, List.not_mem_nil, or_false] at hlist
  rcases hlist with rfl | rfl | rfl | rfl | rfl | rfl | rfl
  · exact ⟨_, isWord_remainder b ha, eval_remainder hx hy ha hb hquotient fuel⟩
  · exact ⟨a, ha, eval_var hx _⟩
  · exact ⟨_, isWord_tdiv_mul b ha, eval_wholePart hx hy ha hb hquotient (fuel + 1)⟩
  · exact ⟨_, hquotient, eval_quotient hx hy hb hquotient (fuel + 2)⟩
  · exact ⟨a, ha, eval_var hx _⟩
  · exact ⟨b, hword, eval_var hy _⟩
  · exact ⟨b, hword, eval_var hy _⟩

end Evaluation

/-- Whatever 64-bit integers `a` and `b` the names `x` and `y` have, in any frame of any machine, what
    `x - x / y * y` is parsed as comes to the remainder of the division toward zero and changes nothing.
    It fails if there is nothing to divide by, and for the one quotient out of range. Otherwise all its
    nodes come to 64-bit integers, and the remainder is less than `b`, and zero or of the sign of `a`. -/
theorem remainder_exact {x y : String} (hx : Nameable x) (hy : Nameable y) :
    ∃ e, Expr.parse (remainderText x y) = .ok e ∧
      ∀ functions fuel frame m a b, e.height ≤ fuel → isWord a = true → isWord b = true →
        m.frames.read? frame x = some (.int a) → m.frames.read? frame y = some (.int b) →
        (b = 0 → eval functions fuel frame e m = .fault .divisionByZero m) ∧
        (a = -9223372036854775808 → b = -1 → eval functions fuel frame e m = .fault (.overflow .divide) m) ∧
        (b ≠ 0 → ¬ (a = -9223372036854775808 ∧ b = -1) →
          (∀ node, node.OccursIn e →
            ∃ n, isWord n = true ∧ eval functions fuel frame node m = .done (.int n) m) ∧
          ∃ r, eval functions fuel frame e m = .done (.int r) m ∧ r = a - a.tdiv b * b ∧ r.natAbs < b.natAbs ∧
            (r = 0 ∨ r.sign = a.sign)) := by
  refine ⟨.remainder x y, parse_remainderText hx hy, fun functions fuel frame m a b hfuel ha hb hreadx hready => ?_⟩
  obtain ⟨fuel, rfl⟩ := Nat.exists_eq_add_of_le' (show 4 ≤ fuel from hfuel)
  have hdivide := onInts_divide (b := b) ha
  refine ⟨fun hzero => ?_, fun hmin hminus => ?_, fun hne hfits => ?_⟩
  · rw [if_pos hzero] at hdivide
    exact eval_remainder_fault hreadx hready hdivide fuel
  · rw [if_neg (by omega), if_pos ⟨hmin, hminus⟩] at hdivide
    exact eval_remainder_fault hreadx hready hdivide fuel
  · have hquotient := (isWord_tdiv_iff ha hne).mpr hfits
    refine ⟨fun node => eval_remainder_nodes hreadx hready ha hne hquotient hb fuel, _,
      eval_remainder hreadx hready ha hne hquotient fuel, rfl, natAbs_remainder_lt a hne, sign_remainder a b⟩

def Machine.dividing (a b : Int) : Machine :=
  { frames := ((Frames.initial.bind 0 "a" (.int a)).push 0).bind 1 "b" (.int b) }

theorem remainder_exact_lowest :
    ∃ e, Expr.parse "a - a / b * b" = .ok e ∧
      eval {} e.height 1 e (.dividing (-9223372036854775808) 3) =
        .done (.int (-2)) (.dividing (-9223372036854775808) 3) ∧
      eval {} e.height 1 e (.dividing (-9223372036854775808) (-1)) =
        .fault (.overflow .divide) (.dividing (-9223372036854775808) (-1)) ∧
      eval {} e.height 1 e (.dividing (-9223372036854775808) 0) =
        .fault .divisionByZero (.dividing (-9223372036854775808) 0) := by
  have ha : Nameable "a" := ⟨⟨_, _, rfl, rfl, by simp⟩, fun k => by cases k <;> decide⟩
  have hb : Nameable "b" := ⟨⟨_, _, rfl, rfl, by simp⟩, fun k => by cases k <;> decide⟩
  obtain ⟨e, hparse, heval⟩ := remainder_exact ha hb
  have hat (b : Int) (hb : isWord b = true) :=
    heval {} e.height 1 (.dividing (-9223372036854775808) b) (-9223372036854775808) b (Nat.le_refl _) rfl hb rfl rfl
  obtain ⟨-, r, hdone, hr, -⟩ := (hat 3 rfl).2.2 (by decide) (by decide)
  subst hr
  exact ⟨e, hparse, hdone, (hat (-1) rfl).2.1 rfl rfl, (hat 0 rfl).1 rfl⟩

end Scriptling
