/-
  Scriptling.Proofs.Eval.Rounds — evaluations with enough fuel, and the rounds of a loop.

  An expression `Evaluates` to a value if it does so with all fuel from some amount on. Fuel decides
  only whether an evaluation ends, so this is a function of the machine (`Evaluates.unique`), and
  one lemma for each kind of node says what it is.
  - `Rounds`: the machines on which a loop enters its body, one for each round.
  - `evaluates_whileDo_iff`: a loop evaluates exactly if it has rounds that come to an end, and then
    to `true`. The rounds are determined (`Rounds.unique`).
-/

import Scriptling.Proofs.Ideal.Complete

namespace Scriptling

open Run Scriptling.Ideal

/-! ## Enough fuel -/

/-- With enough fuel, evaluating `e` in `frame` gives the value `v` and leads from `m` to `m'`. -/
def Evaluates (functions : Functions) (frame : Nat) (e : Expr) (m : Machine) (v : Value) (m' : Machine) : Prop :=
  Settles (fun fuel => eval functions fuel frame e) m (.done v m')

variable {functions : Functions} {frame fuel : Nat} {e e' c b : Expr} {m m₁ m₂ m' m'' : Machine} {v v' w : Value}
  {x : String}

namespace Evaluates

theorem of_eval (h : eval functions fuel frame e m = .done v m') : Evaluates functions frame e m v m' := by
  refine ⟨fuel, fun n hn => ?_⟩
  have hmore := eval_extends functions hn frame e m (by rw [h]; simp)
  exact hmore.trans h

theorem unique (h : Evaluates functions frame e m v m') (h' : Evaluates functions frame e m v' m'') :
    v = v' ∧ m' = m'' := by
  obtain ⟨N, hN⟩ := h
  obtain ⟨N', hN'⟩ := h'
  have hsame := (hN (max N N') (Nat.le_max_left N N')).symm.trans (hN' (max N N') (Nat.le_max_right N N'))
  exact Outcome.done.inj hsame

/-- With less fuel the evaluation is given up, and does not end in another way. -/
theorem eval_cases (h : Evaluates functions frame e m v m') (fuel : Nat) :
    eval functions fuel frame e m = .unfinished ∨ eval functions fuel frame e m = .done v m' := by
  by_cases hends : eval functions fuel frame e m = .unfinished
  · exact .inl hends
  · right
    obtain ⟨N, hN⟩ := h
    have hdone : eval functions N frame e m = .done v m' := hN N (Nat.le_refl N)
    rw [← hdone]
    exact eval_eq_of_ends functions hends (by rw [hdone]; simp)

/-! ## Nodes -/

/-- A node evaluates to what it comes to with the evaluators for the nodes below it. -/
theorem of_node (h : Settles (node functions frame e) m (.done v m')) : Evaluates functions frame e m v m' :=
  h.of_extends (fun _ => Extends.refl _) (by simp)

theorem int (n : Int) : Evaluates functions frame (.int n) m (.int n) m :=
  of_node ⟨0, fun _ _ => rfl⟩

theorem var (h : m.frames.read? frame x = some v) : Evaluates functions frame (.var x) m v m := by
  refine of_node ⟨0, fun _ _ => ?_⟩
  show Eval.read frame x m = _
  rw [Eval.read, h]

theorem binary {op : Operator} {left right : Expr} (hleft : Evaluates functions frame left m v m₁)
    (hright : Evaluates functions frame right m₁ v' m₂) (happly : op.apply v v' = .ok w) :
    Evaluates functions frame (.binary op left right) m w m₂ := by
  refine of_node (hleft.bind (hright.bind ⟨0, fun _ _ => ?_⟩))
  rw [happly]
  rfl

theorem assign {frames' : Frames} (h : Evaluates functions frame e m v m₁)
    (hassign : m₁.frames.assign frame x v = .ok frames') :
    Evaluates functions frame (.assign x e) m v { m₁ with frames := frames' } := by
  refine of_node (h.bind ⟨0, fun _ _ => ?_⟩)
  show (Eval.assign frame x v >>= fun _ => pure v : Eval Value) m₁ = _
  rw [bind_apply, Eval.assign, Eval.changeFrames, hassign]
  rfl

/-- Two lines one after the other. -/
theorem block_pair (h : Evaluates functions frame e m v m₁) (h' : Evaluates functions frame e' m₁ v' m₂) :
    Evaluates functions frame (.block [e, e']) m v' m₂ :=
  of_node (h.bind (h'.bind ⟨0, fun _ _ => rfl⟩))

end Evaluates

/-! ## Loops -/

/-- The rounds of a loop from the machine `m` on: the condition holds and the body is entered on each
    machine of the list in turn, until the condition fails and the loop ends. -/
inductive Rounds (functions : Functions) (frame : Nat) (c b : Expr) : Machine → List Machine → Machine → Prop
  | stop {m m' : Machine} : Evaluates functions frame c m (.bool false) m' → Rounds functions frame c b m [] m'
  | round {m entered left m' : Machine} {v : Value} {visits : List Machine} :
      Evaluates functions frame c m (.bool true) entered → Evaluates functions frame b entered v left →
      Rounds functions frame c b left visits m' → Rounds functions frame c b m (entered :: visits) m'

namespace Rounds

variable {visits visits' : List Machine}

theorem evaluates (h : Rounds functions frame c b m visits m') :
    Evaluates functions frame (.whileDo c b) m (.bool true) m' := by
  have hloop {m m' : Machine} (h : Settles (unrolled functions frame c b) m (.done (.bool true) m')) :
      Evaluates functions frame (.whileDo c b) m (.bool true) m' :=
    h.of_extends (unrolled_extends functions frame c b) (by simp)
  have htest {m m' : Machine} {holds : Bool} (h : Evaluates functions frame c m (.bool holds) m') :
      Settles (fun n => evalTest (eval functions n frame) "while condition" c) m (.done holds m') :=
    h.bind ⟨0, fun _ _ => rfl⟩
  induction h with
  | stop hc => exact hloop ((htest hc).bind ⟨0, fun _ _ => rfl⟩)
  | round hc hb _ ih => exact hloop ((htest hc).bind (hb.bind ih))

theorem unique (h : Rounds functions frame c b m visits m') (h' : Rounds functions frame c b m visits' m'') :
    visits = visits' ∧ m' = m'' := by
  induction h generalizing visits' with
  | stop hc =>
    cases h' with
    | stop hc' => exact ⟨rfl, (hc.unique hc').2⟩
    | round hc' _ _ => cases (hc.unique hc').1
  | round hc hb _ ih =>
    cases h' with
    | stop hc' => cases (hc.unique hc').1
    | round hc' hb' hrest =>
      obtain ⟨-, rfl⟩ := hc.unique hc'
      obtain ⟨-, rfl⟩ := hb.unique hb'
      obtain ⟨rfl, rfl⟩ := ih hrest
      exact ⟨rfl, rfl⟩

end Rounds

theorem evalTest_eq_done {context : String} {holds : Bool}
    (h : evalTest (eval functions fuel frame) context c m = .done holds m') :
    eval functions fuel frame c m = .done (.bool holds) m' := by
  rw [evalTest, bind_apply] at h
  cases hc : eval functions fuel frame c m with
  | done v m₁ =>
    rw [hc] at h
    cases v with
    | bool b => cases h; rfl
    | int _ | array _ | dictionary _ | unit => cases h
  | fault _ _ | unfinished => rw [hc] at h; cases h

theorem exists_rounds {rounds : Nat} {u : Unit}
    (h : repeatWhile (evalTest (eval functions fuel frame) "while condition" c) (eval functions fuel frame b) rounds m =
      .done u m') : ∃ visits, Rounds functions frame c b m visits m' := by
  induction rounds generalizing m with
  | zero => cases h
  | succ rounds ih =>
    rw [repeatWhile, bind_apply] at h
    cases htest : evalTest (eval functions fuel frame) "while condition" c m with
    | fault _ _ | unfinished => rw [htest] at h; cases h
    | done holds entered =>
      rw [htest] at h
      have hc := Evaluates.of_eval (evalTest_eq_done htest)
      cases holds with
      | false =>
        cases h
        exact ⟨[], .stop hc⟩
      | true =>
        simp only [if_true, bind_apply] at h
        cases hb : eval functions fuel frame b entered with
        | fault _ _ | unfinished => rw [hb] at h; cases h
        | done v left =>
          rw [hb] at h
          obtain ⟨visits, hrest⟩ := ih h
          exact ⟨entered :: visits, .round hc (.of_eval hb) hrest⟩

/-- A loop evaluates exactly if its rounds come to an end. -/
theorem evaluates_whileDo_iff :
    Evaluates functions frame (.whileDo c b) m v m' ↔
      v = .bool true ∧ ∃ visits, Rounds functions frame c b m visits m' := by
  constructor
  · rintro ⟨N, hN⟩
    have hdone : eval functions (N + 1) frame (.whileDo c b) m = .done v m' := hN (N + 1) (Nat.le_succ N)
    rw [eval_succ, evalNode, bind_apply] at hdone
    cases hloop : repeatWhile (evalTest (eval functions N frame) "while condition" c) (eval functions N frame b) N m with
    | fault _ _ | unfinished => rw [hloop] at hdone; cases hdone
    | done u m₁ =>
      rw [hloop] at hdone
      cases hdone
      exact ⟨rfl, exists_rounds hloop⟩
  · rintro ⟨rfl, visits, h⟩
    exact h.evaluates

end Scriptling
