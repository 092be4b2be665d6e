/-
  Scriptling.Proofs.Ideal.Complete — with enough fuel every ideal evaluation is met.

  Evaluators with more and more fuel `Settle` on an outcome if all of them from some point on come
  to it. They meet an observation of the ideal evaluation (`Meets`) if they settle on its value or
  its fault; or, if it exceeds a limit, on the fault for the first limit exceeded. `Runs.meets` is
  an induction on the rules, each of which is a few steps one after another (`Meets.bind`).
-/

import Scriptling.Eval.Fuel
import Scriptling.Proofs.Ideal.Sound

namespace Scriptling

open Run

namespace Ideal

variable {α β : Type} {k : Nat} {m : Machine} {t u : List Event} {w w₁ w₂ : World}

def Settles (run : Nat → Eval α) (m : Machine) (x : Outcome Machine α) : Prop := ∃ enough, ∀ n ≥ enough, run n m = x

namespace Settles

variable {run run' : Nat → Eval α} {f : Nat → α → Eval β}

theorem bind {a : α} {m₁ : Machine} {x : Outcome Machine β} (h : Settles run m (.done a m₁))
    (hf : Settles (fun n => f n a) m₁ x) : Settles (fun n => run n >>= f n) m x := by
  obtain ⟨N, hN⟩ := h
  obtain ⟨N', hN'⟩ := hf
  refine ⟨max N N', fun n hn => ?_⟩
  change (run n >>= f n : Eval β) m = x
  rw [bind_apply, hN n (by omega)]
  exact hN' n (by omega)

theorem leave {frame : Nat} {called body : Nat → Eval Value} {m₁ : Machine} {x : Outcome Machine Value}
    (hcalled : ∀ n, called n m = (body n m₁).leave frame) (h : Settles body m₁ x) :
    Settles called m (x.leave frame) := by
  obtain ⟨N, hN⟩ := h
  refine ⟨N, fun n hn => ?_⟩
  rw [hcalled n, hN n hn]

theorem bind_fault {e : Fault} {m₁ : Machine} (h : Settles run m (.fault e m₁)) :
    Settles (fun n => run n >>= f n) m (.fault e m₁) := by
  obtain ⟨N, hN⟩ := h
  refine ⟨N, fun n hn => ?_⟩
  change (run n >>= f n : Eval β) m = .fault e m₁
  rw [bind_apply, hN n hn]

theorem of_extends (hext : ∀ n, Extends (run n) (run' (n + 1))) {x : Outcome Machine α} (hx : x ≠ .unfinished)
    (h : Settles run m x) : Settles run' m x := by
  obtain ⟨N, hN⟩ := h
  refine ⟨N + 1, fun n hn => ?_⟩
  obtain ⟨n, rfl⟩ : ∃ n', n = n' + 1 := ⟨n - 1, by omega⟩
  have hn := hN n (by omega)
  rw [hext n m (by rw [hn]; exact hx), hn]

/-- A run that settles when something is made of its value settles itself. -/
theorem of_map {g : α → β} (hg : ∀ a b, g a = g b → a = b) {a : α} {m₁ : Machine}
    (h : Settles (fun n => run n >>= fun a => pure (g a)) m (.done (g a) m₁)) : Settles run m (.done a m₁) := by
  obtain ⟨N, hN⟩ := h
  refine ⟨N, fun n hn => ?_⟩
  have hn : (run n >>= fun a => pure (g a) : Eval β) m = .done (g a) m₁ := hN n hn
  rw [bind_apply] at hn
  cases hrun : run n m with
  | done b m₂ =>
    rw [hrun] at hn
    obtain ⟨hab, rfl⟩ := Outcome.done.inj hn
    rw [hg b a hab]
  | fault _ _ | unfinished => rw [hrun] at hn; cases hn

theorem of_map_fault {g : α → β} {e : Fault} {m₁ : Machine}
    (h : Settles (fun n => run n >>= fun a => pure (g a)) m (.fault e m₁)) : Settles run m (.fault e m₁) := by
  obtain ⟨N, hN⟩ := h
  refine ⟨N, fun n hn => ?_⟩
  have hn : (run n >>= fun a => pure (g a) : Eval β) m = .fault e m₁ := hN n hn
  rw [bind_apply] at hn
  cases hrun : run n m with
  | done _ _ | unfinished => rw [hrun] at hn; cases hn
  | fault e' m₂ =>
    rw [hrun] at hn
    obtain ⟨rfl, rfl⟩ := Outcome.fault.inj hn
    rfl

end Settles

/-- The runs, in frame `k`, settle on what is observed, up to the first limit that is exceeded. -/
inductive Meets (k : Nat) (run : Nat → Eval α) (m : Machine) (t : List Event) : Ending α → World → Prop
  | done {a : α} {m' : Machine} : firstExcess t = none → m'.Ready k → Settles run m (.done a m') →
      Meets k run m t (.value a) (m'.world k)
  | fault {e : Fault} {m' : Machine} : firstExcess t = none → m'.Ready k → Settles run m (.fault e m') →
      Meets k run m t (.stop (.fault e)) (m'.world k)
  | excess {event : Event} {m' : Machine} {r : Ending α} {w : World} : firstExcess t = some event → m'.Ready k →
      Settles run m (.fault event.fault m') → Meets k run m t r w
  | pending {w : World} : firstExcess t = none → Meets k run m t (.stop .pending) w

namespace Meets

variable {run run' : Nat → Eval α} {f : Nat → α → Eval β}

theorem of_extends (hext : ∀ n, Extends (run n) (run' (n + 1))) {r : Ending α} (h : Meets k run m t r w) :
    Meets k run' m t r w := by
  cases h with
  | done ht hm h => exact .done ht hm (h.of_extends hext (by simp))
  | fault ht hm h => exact .fault ht hm (h.of_extends hext (by simp))
  | excess ht hm h => exact .excess ht hm (h.of_extends hext (by simp))
  | pending ht => exact .pending ht

theorem bind {a : α} {r : Ending β} (h : Meets k run m t (.value a) w₁)
    (hf : ∀ m₁, m₁.Ready k → m₁.world k = w₁ → Meets k (fun n => f n a) m₁ u r w₂) :
    Meets k (fun n => run n >>= f n) m (t ++ u) r w₂ := by
  cases h with
  | done ht hm h =>
    have happ := firstExcess_append_of_none ht u
    cases hf _ hm rfl with
    | done hu hm' hnext => exact .done (happ.trans hu) hm' (h.bind hnext)
    | fault hu hm' hnext => exact .fault (happ.trans hu) hm' (h.bind hnext)
    | excess hu hm' hnext => exact .excess (happ.trans hu) hm' (h.bind hnext)
    | pending hu => exact .pending (happ.trans hu)
  | excess ht hm h => exact .excess (by rw [firstExcess_append, ht, Option.some_or]) hm h.bind_fault

/-- What stops the first run stops both. -/
theorem bind_stop {s : Stop} (h : Meets k run m t (.stop s) w) :
    Meets k (fun n => run n >>= f n) m t (.stop s) w := by
  cases h with
  | fault ht hm h => exact .fault ht hm h.bind_fault
  | excess ht hm h => exact .excess ht hm h.bind_fault
  | pending ht => exact .pending ht

/-- The first run followed by one that goes on without an event. -/
theorem bind_done {a : α} {r : Ending β} (h : Meets k run m t (.value a) w₁)
    (hf : ∀ m₁, m₁.Ready k → m₁.world k = w₁ → Meets k (fun n => f n a) m₁ [] r w₂) :
    Meets k (fun n => run n >>= f n) m t r w₂ := by
  have h' := h.bind hf
  rwa [List.append_nil] at h'

/-- A call meets what its body meets, without the innermost scope. -/
theorem leave {called body : Nat → Eval Value} {m₁ : Machine} {r : Ending Value}
    (hcalled : ∀ n, called n m = (body n m₁).leave (k + 1)) (ht : firstExcess t = firstExcess u)
    (h : Meets (k + 1) body m₁ u r w) : Meets k called m t r w.leave := by
  cases h with
  | @done a _ hu hm h =>
    obtain ⟨m', hdone, -, hm', hworld⟩ := hm.leave
    exact hworld ▸ .done (ht.trans hu) hm' (hdone a ▸ h.leave hcalled)
  | @fault e _ hu hm h =>
    obtain ⟨m', -, hfault, hm', hworld⟩ := hm.leave
    exact hworld ▸ .fault (ht.trans hu) hm' (hfault e ▸ h.leave hcalled)
  | @excess event _ _ _ hu hm h =>
    obtain ⟨m', -, hfault, hm', -⟩ := hm.leave
    exact .excess (ht.trans hu) hm' (hfault event.fault ▸ h.leave hcalled)
  | pending hu => exact .pending (ht.trans hu)

theorem pure {a : α} (hm : m.Ready k) : Meets k (fun _ => pure a) m [] (.value a) (m.world k) :=
  .done firstExcess_nil hm ⟨0, fun _ _ => rfl⟩

theorem raise {e : Fault} (hm : m.Ready k) :
    Meets k (fun _ => (Run.ofExcept (.error e) : Eval α)) m [] (.stop (.fault e)) (m.world k) :=
  .fault firstExcess_nil hm ⟨0, fun _ _ => rfl⟩

end Meets

/-! ## Nodes -/

variable {functions : Functions} {e : Expr}

def node (functions : Functions) (k : Nat) (e : Expr) (fuel : Nat) : Eval Value :=
  evalNode functions fuel (eval functions fuel k) (eval functions fuel) k e

theorem Meets.of_node {r : Ending Value} (h : Meets k (node functions k e) m t r w) :
    Meets k (fun n => eval functions n k e) m t r w :=
  h.of_extends fun _ => Extends.refl _

theorem Meets.node {r : Ending Value} (h : Meets k (fun n => eval functions n k e) m t r w) :
    Meets k (node functions k e) m t r w :=
  h.of_extends fun n => eval_extends functions (Nat.le_add_right n 2) k e

theorem node_block_cons (functions : Functions) (k : Nat) (e : Expr) (es : List Expr) :
    node functions k (.block (e :: es)) = fun n =>
      eval functions n k e >>= fun v => es.foldlM (fun _ line => eval functions n k line) v :=
  rfl

def items (functions : Functions) (k : Nat) (es : List Expr) (fuel : Nat) : Eval (List Value) :=
  es.mapM (eval functions fuel k)

theorem items_cons (functions : Functions) (k : Nat) (e : Expr) (es : List Expr) :
    items functions k (e :: es) = fun n =>
      eval functions n k e >>= fun v => items functions k es n >>= fun vs => pure (v :: vs) :=
  funext fun _ => List.mapM_cons ..

theorem Meets.array {es : List Expr} {r : Ending (List Value)} (h : Meets k (items functions k es) m t r w) :
    Meets k (fun n => eval functions n k (.array es)) m t (r.map .array) w := by
  cases r with
  | value vs => exact .of_node (h.bind_done fun m₁ hm hw => hw ▸ .pure hm)
  | stop s => exact .of_node h.bind_stop

/-- The items of an array meet what the array meets. -/
theorem Meets.items {es : List Expr} {r : Ending (List Value)}
    (h : Meets k (fun n => eval functions n k (.array es)) m t (r.map .array) w) :
    Meets k (items functions k es) m t r w := by
  have hnode := h.node
  generalize hr : r.map Value.array = r' at hnode
  cases hnode with
  | done ht hm hrun =>
    cases r <;> cases hr
    exact .done ht hm (hrun.of_map fun _ _ => Value.array.inj)
  | fault ht hm hrun =>
    cases r <;> cases hr
    exact .fault ht hm hrun.of_map_fault
  | excess ht hm hrun => exact .excess ht hm hrun.of_map_fault
  | pending ht =>
    cases r <;> cases hr
    exact .pending ht

def unrolled (functions : Functions) (k : Nat) (c b : Expr) (fuel : Nat) : Eval Value := do
  if ← evalTest (eval functions fuel k) "while condition" c then
    let _ ← eval functions fuel k b
    eval functions fuel k (.whileDo c b)
  else pure (.bool true)

theorem repeatWhile_succ_bind (test : Eval Bool) (body : Eval α) (rounds : Nat) (f : Unit → Eval β) :
    repeatWhile test body (rounds + 1) >>= f =
      test >>= fun holds => if holds then body >>= fun _ => repeatWhile test body rounds >>= f else f () := by
  rw [repeatWhile, bind_assoc]
  congr 1
  funext holds
  cases holds with
  | false => rfl
  | true => exact bind_assoc ..

theorem unrolled_extends (functions : Functions) (k : Nat) (c b : Expr) (fuel : Nat) :
    Extends (unrolled functions k c b fuel) (eval functions (fuel + 1) k (.whileDo c b)) := by
  cases fuel with
  | zero => exact extends_giveUp _
  | succ fuel =>
    rw [eval_succ, evalNode, repeatWhile_succ_bind]
    refine (Extends.refl _).bind fun holds => ?_
    cases holds with
    | false => exact Extends.refl _
    | true =>
      -- The rounds after the first one have less fuel on the left.
      refine (Extends.refl _).bind fun _ => ?_
      have hmore (e : Expr) := eval_extends functions (Nat.le_succ fuel) k e
      exact ((evalTest_extends hmore "while condition" c).repeatWhile (hmore b) (Nat.le_refl fuel)).bind
        fun _ => Extends.refl _

/-! ## Steps -/

theorem evalTest_meets {c : Expr} {context : String} {b : Bool}
    (h : Meets k (fun n => eval functions n k c) m t (.value (.bool b)) w) :
    Meets k (fun n => evalTest (eval functions n k) context c) m t (.value b) w :=
  h.bind_done fun _ hm hw => hw ▸ .pure hm

theorem evalTest_meets_notBool {c : Expr} {context : String} {v : Value}
    (h : Meets k (fun n => eval functions n k c) m t (.value v) w) (hv : v.kind ≠ .boolean) :
    Meets k (fun n => evalTest (eval functions n k) context c) m t
      (.stop (.fault (.kind .boolean v.kind context))) w := by
  refine h.bind_done fun m₁ hm hw => ?_
  subst hw
  cases v with
  | bool b => exact absurd rfl hv
  | int _ | array _ | dictionary _ | unit => exact .raise hm

theorem apply_meets (op : Operator) (a b : Value) (hm : m.Ready k) :
    Meets k (fun _ => Run.ofExcept (op.apply a b)) m (results op a b) (.ofExcept (op.ideal a b)) (m.world k) := by
  rcases apply_cases op a b with ⟨hwithin, happly⟩ | ⟨event, hexcess, happly⟩
  · rw [happly]
    cases op.ideal a b with
    | ok v => exact .done hwithin hm ⟨0, fun _ _ => rfl⟩
    | error e => exact .fault hwithin hm ⟨0, fun _ _ => rfl⟩
  · rw [happly]
    exact .excess hexcess hm ⟨0, fun _ _ => rfl⟩

/-- A call is met if its body is, in a scope of its own. -/
theorem invoke_meets {f : Function} {values : List Value} {r : Ending Value} (hm : m.Ready k)
    (hlength : values.length = f.params.length)
    (hbody : ∀ m₁, m₁.Ready (k + 1) → m₁.world (k + 1) = (m.world k).enter (f.params.zip values) →
      Meets (k + 1) (fun n => eval functions n (k + 1) f.body) m₁ u r w) :
    Meets k (fun n => invoke (eval functions n) f values k) m (.call (m.world k).active :: u) r w.leave := by
  by_cases hfull : maxCalls ≤ k
  · have hexcess : firstExcess (.call (m.world k).active :: u) = some (.call k) := by
      rw [m.active_world, firstExcess_call, if_pos hfull]
    refine .excess hexcess hm ⟨0, fun n _ => ?_⟩
    change invoke (eval functions n) f values k m = .fault .tooManyCalls m
    rw [hm.invoke_eq hlength, if_pos hfull]
  · have hwithin : firstExcess (.call (m.world k).active :: u) = firstExcess u := by
      rw [m.active_world, firstExcess_call, if_neg hfull]
    have hbody := hbody _ (hm.enter (f.params.zip values)) (hm.world_enter (f.params.zip values))
    refine hbody.leave (fun n => ?_) hwithin
    rw [hm.invoke_eq hlength, if_neg hfull]

theorem Calls.node_eq {f : Function} {es : List Expr} (h : Calls functions e f es) :
    node functions k e = fun n => items functions k es n >>= fun values => invoke (eval functions n) f values k :=
  funext fun n => h.evalNode_eq n k

/-- What stops the evaluation that an expression begins with stops the expression. -/
theorem Begins.meets {c : Expr} {s : Stop} (h : Begins functions e c)
    (hc : Meets k (fun n => eval functions n k c) m t (.stop s) w) :
    Meets k (fun n => eval functions n k e) m t (.stop s) w := by
  cases h with
  | array c es =>
    refine Meets.array (r := .stop s) ?_
    rw [items_cons]
    exact hc.bind_stop
  | binary _ _ _ | assign _ _ | println _ => exact .of_node hc.bind_stop
  | block c es =>
    refine .of_node ?_
    rw [node_block_cons]
    exact hc.bind_stop
  | test htests =>
    cases htests with
    | ifThen _ _ | ifElse _ _ _ => exact .of_node (.bind_stop hc.bind_stop)
    | whileDo c b => exact .of_extends (unrolled_extends functions k c b) (.bind_stop hc.bind_stop)
  | arguments hcalls =>
    refine .of_node ?_
    rw [hcalls.node_eq]
    exact .bind_stop (Meets.items hc)

/-- What is observed of the ideal evaluation is met with enough fuel. -/
theorem Runs.meets {r : Ending Value} (h : Runs functions w e t r w₁) (hm : m.Ready k) (hw : m.world k = w) :
    Meets k (fun n => eval functions n k e) m t r w₁ := by
  -- The rules lead from world to world, so the machine is any one that stands for the world.
  induction h generalizing k m with
  | int n => subst hw; exact .of_node (.pure hm)
  | bool b => subst hw; exact .of_node (.pure hm)
  | arrayNil => subst hw; exact .of_node (.pure hm)
  | arrayCons _ _ ih ihs =>
    refine Meets.array (r := .value _) ?_
    rw [items_cons]
    refine (ih hm hw).bind fun m₁ hm₁ hw₁ => ?_
    exact (Meets.items (r := .value _) (ihs hm₁ hw₁)).bind_done fun m₂ hm₂ hw₂ => hw₂ ▸ .pure hm₂
  | arrayStop _ _ ih ihs =>
    refine Meets.array (r := .stop _) ?_
    rw [items_cons]
    exact (ih hm hw).bind fun m₁ hm₁ hw₁ => .bind_stop (Meets.items (r := .stop _) (ihs hm₁ hw₁))
  | @var w x v hx =>
    subst hw
    refine .of_node (.done firstExcess_nil hm ⟨0, fun n _ => ?_⟩)
    simp only [node, evalNode, Eval.read, hm.read?_eq, hx]
  | @undefined w x hx =>
    subst hw
    refine .of_node (.fault firstExcess_nil hm ⟨0, fun n _ => ?_⟩)
    simp only [node, evalNode, Eval.read, hm.read?_eq, hx]
  | binary _ _ ihl ihr =>
    refine .of_node ((ihl hm hw).bind fun m₁ hm₁ hw₁ => (ihr hm₁ hw₁).bind fun m₂ hm₂ hw₂ => ?_)
    exact hw₂ ▸ apply_meets _ _ _ hm₂
  | binaryStop _ _ ihl ihr => exact .of_node ((ihl hm hw).bind fun m₁ hm₁ hw₁ => (ihr hm₁ hw₁).bind_stop)
  | @assign w w₁ x e t v _ ih =>
    refine .of_node ((ih hm hw).bind_done fun m₁ hm₁ hw₁ => ?_)
    obtain ⟨m₂, hassign, hm₂, hw₂⟩ := hm₁.assign x v
    rw [← hw₁, ← hw₂]
    exact .done firstExcess_nil hm₂ ⟨0, fun n _ => by simp only [bind_apply, hassign, pure_apply]⟩
  | blockNil => subst hw; exact .of_node (.pure hm)
  | blockLast _ ih =>
    refine .of_node ?_
    rw [node_block_cons]
    exact (ih hm hw).bind_done fun m₁ hm₁ hw₁ => hw₁ ▸ .pure hm₁
  | blockCons _ _ ih ihs =>
    refine .of_node ?_
    rw [node_block_cons]
    exact (ih hm hw).bind fun m₁ hm₁ hw₁ => (ihs hm₁ hw₁).node
  | thenTrue _ _ ihc ihb =>
    exact .of_node ((evalTest_meets (ihc hm hw)).bind fun m₁ hm₁ hw₁ => ihb hm₁ hw₁)
  | thenFalse _ ihc =>
    exact .of_node ((evalTest_meets (ihc hm hw)).bind_done fun m₁ hm₁ hw₁ => hw₁ ▸ .pure hm₁)
  | elseTrue _ _ ihc ihb =>
    exact .of_node ((evalTest_meets (ihc hm hw)).bind fun m₁ hm₁ hw₁ => ihb hm₁ hw₁)
  | elseFalse _ _ ihc iho =>
    exact .of_node ((evalTest_meets (ihc hm hw)).bind fun m₁ hm₁ hw₁ => iho hm₁ hw₁)
  | whileTrue _ _ _ ihc ihb ihw =>
    refine .of_extends (unrolled_extends functions k _ _) ?_
    exact (evalTest_meets (ihc hm hw)).bind fun m₁ hm₁ hw₁ => (ihb hm₁ hw₁).bind fun m₂ hm₂ hw₂ => ihw hm₂ hw₂
  | whileStop _ _ ihc ihb =>
    refine .of_extends (unrolled_extends functions k _ _) ?_
    exact (evalTest_meets (ihc hm hw)).bind fun m₁ hm₁ hw₁ => (ihb hm₁ hw₁).bind_stop
  | whileFalse _ ihc =>
    refine .of_extends (unrolled_extends functions k _ _) ?_
    exact (evalTest_meets (ihc hm hw)).bind_done fun m₁ hm₁ hw₁ => hw₁ ▸ .pure hm₁
  | notBool htests _ hv ih =>
    cases htests with
    | ifThen _ _ | ifElse _ _ _ => exact .of_node (.bind_stop (evalTest_meets_notBool (ih hm hw) hv))
    | whileDo =>
      exact .of_extends (unrolled_extends functions k _ _) (.bind_stop (evalTest_meets_notBool (ih hm hw) hv))
  | call hcalls hargs _ ihargs ihbody =>
    refine .of_node ?_
    rw [hcalls.node_eq]
    refine (Meets.items (r := .value _) (ihargs hm hw)).bind fun m₁ hm₁ hw₁ => ?_
    subst hw₁
    exact invoke_meets hm₁ (hargs.length_eq.trans hcalls.length_eq) fun m₂ hm₂ hw₂ => ihbody hm₂ hw₂
  | misses hmisses =>
    subst hw
    refine .of_node (.fault firstExcess_nil hm ⟨0, fun n _ => ?_⟩)
    simp only [node, hmisses.evalNode_eq, ofExcept_error]
  | @println w w₁ e t v _ ih =>
    refine .of_node ((ih hm hw).bind_done fun m₁ hm₁ hw₁ => ?_)
    obtain ⟨m₂, hprint, hm₂, hw₂⟩ := hm₁.printLine v.render
    rw [← hw₁, ← hw₂]
    exact .done firstExcess_nil hm₂ ⟨0, fun n _ => by simp only [bind_apply, hprint, pure_apply]⟩
  | first hbegins _ ih => exact hbegins.meets (ih hm hw)
  | begin => exact .pending firstExcess_nil
  | pause _ ih =>
    cases ih hm hw with
    | done ht _ _ | fault ht _ _ | pending ht => exact .pending ht
    | excess ht hm' h => exact .excess ht hm' h

end Ideal

end Scriptling
