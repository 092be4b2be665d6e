/-
  Scriptling.Proofs.Eval.Ordinary — evaluations deal in ordinary values only.

  Where the literals of an expression and of the functions fit into 64 bits and only ordinary values are
  bound, every value that comes up in an evaluation is ordinary: arithmetic stays within 64 bits, and
  there is no way to make a dictionary.
  - `Frames.Ordinary`: every value that is bound in a frame is ordinary.
  - `evalInspected` ends in an alarm as soon as an evaluation is entered on frames that are not
    ordinary, or ends with such frames or with a value that is not ordinary. `evalInspected_concur`:
    there is no alarm.
-/

import Scriptling.Proofs.Run.Concur
import Scriptling.Proofs.Value.Expression

namespace Scriptling

open Run

/-! ## Frames -/

namespace Frames

def Ordinary (frames : Frames) : Prop :=
  ∀ slot ∈ frames.slots.toList, ∀ v ∈ slot.bindings.entries.map Prod.snd, v.Ordinary

instance (frames : Frames) : Decidable frames.Ordinary :=
  inferInstanceAs (Decidable (∀ slot ∈ frames.slots.toList, ∀ v ∈ slot.bindings.entries.map Prod.snd, v.Ordinary))

variable {frames : Frames} (h : frames.Ordinary)
include h

theorem Ordinary.get? {frame : Nat} {x : String} {v : Value} (hget : frames.get? frame x = some v) : v.Ordinary := by
  obtain ⟨bindings, hbindings, hfind⟩ := Option.bind_eq_some_iff.mp hget
  obtain ⟨slot, hslot, rfl⟩ := Option.map_eq_some_iff.mp hbindings
  exact h slot (Array.mem_toList_iff.mpr (Array.mem_of_getElem? hslot)) v (Bindings.mem_of_find? hfind)

theorem Ordinary.bind {v : Value} (hv : v.Ordinary) (frame : Nat) (x : String) : (frames.bind frame x v).Ordinary := by
  intro slot hslot w hw
  obtain ⟨k, hk⟩ := Array.getElem?_of_mem (Array.mem_toList_iff.mp hslot)
  rw [Frames.bind, Array.getElem?_modify] at hk
  split at hk
  · obtain ⟨old, hold, rfl⟩ := Option.map_eq_some_iff.mp hk
    rcases Bindings.mem_of_mem_insert hw with rfl | hw
    · exact hv
    · exact h old (Array.mem_toList_iff.mpr (Array.mem_of_getElem? hold)) w hw
  · exact h slot (Array.mem_toList_iff.mpr (Array.mem_of_getElem? hk)) w hw

theorem Ordinary.push (parent : Nat) : (frames.push parent).Ordinary := by
  intro slot hslot v hv
  rw [Frames.push, Array.toList_push, List.mem_append, List.mem_singleton] at hslot
  rcases hslot with hslot | rfl
  · exact h slot hslot v hv
  · cases hv

theorem Ordinary.pop {frame : Nat} {frames' : Frames} (hpop : frames.pop frame = .ok frames') : frames'.Ordinary := by
  unfold Frames.pop at hpop
  split at hpop
  · split at hpop
    · cases hpop
      exact h
    · cases hpop
      intro slot hslot
      rw [Array.toList_pop] at hslot
      exact h slot ((List.dropLast_sublist _).subset hslot)
  · cases hpop

/-- A call with ordinary values is entered on ordinary frames. -/
theorem Ordinary.enter (caller : Nat) {entries : List (String × Value)}
    (hentries : ∀ entry ∈ entries, entry.2.Ordinary) : (frames.enter caller entries).Ordinary := by
  unfold Frames.enter
  have hpush := Ordinary.push h caller
  generalize frames.push caller = opened at hpush
  induction entries generalizing opened with
  | nil => exact hpush
  | cons entry entries ih =>
    have hbind := hpush.bind (hentries entry (List.mem_cons_self ..)) frames.nextId entry.1
    exact ih (fun e he => hentries e (List.mem_cons_of_mem _ he)) _ hbind

end Frames

def Machine.Ordinary (m : Machine) : Prop := m.frames.Ordinary

instance (m : Machine) : Decidable m.Ordinary := inferInstanceAs (Decidable m.frames.Ordinary)

/-- The evaluations are the same on machines that are ordinary, and lead to such machines and to ordinary
    values. -/
abbrev Eval.Concur : Eval Value → Eval Value → Prop := Run.Concur Machine.Ordinary Value.Ordinary

namespace Eval

theorem read_concur (frame : Nat) (x : String) : Eval.Concur (Eval.read frame x) (Eval.read frame x) := by
  intro m hm
  refine ⟨rfl, ?_⟩
  unfold Eval.read
  cases hread : m.frames.read? frame x with
  | none => exact hm
  | some v =>
    obtain ⟨owner, -, hget⟩ := Option.bind_eq_some_iff.mp hread
    exact ⟨hm.get? hget, hm⟩

theorem define_concur (frame : Nat) (x : String) {v : Value} (hv : v.Ordinary) :
    Run.Concur Machine.Ordinary (fun _ => True) (Eval.define frame x v) (Eval.define frame x v) := by
  intro m hm
  refine ⟨rfl, ?_⟩
  by_cases hlive : frame < m.frames.depth
  · simp only [Eval.define, Eval.changeFrames, Frames.define, hlive, if_true]
    exact ⟨trivial, hm.bind hv frame x⟩
  · simp only [Eval.define, Eval.changeFrames, Frames.define, hlive, if_false]
    exact hm

theorem assign_concur (frame : Nat) (x : String) {v : Value} (hv : v.Ordinary) :
    Run.Concur Machine.Ordinary (fun _ => True) (Eval.assign frame x v) (Eval.assign frame x v) := fun m =>
  define_concur ((m.frames.owner? frame x).getD frame) x hv m

theorem printLine_concur (text : String) :
    Run.Concur Machine.Ordinary (fun _ => True) (Eval.printLine text) (Eval.printLine text) := by
  intro m hm
  refine ⟨rfl, ?_⟩
  unfold Eval.printLine
  dsimp only
  split
  · exact ⟨trivial, hm⟩
  · exact hm

end Eval

/-! ## Expressions in range -/

namespace Expr

def fits : Expr → Bool
  | .int n => isWord n
  | _ => true

def InRange (e : Expr) : Prop := ∀ node : Expr, node.OccursIn e → node.fits = true

instance (e : Expr) : Decidable e.InRange :=
  inferInstanceAs (Decidable (∀ node : Expr, node.OccursIn e → node.fits = true))

theorem inRange_iff {e : Expr} : e.InRange ↔ e.fits = true ∧ ∀ c ∈ e.children, c.InRange := by
  constructor
  · intro h
    exact ⟨h e (.root e), fun c hc node hnode => h node (.child hc hnode)⟩
  · intro h node hnode
    cases hnode with
    | root => exact h.1
    | child hc hnode => exact h.2 _ hc node hnode

end Expr

def Functions.InRange (functions : Functions) : Prop :=
  ∀ name f, functions.find? name = some f → f.body.InRange

/-! ## Nodes -/

/-- Operators make integers of 64 bits and truth values. -/
theorem Operator.apply_ordinary {op : Operator} {l r v : Value} (h : op.apply l r = .ok v) : v.Ordinary := by
  have hchecked {n : Int} (h : op.checked n = .ok v) : v.Ordinary := by
    unfold Operator.checked at h
    split at h
    · rename_i hword
      cases h
      exact .int hword
    · cases h
  unfold Operator.apply at h
  split at h
  · unfold Operator.onInts at h
    cases op with
    | add | subtract | multiply => exact hchecked h
    | divide =>
      dsimp only at h
      split at h
      · cases h
      · exact hchecked h
    | less | lessOrEqual | greater | greaterOrEqual | equal | notEqual =>
      cases h
      exact .bool _
  · cases h
  · cases h

section Node

variable {functions : Functions} {rounds frame : Nat} {eval eval' : Expr → Eval Value}
  {evalBody evalBody' : Nat → Expr → Eval Value}

theorem evalTest_concur {c : Expr} (h : Eval.Concur (eval c) (eval' c)) (context : String) :
    Run.Concur Machine.Ordinary (fun _ => True) (evalTest eval context c) (evalTest eval' context c) :=
  Concur.bind h fun _ _ => Concur.ofExcept fun _ _ => trivial

theorem Outcome.Keeps.leave {x : Outcome Machine Value} (h : x.Keeps Machine.Ordinary Value.Ordinary) (frame : Nat) :
    (x.leave frame).Keeps Machine.Ordinary Value.Ordinary := by
  cases x with
  | done v m =>
    obtain ⟨hv, hm⟩ := h
    simp only [Outcome.leave]
    cases hpop : m.frames.pop frame with
    | ok frames => exact ⟨hv, hm.pop hpop⟩
    | error e => exact hm
  | fault e m =>
    simp only [Outcome.leave]
    cases hpop : m.frames.pop frame with
    | ok frames => exact Frames.Ordinary.pop h hpop
    | error e => exact h
  | unfinished => trivial

/-- A call with ordinary values concurs if the body does. -/
theorem invoke_concur {f : Function} {values : List Value} (hvalues : ∀ v ∈ values, v.Ordinary) (caller : Nat)
    (hbody : ∀ frame, Eval.Concur (evalBody frame f.body) (evalBody' frame f.body)) :
    Eval.Concur (invoke evalBody f values caller) (invoke evalBody' f values caller) := by
  intro m hm
  rw [invoke_eq, invoke_eq]
  split
  · split
    · exact ⟨rfl, hm⟩
    · have hentries : ∀ entry ∈ f.params.zip values, entry.2.Ordinary :=
        fun entry he => hvalues _ (List.of_mem_zip he).2
      have hentered : Machine.Ordinary { m with frames := m.frames.enter caller (f.params.zip values) } :=
        Frames.Ordinary.enter hm caller hentries
      obtain ⟨heq, hkeeps⟩ := hbody m.frames.nextId _ hentered
      exact ⟨congrArg _ heq, hkeeps.leave _⟩
  · exact ⟨rfl, hm⟩

/-- The evaluations of a node concur if those of the nodes below it do, and those of bodies. -/
theorem evalNode_concur {e : Expr} (hroot : e.fits = true)
    (hchild : ∀ c ∈ e.children, Eval.Concur (eval c) (eval' c))
    (hbody : ∀ name f, functions.find? name = some f → ∀ frame,
      Eval.Concur (evalBody frame f.body) (evalBody' frame f.body)) :
    Eval.Concur (evalNode functions rounds eval evalBody frame e)
      (evalNode functions rounds eval' evalBody' frame e) := by
  cases e with
  | int n => exact Concur.pure (.int hroot)
  | bool b => exact Concur.pure (.bool b)
  | array items => exact Concur.bind (Concur.mapM hchild) fun values hvalues => Concur.pure (.array hvalues)
  | var x => exact Eval.read_concur frame x
  | binary op l r =>
    refine Concur.bind (hchild l (by simp [Expr.children])) fun a _ => ?_
    refine Concur.bind (hchild r (by simp [Expr.children])) fun b _ => ?_
    exact Concur.ofExcept fun v hv => Operator.apply_ordinary hv
  | assign x c =>
    refine Concur.bind (hchild c (by simp [Expr.children])) fun v hv => ?_
    exact Concur.bind (Eval.assign_concur frame x hv) fun _ _ => Concur.pure hv
  | block lines => exact Concur.foldlM (fun line hline _ => hchild line hline) .unit
  | ifThen c b =>
    refine Concur.bind (evalTest_concur (hchild c (by simp [Expr.children])) _) fun holds _ => ?_
    cases holds with
    | false => exact Concur.pure .unit
    | true => exact hchild b (by simp [Expr.children])
  | ifElse c b o =>
    refine Concur.bind (evalTest_concur (hchild c (by simp [Expr.children])) _) fun holds _ => ?_
    cases holds with
    | false => exact hchild o (by simp [Expr.children])
    | true => exact hchild b (by simp [Expr.children])
  | whileDo c b =>
    have htest := evalTest_concur (hchild c (by simp [Expr.children])) "while condition"
    have hround := hchild b (by simp [Expr.children])
    exact Concur.bind (Concur.repeatWhile htest hround rounds) fun _ _ => Concur.pure (.bool true)
  | call name arguments =>
    refine Concur.ofExcept_bind fun f hf => Concur.ofExcept_bind fun _ _ => ?_
    refine Concur.bind (Concur.mapM hchild) fun values hvalues => ?_
    exact invoke_concur hvalues frame (hbody name f (Functions.find?_of_get hf))
  | labelledCall name arguments =>
    refine Concur.ofExcept_bind fun f hf => Concur.ofExcept_bind fun arranged harranged => ?_
    have hsub := Function.mem_of_arrange (eq_ok_of_mapError harranged)
    refine Concur.bind (Concur.mapM fun c hc => hchild c (hsub c hc)) fun values hvalues => ?_
    exact invoke_concur hvalues frame (hbody name f (Functions.find?_of_get hf))
  | println c =>
    refine Concur.bind (hchild c (by simp [Expr.children])) fun v hv => ?_
    exact Concur.bind (Eval.printLine_concur v.render) fun _ _ => Concur.pure hv

end Node

/-! ## Evaluations -/

/-- Evaluates an expression, and ends in `alarm` if an evaluation is entered while a value that is not
    ordinary is bound, or ends with such a value bound or with one for its value. -/
def evalInspected (alarm : Outcome Machine Value) (functions : Functions) : (fuel frame : Nat) → Expr → Eval Value
  | 0, _, _ => giveUp
  | fuel + 1, frame, e =>
    inspected Machine.Ordinary Value.Ordinary alarm
      (evalNode functions fuel (evalInspected alarm functions fuel frame) (evalInspected alarm functions fuel) frame e)

theorem evalInspected_succ (alarm : Outcome Machine Value) (functions : Functions) (fuel frame : Nat) (e : Expr) :
    evalInspected alarm functions (fuel + 1) frame e =
      inspected Machine.Ordinary Value.Ordinary alarm
        (evalNode functions fuel (evalInspected alarm functions fuel frame) (evalInspected alarm functions fuel)
          frame e) := rfl

/-- An evaluation in range raises no alarm, ends with ordinary frames, and has an ordinary value if it has
    one. -/
theorem evalInspected_concur (alarm : Outcome Machine Value) {functions : Functions} (hfunctions : functions.InRange)
    (fuel frame : Nat) {e : Expr} (he : e.InRange) :
    Eval.Concur (evalInspected alarm functions fuel frame e) (eval functions fuel frame e) := by
  induction fuel generalizing frame e with
  | zero => exact Concur.giveUp
  | succ fuel ih =>
    obtain ⟨hroot, hchildren⟩ := Expr.inRange_iff.mp he
    rw [evalInspected_succ, eval_succ]
    refine Concur.inspected (evalNode_concur hroot (fun c hc => ih frame (hchildren c hc)) ?_) alarm
    intro name f hf frame
    exact ih frame (hfunctions name f hf)

end Scriptling
