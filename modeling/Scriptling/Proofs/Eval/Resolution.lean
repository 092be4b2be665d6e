/-
  Scriptling.Proofs.Eval.Resolution — calls that fit the functions.

  A call is resolved against a table of functions if it names one of them and passes it as many
  arguments as it has parameters, or labels that are exactly its parameters. Where all calls in an
  expression and in the bodies of the functions are resolved, no call fails to find its function or to
  fit it, however deep the calls go (`eval_linked`).
  - `Run.Safe`: runs that keep a property of the state, and stop at no fault of a kind.
-/

import Scriptling.Proofs.Eval.Arrangement
import Scriptling.Proofs.Eval.Guarded
import Scriptling.Proofs.Eval.Invariant

namespace Scriptling

open Run

/-! ## Safe runs -/

section Safe

variable {σ α β : Type} {P : σ → Prop} {F : Fault → Prop}

def Outcome.Within (P : σ → Prop) (F : Fault → Prop) : Outcome σ α → Prop
  | .done _ s => P s
  | .fault e _ => ¬ F e
  | .unfinished => True

def Run.Safe (P : σ → Prop) (F : Fault → Prop) (run : Run σ α) : Prop := ∀ s, P s → (run s).Within P F

namespace Run

theorem Safe.bind {run : Run σ α} {f : α → Run σ β} (h : Safe P F run) (hf : ∀ a, Safe P F (f a)) :
    Safe P F (run >>= f) := by
  intro s hs
  have hrun := h s hs
  rw [bind_apply]
  cases hcase : run s with
  | done a mid =>
    rw [hcase] at hrun
    exact hf a mid hrun
  | fault e mid =>
    rw [hcase] at hrun
    exact hrun
  | unfinished => trivial

def Safe.congruence (P : σ → Prop) (F : Fault → Prop) : Congruence σ σ where
  Rel run _ := Safe P F run
  pure _ := fun _ hs => hs
  bind := Safe.bind

theorem safe_raise {e : Fault} (h : ¬ F e) : Safe P F (raise e : Run σ α) := fun _ _ => h

/-- A safe run that stops does so at another fault than one of `F`. -/
theorem Safe.not_fault {run : Run σ α} (h : Safe P F run) {s s' : σ} (hs : P s) {e : Fault}
    (hrun : run s = .fault e s') : ¬ F e := by
  have hwithin := h s hs
  rwa [hrun] at hwithin

end Run

end Safe

/-! ## Resolved expressions -/

namespace Expr

/-- If the root of the tree is a call, it names one of the functions and fits it. -/
def Resolves (functions : Functions) : Expr → Prop
  | .call name arguments => ∃ f ∈ functions.find? name, arguments.length = f.params.length
  | .labelledCall name arguments => ∃ f ∈ functions.find? name, f.TakesLabels (arguments.map Prod.fst)
  | _ => True

instance decidableResolves (functions : Functions) : DecidablePred (Resolves functions)
  | .call name arguments =>
    inferInstanceAs (Decidable (∃ f ∈ functions.find? name, arguments.length = f.params.length))
  | .labelledCall name arguments =>
    inferInstanceAs (Decidable (∃ f ∈ functions.find? name, f.TakesLabels (arguments.map Prod.fst)))
  | .int _ | .bool _ | .array _ | .var _ | .binary _ _ _ | .assign _ _ | .block _ | .ifThen _ _ | .ifElse _ _ _
  | .whileDo _ _ | .println _ => isTrue trivial

def Resolved (functions : Functions) (e : Expr) : Prop := ∀ node : Expr, node.OccursIn e → node.Resolves functions

instance decidableResolved (functions : Functions) (e : Expr) : Decidable (e.Resolved functions) :=
  inferInstanceAs (Decidable (∀ node : Expr, node.OccursIn e → node.Resolves functions))

theorem Resolved.child {functions : Functions} {e c : Expr} (h : e.Resolved functions) (hc : c ∈ e.children) :
    c.Resolved functions :=
  fun node hnode => h node (.child hc hnode)

end Expr

def Functions.Resolved (functions : Functions) : Prop :=
  ∀ name f, functions.find? name = some f → f.body.Resolved functions

/-! ## Evaluations -/

inductive Fault.OfLinking : Fault → Prop
  | undefinedFunction (name : String) : OfLinking (.undefinedFunction name)
  | arity (name : String) (expected found : Nat) : OfLinking (.arity name expected found)
  | labels (name : String) (fault : LabelFault) : OfLinking (.labels name fault)
  | missingMain : OfLinking .missingMain
  | duplicateFunction (name : String) : OfLinking (.duplicateFunction name)

/-- A resolved call finds its function and fits it. -/
theorem Expr.Raises.not_ofLinking {functions : Functions} {e : Expr} {fault : Fault} (h : e.Raises functions fault)
    (he : e.Resolves functions) : ¬ fault.OfLinking := by
  intro hlinking
  cases h with
  | operator op l r h => cases Operator.apply_ofValues h <;> cases hlinking
  | condition context v h => cases Value.toBool_ofValues h <;> cases hlinking
  -- The node is a call here, so that it resolves says which function there is and what it takes.
  | callee h =>
    obtain ⟨f, hf, -⟩ := he
    cases (Functions.eq_of_get_error h).1.symm.trans hf
  | arity hg h =>
    obtain ⟨f, hf, hlength⟩ := he
    obtain rfl : f = _ := Option.some.inj (hf.symm.trans (Functions.find?_of_get hg))
    exact (Function.eq_of_checkArity_error h).1 hlength
  | labelledCallee h =>
    obtain ⟨f, hf, -⟩ := he
    cases (Functions.eq_of_get_error h).1.symm.trans hf
  | labels hg h =>
    obtain ⟨f, hf, hlabels⟩ := he
    obtain rfl : f = _ := Option.some.inj (hf.symm.trans (Functions.find?_of_get hg))
    obtain ⟨e, herror, -⟩ := Function.eq_of_arrange_error h
    obtain ⟨arranged, hok⟩ := hlabels.arrange
    cases hok.symm.trans herror

abbrev Eval.Linked {α : Type} (run : Eval α) : Prop := Safe (fun _ => True) Fault.OfLinking run

theorem Eval.read_linked (frame : Nat) (x : String) : Linked (Eval.read frame x) := by
  intro m _
  unfold Eval.read
  cases m.frames.read? frame x with
  | some v => trivial
  | none =>
    intro h
    cases h

theorem Eval.changeFrames_linked (change : Frames → Except Misuse Frames) : Linked (Eval.changeFrames change) := by
  intro m _
  unfold Eval.changeFrames
  cases change m.frames with
  | ok frames => trivial
  | error e =>
    intro h
    cases h

theorem Eval.printLine_linked (text : String) : Linked (Eval.printLine text) := by
  intro m _
  unfold Eval.printLine
  dsimp only
  split
  · trivial
  · intro h
    cases h

theorem Outcome.Within.leave {x : Outcome Machine Value} (h : x.Within (fun _ => True) Fault.OfLinking) (frame : Nat) :
    (x.leave frame).Within (fun _ => True) Fault.OfLinking := by
  cases x with
  | done v m =>
    unfold Outcome.leave
    dsimp only
    split
    · trivial
    · intro h
      cases h
  | fault e m =>
    unfold Outcome.leave
    dsimp only
    split
    · exact h
    · intro h
      cases h
  | unfinished => trivial

/-- A call with as many values as parameters is linked if the body is. -/
theorem invoke_linked {evalBody : Nat → Expr → Eval Value} {f : Function} {values : List Value}
    (hlength : values.length = f.params.length) (hbody : ∀ frame, Eval.Linked (evalBody frame f.body))
    (caller : Nat) : Eval.Linked (invoke evalBody f values caller) := by
  intro m _
  rw [invoke_eq, if_pos hlength]
  split
  · intro h
    cases h
  · exact (hbody _ _ trivial).leave _

/-- Where all calls are resolved, none fails to find its function or to fit it. -/
theorem eval_linked {functions : Functions} (hfunctions : functions.Resolved) (fuel frame : Nat) {e : Expr}
    (he : e.Resolved functions) : Eval.Linked (eval functions fuel frame e) := by
  induction fuel generalizing frame e with
  | zero => exact fun _ _ => trivial
  | succ fuel ih =>
    rw [eval_succ, ← evalNodeBy_invoke]
    let K : Congruence Machine Machine := Safe.congruence (fun _ => True) Fault.OfLinking
    let call (f : Function) (values : List Value) : Eval Value := invoke (eval functions fuel) f values frame
    have hnode : K.Rel (evalNodeBy functions fuel (eval functions fuel frame) call frame e)
        (evalNodeBy functions fuel (eval functions fuel frame) call frame e) := by
      refine evalNodeOn_related (fun c hc => ih frame (he.child hc))
        (fun fault h => safe_raise (h.not_ofLinking (he e (.root e)))) (fun x _ => Eval.read_linked frame x)
        (fun x _ _ v => Eval.changeFrames_linked (·.assign frame x v)) (fun v => Eval.printLine_linked v.render)
        (fun _ _ _ _ hc hb => Congruence.repeatWhile (fun _ _ => trivial) hc hb fuel)
        (fun name f hf values hlength => ?_)
      -- The body is resolved, as all bodies are.
      have hbody := hfunctions name f (Functions.find?_of_get hf)
      exact invoke_linked hlength (fun frame => ih frame hbody) frame
    exact hnode

/-! ## Arguments -/

/-- Every value goes to a parameter, and every parameter gets one. -/
def Function.TakesAll (f : Function) (values : List Value) : Prop := (f.params.zip values).unzip = (f.params, values)

theorem Function.takesAll_iff {f : Function} {values : List Value} :
    f.TakesAll values ↔ values.length = f.params.length := by
  constructor
  · intro h
    have hparams := congrArg (fun pair => pair.1.length) h
    have hvalues := congrArg (fun pair => pair.2.length) h
    simp only [List.unzip_eq_map, List.length_map, List.length_zip] at hparams hvalues
    omega
  · intro h
    exact List.unzip_zip h.symm

instance Function.decidableTakesAll (f : Function) (values : List Value) : Decidable (f.TakesAll values) :=
  decidable_of_iff' _ takesAll_iff

end Scriptling
