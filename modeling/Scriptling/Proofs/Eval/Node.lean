/-
  Scriptling.Proofs.Eval.Node — what carries over from the nodes below to a node.

  A congruence of runs relates the evaluations of a node by two evaluators if it relates those of
  the nodes below it, of the calls it makes, and of the few things that a node does itself:
  reading, assigning, printing, looping, and raising a fault (`evalNodeOn_related`).
  - `Expr.Raises`: the faults that a node raises itself.
  - `evalNodeOn`: a node evaluated on another state than a machine.
  - `evalNodeBy`: a node that makes its calls in another way than by `invoke`.
-/

import Scriptling.Eval
import Scriptling.Proofs.Expr.Nodes
import Scriptling.Proofs.Run.Congruence

namespace Scriptling

open Run

/-! ## Functions and labelled arguments -/

theorem Functions.find?_of_get {functions : Functions} {name : String} {f : Function}
    (h : functions.get name = .ok f) : functions.find? name = some f := by
  unfold Functions.get at h
  cases hfind : functions.find? name with
  | none => rw [hfind] at h; cases h
  | some g =>
    rw [hfind] at h
    cases h
    rfl

theorem mem_of_lookup {arguments : List (String × Expr)} {x : String} {e : Expr}
    (h : arguments.lookup x = some e) : (x, e) ∈ arguments := by
  obtain ⟨before, after, rfl, -⟩ := List.lookup_eq_some_iff.mp h
  simp

namespace Function

theorem map_lookup_of_mapM {arguments : List (String × Expr)} {params : List String}
    {arranged : List Expr} (h : params.mapM (argumentFor arguments) = .ok arranged) :
    params.map (arguments.lookup ·) = arranged.map some := by
  induction params generalizing arranged with
  | nil =>
    cases h
    rfl
  | cons param params ih =>
    rw [List.mapM_cons, argumentFor] at h
    cases hparam : arguments.lookup param with
    | none => rw [hparam] at h; cases h
    | some e =>
      cases hrest : params.mapM (argumentFor arguments) with
      | error e => rw [hparam, hrest] at h; cases h
      | ok rest =>
        rw [hparam, hrest] at h
        cases h
        simp [hparam, ih hrest]

variable {f : Function} {arguments : List (String × Expr)} {arranged : List Expr}

/-- The arranged arguments are those of the parameters, in their order. -/
theorem map_lookup_of_arrange (h : f.arrange arguments = .ok arranged) :
    f.params.map (arguments.lookup ·) = arranged.map some := by
  unfold arrange at h
  cases hl : checkLabels f.params [] arguments with
  | error e => rw [hl] at h; cases h
  | ok _ =>
    rw [hl] at h
    exact map_lookup_of_mapM h

theorem length_of_arrange (h : f.arrange arguments = .ok arranged) : arranged.length = f.params.length := by
  simpa using (congrArg List.length (map_lookup_of_arrange h)).symm

theorem mem_of_arrange (h : f.arrange arguments = .ok arranged) : ∀ e ∈ arranged, e ∈ arguments.map Prod.snd := by
  intro e he
  have hmem : some e ∈ f.params.map (arguments.lookup ·) := by
    rw [map_lookup_of_arrange h]
    exact List.mem_map_of_mem he
  obtain ⟨param, -, hparam⟩ := List.mem_map.mp hmem
  exact List.mem_map.mpr ⟨_, mem_of_lookup hparam, rfl⟩

theorem length_of_checkArity {name : String} {count : Nat} {u : Unit} (h : f.checkArity name count = .ok u) :
    count = f.params.length := by
  unfold checkArity at h
  split at h
  · assumption
  · cases h

end Function

theorem eq_ok_of_mapError {ε ε' α : Type} {x : Except ε α} {g : ε → ε'} {a : α} (h : x.mapError g = .ok a) :
    x = .ok a := by
  cases x with
  | ok b => exact congrArg Except.ok (Except.ok.inj h)
  | error e => cases h

/-! ## What a node does itself -/

inductive Fault.OfValues : Fault → Prop
  | kind (expected found : Kind) (context : String) : OfValues (.kind expected found context)
  | divisionByZero : OfValues .divisionByZero
  | overflow (op : Operator) : OfValues (.overflow op)

theorem Operator.apply_ofValues {op : Operator} {l r : Value} {fault : Fault} (h : op.apply l r = .error fault) :
    fault.OfValues := by
  cases l <;> cases r <;> cases op <;>
    simp only [apply, onInts, checked] at h <;> (repeat' split at h) <;> cases h <;> constructor

theorem Value.toBool_ofValues {v : Value} {context : String} {fault : Fault} (h : v.toBool context = .error fault) :
    fault.OfValues := by
  cases v <;> cases h <;> constructor

/-- The faults that a node raises itself, whatever the values of the nodes below it. -/
inductive Expr.Raises (functions : Functions) : Expr → Fault → Prop
  | operator {e : Expr} {fault : Fault} (op : Operator) (l r : Value) : op.apply l r = .error fault →
      Raises functions e fault
  | condition {e : Expr} {fault : Fault} (context : String) (v : Value) : v.toBool context = .error fault →
      Raises functions e fault
  | callee {name : String} {arguments : List Expr} {fault : Fault} : functions.get name = .error fault →
      Raises functions (.call name arguments) fault
  | arity {name : String} {arguments : List Expr} {f : Function} {fault : Fault} : functions.get name = .ok f →
      f.checkArity name arguments.length = .error fault → Raises functions (.call name arguments) fault
  | labelledCallee {name : String} {arguments : List (String × Expr)} {fault : Fault} :
      functions.get name = .error fault → Raises functions (.labelledCall name arguments) fault
  | labels {name : String} {arguments : List (String × Expr)} {f : Function} {fault : Fault} :
      functions.get name = .ok f → (f.arrange arguments).mapError (Fault.labels name) = .error fault →
      Raises functions (.labelledCall name arguments) fault

structure Acts (σ : Type) where
  read : String → Run σ Value
  assign : String → Value → Run σ Unit
  print : String → Run σ Unit
  call : Function → List Value → Run σ Value

/-- Evaluates one node as `evalNode` does, on any state. -/
def evalNodeOn {σ : Type} (functions : Functions) (rounds : Nat) (eval : Expr → Run σ Value) (acts : Acts σ) :
    Expr → Run σ Value
  | .int n => pure (.int n)
  | .bool b => pure (.bool b)
  | .array items => do
    let values ← items.mapM eval
    pure (.array values)
  | .var name => acts.read name
  | .binary op left right => do
    let l ← eval left
    let r ← eval right
    Run.ofExcept (op.apply l r)
  | .assign name e => do
    let value ← eval e
    acts.assign name value
    pure value
  | .block lines => lines.foldlM (fun _ line => eval line) .unit
  | .ifThen condition body => do
    if ← evalTest eval "if condition" condition then eval body
    else pure .unit
  | .ifElse condition body orElse => do
    if ← evalTest eval "if condition" condition then eval body
    else eval orElse
  | .whileDo condition body => do
    repeatWhile (evalTest eval "while condition" condition) (eval body) rounds
    pure (.bool true)
  | .call name arguments => do
    let f ← Run.ofExcept (functions.get name)
    Run.ofExcept (f.checkArity name arguments.length)
    let values ← arguments.mapM eval
    acts.call f values
  | .labelledCall name arguments => do
    let f ← Run.ofExcept (functions.get name)
    let arranged ← Run.ofExcept ((f.arrange arguments).mapError (Fault.labels name))
    let values ← arranged.mapM eval
    acts.call f values
  | .println argument => do
    let value ← eval argument
    acts.print value.render
    pure value

def evalNodeBy (functions : Functions) (rounds : Nat) (eval : Expr → Eval Value)
    (call : Function → List Value → Eval Value) (frame : Nat) : Expr → Eval Value :=
  evalNodeOn functions rounds eval ⟨Eval.read frame, Eval.assign frame, Eval.printLine, call⟩

theorem evalNodeBy_invoke (functions : Functions) (rounds : Nat) (eval : Expr → Eval Value)
    (evalBody : Nat → Expr → Eval Value) (frame : Nat) (e : Expr) :
    evalNodeBy functions rounds eval (fun f values => invoke evalBody f values frame) frame e =
      evalNode functions rounds eval evalBody frame e := by
  cases e <;> rfl

/-! ## Related evaluations -/

section On

variable {σ τ : Type} {K : Congruence σ τ} {functions : Functions} {rounds rounds' : Nat}
  {eval : Expr → Run σ Value} {eval' : Expr → Run τ Value}

theorem evalTest_related {c : Expr} (h : K.Rel (eval c) (eval' c)) {context : String}
    (hfault : ∀ (v : Value) fault, v.toBool context = .error fault → K.Allows fault) :
    K.Rel (evalTest eval context c) (evalTest eval' context c) :=
  K.bind h fun v => Congruence.ofExcept (hfault v)

/-- The evaluations of a node are related if those of the nodes below it are, and what the node does
    itself. -/
theorem evalNodeOn_related {acts : Acts σ} {acts' : Acts τ} {e : Expr}
    (hchild : ∀ c ∈ e.children, K.Rel (eval c) (eval' c))
    (hfault : ∀ fault, e.Raises functions fault → K.Allows fault)
    (hread : ∀ x, e = .var x → K.Rel (acts.read x) (acts'.read x))
    (hassign : ∀ x c, e = .assign x c → ∀ v, K.Rel (acts.assign x v) (acts'.assign x v))
    (hprint : ∀ v : Value, K.Rel (acts.print v.render) (acts'.print v.render))
    (hloop : ∀ c b, e = .whileDo c b → ∀ context, K.Rel (evalTest eval context c) (evalTest eval' context c) →
      K.Rel (eval b) (eval' b) → K.Rel (repeatWhile (evalTest eval context c) (eval b) rounds)
        (repeatWhile (evalTest eval' context c) (eval' b) rounds'))
    (hcall : ∀ name f, functions.get name = .ok f → ∀ values, values.length = f.params.length →
      K.Rel (acts.call f values) (acts'.call f values)) :
    K.Rel (evalNodeOn functions rounds eval acts e) (evalNodeOn functions rounds' eval' acts' e) := by
  have htest {c : Expr} (hc : K.Rel (eval c) (eval' c)) (context : String) :
      K.Rel (evalTest eval context c) (evalTest eval' context c) :=
    evalTest_related hc fun v fault h => hfault fault (.condition context v h)
  cases e with
  | int n | bool b => exact K.pure _
  | array items => exact Congruence.mapM_bind hchild fun values _ => K.pure _
  | var x => exact hread x rfl
  | binary op l r =>
    refine K.bind (hchild l (by simp [Expr.children])) fun a => ?_
    refine K.bind (hchild r (by simp [Expr.children])) fun b => ?_
    exact Congruence.ofExcept fun fault h => hfault fault (.operator op a b h)
  | assign x c =>
    refine K.bind (hchild c (by simp [Expr.children])) fun v => ?_
    exact K.bind (hassign x c rfl v) fun _ => K.pure v
  | block lines => exact Congruence.foldlM (fun line hline _ => hchild line hline) .unit
  | ifThen c b =>
    refine K.bind (htest (hchild c (by simp [Expr.children])) _) fun holds => ?_
    cases holds with
    | false => exact K.pure _
    | true => exact hchild b (by simp [Expr.children])
  | ifElse c b o =>
    refine K.bind (htest (hchild c (by simp [Expr.children])) _) fun holds => ?_
    cases holds with
    | false => exact hchild o (by simp [Expr.children])
    | true => exact hchild b (by simp [Expr.children])
  | whileDo c b =>
    have hc := htest (hchild c (by simp [Expr.children])) "while condition"
    exact K.bind (hloop c b rfl _ hc (hchild b (by simp [Expr.children]))) fun _ => K.pure _
  | call name arguments =>
    refine Congruence.ofExcept_bind (fun fault h => hfault fault (.callee h)) fun f hf => ?_
    refine Congruence.ofExcept_bind (fun fault h => hfault fault (.arity hf h)) fun _ harity => ?_
    have hcount := Function.length_of_checkArity harity
    exact Congruence.mapM_bind hchild fun values hlen => hcall name f hf values (hlen.trans hcount)
  | labelledCall name arguments =>
    refine Congruence.ofExcept_bind (fun fault h => hfault fault (.labelledCallee h)) fun f hf => ?_
    refine Congruence.ofExcept_bind (fun fault h => hfault fault (.labels hf h)) fun arranged ha => ?_
    have hsub := Function.mem_of_arrange (eq_ok_of_mapError ha)
    have hcount := Function.length_of_arrange (eq_ok_of_mapError ha)
    exact Congruence.mapM_bind (fun c hc => hchild c (hsub c hc)) fun values hlen =>
      hcall name f hf values (hlen.trans hcount)
  | println c =>
    refine K.bind (hchild c (by simp [Expr.children])) fun v => ?_
    exact K.bind (hprint v) fun _ => K.pure v

end On

end Scriptling
