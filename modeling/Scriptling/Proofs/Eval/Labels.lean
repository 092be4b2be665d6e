/-
  Scriptling.Proofs.Eval.Labels — labelled calls and the positional calls that they stand for.

  A labelled call passes if its labels are the parameters of the function, each given once. It then goes on like the
  positional call that has, for each parameter in turn, the expression with that label.
  - `labelled_call_as_positional`: a labelled call against the positional one. A call that does not pass stops before
    anything is evaluated.
  - `labelled_arguments_evaluated`: each argument is evaluated once for each parameter that has its label. So none is
    left out, and each is evaluated once exactly if no two parameters have the same name.
-/

import Mathlib.Data.List.Nodup
import Mathlib.Data.List.Perm.Subperm
import Scriptling.Session
import Scriptling.Proofs.Eval.Resolution
import Scriptling.Proofs.Grammar.Exact
import Scriptling.Proofs.Ideal.Sound

namespace Scriptling

open Run

/-! ## The order of the arguments -/

namespace Function

variable {f : Function} {arguments : List (String × Expr)}

/-- The order in which the arguments are written does not matter. -/
theorem TakesLabels.perm (h : f.TakesLabels (arguments.map Prod.fst)) {arguments' : List (String × Expr)}
    (hperm : arguments'.Perm arguments) : f.TakesLabels (arguments'.map Prod.fst) := by
  have hlabels := hperm.map Prod.fst
  obtain ⟨hnodup, hparams, hall⟩ := h
  exact ⟨hlabels.nodup_iff.mpr hnodup, fun x hx => hparams x (hlabels.mem_iff.mp hx),
    fun x hx => hlabels.mem_iff.mpr (hall x hx)⟩

theorem Places.perm {es : List Expr} (h : f.Places arguments es) {arguments' : List (String × Expr)}
    (hperm : arguments'.Perm arguments) : f.Places arguments' es :=
  ⟨h.1, fun pair hpair => hperm.mem_iff.mpr (h.2 pair hpair)⟩

end Function

/-! ## Labelled calls and positional calls -/

/-- The expression stops at the fault before anything in it is evaluated, whatever evaluating that would do, and the
    machine stays as it is. -/
def Expr.StopsAtOnce (functions : Functions) (e : Expr) (fault : Fault) : Prop :=
  (∀ fuel frame m, eval functions (fuel + 1) frame e m = .fault fault m) ∧
    ∀ rounds ev evalBody frame m, evalNode functions rounds ev evalBody frame e m = .fault fault m

namespace Ideal

variable {functions : Functions}

theorem Misses.stopsAtOnce {e : Expr} {fault : Fault} (h : Misses functions e fault) :
    e.StopsAtOnce functions fault := by
  refine ⟨fun fuel frame m => ?_, fun rounds ev evalBody frame m => ?_⟩
  · rw [eval_succ, h.evalNode_eq]
    rfl
  · rw [h.evalNode_eq]
    rfl

/-- Calls of one function with the same arguments are evaluated alike, however they are written. -/
theorem Calls.eval_eq {e e' : Expr} {f : Function} {es : List Expr} (h : Calls functions e f es)
    (h' : Calls functions e' f es) (fuel frame : Nat) : eval functions fuel frame e = eval functions fuel frame e' := by
  cases fuel with
  | zero => rfl
  | succ fuel => rw [eval_succ, eval_succ, h.evalNode_eq, h'.evalNode_eq]

end Ideal

/-- A labelled call whose labels are the parameters, each given once, is the positional call with the expressions in
    the order of the parameters: both end alike from every machine, and so does the call with its arguments written in
    another order. With other labels the call stops at once, at a fault that says what is wrong with them. So does a
    positional call with another number of arguments, and any call of a function that is not there. -/
theorem labelled_call_as_positional (functions : Functions) (name : String) :
    (∀ f, functions.find? name = some f → ∀ arguments : List (String × Expr),
      (f.TakesLabels (arguments.map Prod.fst) →
        (∃ es, f.Places arguments es) ∧
        (∀ es, f.Places arguments es → ∀ fuel frame,
          eval functions fuel frame (.labelledCall name arguments) = eval functions fuel frame (.call name es)) ∧
        ∀ arguments' : List (String × Expr), arguments'.Perm arguments → ∀ fuel frame,
          eval functions fuel frame (.labelledCall name arguments') =
            eval functions fuel frame (.labelledCall name arguments)) ∧
      (¬ f.TakesLabels (arguments.map Prod.fst) →
        ∃ fault : LabelFault, fault.Holds f.params (arguments.map Prod.fst) ∧
          (Expr.labelledCall name arguments).StopsAtOnce functions (.labels name fault))) ∧
    (∀ f, functions.find? name = some f → ∀ arguments : List Expr, arguments.length ≠ f.params.length →
      (Expr.call name arguments).StopsAtOnce functions (.arity name f.params.length arguments.length)) ∧
    (functions.find? name = none →
      (∀ arguments, (Expr.call name arguments).StopsAtOnce functions (.undefinedFunction name)) ∧
        ∀ arguments, (Expr.labelledCall name arguments).StopsAtOnce functions (.undefinedFunction name)) := by
  refine ⟨fun f hf arguments => ⟨fun htakes => ?_, fun hnot => ?_⟩, fun f hf arguments hlength => ?_, fun hnone => ?_⟩
  · obtain ⟨arranged, hplaces⟩ := htakes.exists_places
    refine ⟨⟨arranged, hplaces⟩, fun es hes fuel frame => ?_, fun arguments' hperm fuel frame => ?_⟩
    · have hlabelled : Ideal.Calls functions (.labelledCall name arguments) f es := .labelled hf htakes hes
      exact hlabelled.eval_eq (.positional hf hes.1) fuel frame
    · have hlabelled : Ideal.Calls functions (.labelledCall name arguments') f arranged :=
        .labelled hf (htakes.perm hperm) (hplaces.perm hperm)
      exact hlabelled.eval_eq (.labelled hf htakes hplaces) fuel frame
  · obtain ⟨fault, hrefuses⟩ := (f.takes_or_refuses _).resolve_left hnot
    exact ⟨fault, hrefuses.holds, (Ideal.Misses.labels hf hrefuses).stopsAtOnce⟩
  · exact (Ideal.Misses.arity hf hlength).stopsAtOnce
  · refine ⟨fun arguments => ?_, fun arguments => ?_⟩
    · exact (Ideal.Misses.unknown hnone).stopsAtOnce
    · exact (Ideal.Misses.unknownLabelled hnone).stopsAtOnce

def Function.less : Function := ⟨"less", ["a", "b"], .binary .subtract (.var "a") (.var "b")⟩

def Functions.telling : Functions :=
  (Bindings.empty.insert "tell" ⟨"tell", ["n"], .println (.var "n")⟩).insert "less" .less

def tellingArguments : List (String × Expr) := [("b", .call "tell" [.int 1]), ("a", .call "tell" [.int 7])]

theorem labelled_call_as_positional_telling :
    eval .telling 9 0 (.labelledCall "less" tellingArguments) {} = .done (.int 6) { sink := ⟨"7\n1\n", none⟩ } ∧
      eval .telling 9 0 (.labelledCall "less" tellingArguments) {} =
        eval .telling 9 0 (.call "less" [.call "tell" [.int 7], .call "tell" [.int 1]]) {} ∧
        ∃ fault, (Expr.labelledCall "less" (tellingArguments.take 1)).StopsAtOnce .telling (.labels "less" fault) := by
  have hcall := (labelled_call_as_positional .telling "less").1 _ rfl
  refine ⟨rfl, ?_, ?_⟩
  · have hsame := ((hcall tellingArguments).1 (by decide)).2.1 [.call "tell" [.int 7], .call "tell" [.int 1]]
    rw [hsame ⟨rfl, by decide⟩ 9 0]
  · obtain ⟨fault, -, hstops⟩ := (hcall (tellingArguments.take 1)).2 (by decide)
    exact ⟨fault, hstops⟩

/-! ## How often an argument is evaluated -/

namespace Function

/-- The arguments, each as often as its label is among the parameters. -/
def copies (params : List String) (arguments : List (String × Expr)) : List Expr :=
  arguments.flatMap fun a => List.replicate (params.count a.1) a.2

theorem copies_of_not_mem {param : String} {arguments : List (String × Expr)} (h : param ∉ arguments.map Prod.fst)
    (params : List String) : copies (param :: params) arguments = copies params arguments := by
  refine List.flatMap_congr fun a ha => ?_
  have hne : param ≠ a.1 := fun heq => h (List.mem_map.mpr ⟨a, ha, heq.symm⟩)
  rw [List.count_cons_of_ne hne]

/-- One parameter more takes one copy more of its argument. -/
theorem copies_cons {arguments : List (String × Expr)} (hnodup : (arguments.map Prod.fst).Nodup) {param : String}
    {e : Expr} (h : (param, e) ∈ arguments) (params : List String) :
    (copies (param :: params) arguments).Perm (e :: copies params arguments) := by
  induction arguments with
  | nil => cases h
  | cons argument rest ih =>
    obtain ⟨label, e'⟩ := argument
    rw [List.map_cons, List.nodup_cons] at hnodup
    rcases List.mem_cons.mp h with heq | hmem
    · cases heq
      have hrest : copies (param :: params) rest = copies params rest := copies_of_not_mem hnodup.1 params
      show (List.replicate ((param :: params).count param) e ++ copies (param :: params) rest).Perm _
      rw [List.count_cons_self, hrest]
      exact .refl _
    · have hne : param ≠ label := by
        rintro rfl
        exact hnodup.1 (List.mem_map.mpr ⟨(param, e), hmem, rfl⟩)
      show (List.replicate ((param :: params).count label) e' ++ copies (param :: params) rest).Perm _
      rw [List.count_cons_of_ne hne]
      exact ((ih hnodup.2 hmem).append_left _).trans List.perm_middle

variable {f : Function} {arguments : List (String × Expr)} {es : List Expr}

theorem Places.perm_copies (h : f.Places arguments es) (hnodup : (arguments.map Prod.fst).Nodup) :
    es.Perm (copies f.params arguments) := by
  obtain ⟨hlength, hmem⟩ := h
  generalize f.params = params at hlength hmem
  induction params generalizing es with
  | nil =>
    obtain rfl := List.eq_nil_of_length_eq_zero hlength
    have hnone : copies [] arguments = [] := List.flatMap_eq_nil_iff.mpr fun _ _ => rfl
    rw [hnone]
  | cons param params ih =>
    cases es with
    | nil => cases hlength
    | cons e es =>
      rw [List.zip_cons_cons, List.forall_mem_cons] at hmem
      have hrest := ih (Nat.succ.inj hlength) hmem.2
      exact (hrest.cons e).trans (copies_cons hnodup hmem.1 params).symm

/-- The arguments are taken once each exactly if no two parameters have the same name. -/
theorem perm_arguments_iff (htakes : f.TakesLabels (arguments.map Prod.fst)) (hplaces : f.Places arguments es) :
    es.Perm (arguments.map Prod.snd) ↔ f.params.Nodup := by
  obtain ⟨hnodup, hparams, hall⟩ := htakes
  constructor
  · intro hperm
    -- There are as many parameters as labels, and the labels are some of them.
    have hlength : f.params.length ≤ (arguments.map Prod.fst).length := by
      have hcount := hperm.length_eq
      rw [hplaces.1, List.length_map] at hcount
      rw [List.length_map]
      exact Nat.le_of_eq hcount
    exact ((List.subperm_of_subset hnodup hparams).perm_of_length_le hlength).nodup_iff.mp hnodup
  · intro hdistinct
    have honce : copies f.params arguments = arguments.map Prod.snd := by
      rw [copies, ← List.flatMap_pure_eq_map]
      refine List.flatMap_congr fun a ha => ?_
      rw [List.nodup_iff_count_eq_one.mp hdistinct a.1 (hparams a.1 (List.mem_map_of_mem ha))]
      rfl
    rw [← honce]
    exact hplaces.perm_copies hnodup

end Function

/-- A labelled call that passes evaluates a list of expressions from first to last, up to the first that gives no
    value, and then the body. Each of its arguments is in this list once for each parameter with its label, and at least
    once; the list is the arguments in some order exactly if no two parameters have the same name. -/
theorem labelled_arguments_evaluated {functions : Functions} {name : String} {f : Function}
    (found : functions.find? name = some f) {arguments : List (String × Expr)} {evaluated : List Expr}
    (passes : f.arrange arguments = .ok evaluated) :
    (∀ rounds ev evalBody frame, evalNode functions rounds ev evalBody frame (.labelledCall name arguments) =
      evaluated.mapM ev >>= fun values => invoke evalBody f values frame) ∧
    evaluated.Perm (arguments.flatMap fun a => List.replicate (f.params.count a.1) a.2) ∧
    (∀ a ∈ arguments, 0 < f.params.count a.1) ∧
    (evaluated.Perm (arguments.map Prod.snd) ↔ f.params.Nodup) := by
  obtain ⟨htakes, hplaces⟩ := Function.arrange_eq_ok_iff.mp passes
  refine ⟨fun rounds ev evalBody frame => ?_, hplaces.perm_copies htakes.1, fun a ha => ?_,
    Function.perm_arguments_iff htakes hplaces⟩
  · exact (Ideal.Calls.labelled found htakes hplaces).evalNode_eq rounds frame
  · exact List.count_pos_iff.mpr (htakes.2.1 a.1 (List.mem_map_of_mem ha))

theorem labelled_arguments_evaluated_telling : ∃ evaluated,
    Function.less.arrange tellingArguments = .ok evaluated ∧
      evaluated = [.call "tell" [.int 7], .call "tell" [.int 1]] ∧
        evaluated.Perm (tellingArguments.map Prod.snd) := by
  have hfind : Functions.telling.find? "less" = some .less := rfl
  refine ⟨_, rfl, rfl, ?_⟩
  exact (labelled_arguments_evaluated hfind rfl).2.2.2.mpr (by decide)

def repeatedParameter : String :=
  "define g() \x7b println(1); \x7d define f(x, x) \x7b x; \x7d define main() \x7b f[x = g()]; \x7d"

/-- A function that comes from a text, and a call of it that passes and evaluates its one argument twice. -/
theorem argument_evaluated_twice : ∃ program f session,
    Program.parse repeatedParameter = .ok program ∧ Definition.function f ∈ program ∧
      f.arrange [("x", .call "g" [])] = .ok [.call "g" [], .call "g" []] ∧
        ¬ [Expr.call "g" [], Expr.call "g" []].Perm ([("x", Expr.call "g" [])].map Prod.snd) ∧
          runSource 9 repeatedParameter .unlimited = some (.ok (.int 1), session) ∧
            session.functions.find? "f" = some f ∧ session.printed = "1\n1\n" := by
  let g : Function := ⟨"g", [], .block [.println (.int 1)]⟩
  let f : Function := ⟨"f", ["x", "x"], .block [.var "x"]⟩
  let main : Function := ⟨"main", [], .block [.labelledCall "f" [("x", .call "g" [])]]⟩
  have hparse : Program.parse repeatedParameter = .ok [.function g, .function f, .function main] :=
    eq_ok_of_toOption (by decide +kernel)
  refine ⟨_, f, ⟨((Bindings.empty.insert "g" g).insert "f" f).insert "main" main, { sink := ⟨"1\n1\n", none⟩ }⟩,
    hparse, by simp, rfl, fun hperm => ?_, ?_, rfl, rfl⟩
  · cases hperm.length_eq
  · unfold runSource Session.runText
    rw [hparse]
    rfl

end Scriptling
