/-
  Scriptling.Proofs.Session.Linking — programs whose calls are all resolved.

  In a program that defines its functions first and then its global variables, every call can be
  checked against the functions before anything is run. If all of them are resolved, the names are
  different and there is a `main` without parameters, the program never stops because functions and
  calls do not fit each other (`resolution_sound`).
-/

import Scriptling.Proofs.Eval.Resolution
import Scriptling.Proofs.Session.Table

namespace Scriptling

open Run

/-- The program that defines some functions, and then some global variables. -/
def Program.functionsFirst (fs : List Function) (globals : List (String × Expr)) : Program :=
  fs.map .function ++ globals.map fun (x, e) => .global x e

namespace Session

def Has (functions : Functions) (session : Session) : Prop := session.functions = functions

abbrev Linked {α : Type} (functions : Functions) (run : Run Session α) : Prop :=
  Safe (Has functions) Fault.OfLinking run

variable {functions : Functions}

theorem evaluating_linked {α : Type} {evaluation : Functions → Eval α} (h : Eval.Linked (evaluation functions)) :
    Linked functions (evaluating evaluation) := by
  intro session hfunctions
  obtain ⟨known, m⟩ := session
  obtain rfl : known = functions := hfunctions
  have hwithin := h m trivial
  unfold evaluating
  dsimp only
  cases hrun : evaluation known m with
  | done a m' => rfl
  | fault e m' =>
    rw [hrun] at hwithin
    exact hwithin
  | unfinished => trivial

theorem define_global_linked (hfunctions : functions.Resolved) (fuel : Nat) (x : String) {e : Expr}
    (he : e.Resolved functions) : Linked functions (define fuel (.global x e)) := by
  unfold define
  exact evaluating_linked ((eval_linked hfunctions fuel Frames.global he).bind fun v => Eval.changeFrames_linked _)

theorem callMain_linked (hfunctions : functions.Resolved) (fuel : Nat) {main : Function}
    (hmain : functions.find? "main" = some main) (hparams : main.params = []) : Linked functions (callMain fuel) := by
  refine evaluating_linked ?_
  rw [hmain]
  have hbody := hfunctions "main" main hmain
  exact invoke_linked (by rw [hparams]; rfl) (fun frame => eval_linked hfunctions fuel frame hbody) Frames.global

/-- A program that begins with fresh functions goes on in a session that has them all. -/
theorem runProgram_functions {fs : List Function} {session : Session} (h : session.functions.Fresh fs) (fuel : Nat)
    (rest : Program) :
    runProgram fuel (fs.map Definition.function ++ rest) session =
      runProgram fuel rest { session with functions := session.functions.extend fs } := by
  induction fs generalizing session with
  | nil => rfl
  | cons f fs ih =>
    obtain ⟨hnew, hfresh⟩ := Functions.fresh_cons.mp h
    have hdefine : define fuel (.function f) session =
        .done () { session with functions := session.functions.insert f.name f } := by
      simp [define, addFunction, Bindings.contains, hnew]
    rw [List.map_cons, List.cons_append, runProgram_cons, bind_apply, hdefine]
    exact ih hfresh

/-- Global variables, and then `main`. -/
theorem runProgram_linked (hfunctions : functions.Resolved) (fuel : Nat) {globals : List (String × Expr)}
    (hglobals : ∀ g ∈ globals, g.2.Resolved functions) {main : Function}
    (hmain : functions.find? "main" = some main) (hparams : main.params = []) :
    Linked functions (runProgram fuel (globals.map fun (x, e) => .global x e)) := by
  refine Safe.bind ?_ fun _ => callMain_linked hfunctions fuel hmain hparams
  let K := Safe.congruence (Has functions) Fault.OfLinking
  refine Congruence.forM (K := K) (g := define fuel) fun definition hmem => ?_
  obtain ⟨⟨x, e⟩, hg, rfl⟩ := List.mem_map.mp hmem
  exact define_global_linked hfunctions fuel x (hglobals _ hg)

end Session

/-- The functions of a program that come first, resolved against each other, are a resolved table. -/
theorem Functions.resolved_extend {fs : List Function} (hfresh : Functions.Fresh .empty fs)
    (hbodies : ∀ f ∈ fs, f.body.Resolved (Functions.extend .empty fs)) : (Functions.extend .empty fs).Resolved := by
  intro name f hf
  rcases (find?_extend hfresh).mp hf with hf | ⟨hmem, -⟩
  · cases hf
  · exact hbodies f hmem

open Session in
/-- Where all calls are resolved against the functions, evaluations never stop at a fault of linking:
    no function is missing, and no call passes another number of arguments or other labels than its
    function takes. No value is lost when parameters are bound. A program that defines its functions
    first, whose calls are all resolved and whose `main` takes no arguments, does not stop at such a
    fault either. -/
theorem resolution_sound :
    (∀ functions : Functions, functions.Resolved → ∀ e : Expr, e.Resolved functions → ∀ fuel frame m,
      (∀ fault m', eval functions fuel frame e m = .fault fault m' → ¬ fault.OfLinking) ∧
      ∀ alarm, evalGuarded Function.TakesAll alarm functions fuel frame e m = eval functions fuel frame e m) ∧
    ∀ fs globals, (fs.map Function.name).Nodup → (∀ f ∈ fs, f.body.Resolved (Functions.extend .empty fs)) →
      (∀ g ∈ globals, g.2.Resolved (Functions.extend .empty fs)) →
      (∃ main ∈ fs, main.name = "main" ∧ main.params = []) →
      ∀ fuel sink fault session', runProgram fuel (.functionsFirst fs globals) (.start sink) = .fault fault session' →
        ¬ fault.OfLinking := by
  refine ⟨fun functions hfunctions e he fuel frame m => ⟨fun fault m' hrun => ?_, fun alarm => ?_⟩,
    fun fs globals hnames hbodies hglobals hmain fuel sink fault session' hrun => ?_⟩
  · exact (eval_linked hfunctions fuel frame he).not_fault trivial hrun
  · rw [evalGuarded_eq _ alarm functions (fun _ _ _ _ hlength => Function.takesAll_iff.mpr hlength)]
  · have hfresh : Functions.Fresh .empty fs := ⟨hnames, fun _ _ => rfl⟩
    have htable := Functions.resolved_extend hfresh hbodies
    obtain ⟨main, hmem, hname, hparams⟩ := hmain
    have hfind := (Functions.find?_extend hfresh).mpr (.inr ⟨hmem, hname⟩)
    have hlinked := runProgram_linked htable fuel hglobals hfind hparams
    rw [Program.functionsFirst, runProgram_functions hfresh] at hrun
    exact hlinked.not_fault (s := ⟨Functions.extend .empty fs, _⟩) rfl hrun

def alternating : List Function :=
  [⟨"even", ["n", "step"], .ifElse (.binary .less (.var "n") (.int 1)) (.bool true)
      (.labelledCall "odd" [("step", .var "step"), ("n", .binary .subtract (.var "n") (.var "step"))])⟩,
    ⟨"odd", ["n", "step"], .ifElse (.binary .less (.var "n") (.int 1)) (.bool false)
      (.call "even" [.binary .subtract (.var "n") (.var "step"), .var "step"])⟩,
    ⟨"main", [], .binary .divide (.int 1) (.int 0)⟩]

theorem resolution_sound_alternating : ∃ session',
    Session.runProgram 9 (.functionsFirst alternating [("g", .call "even" [.int 1, .int 1])]) (.start .unlimited) =
        .fault .divisionByZero session' ∧
      ¬ Fault.OfLinking .divisionByZero ∧
        ∀ alarm, evalGuarded Function.TakesAll alarm (Functions.extend .empty alternating) 9 Frames.global
          (.call "even" [.int 1, .int 1]) {} = .done (.bool false) {} := by
  have hbodies : ∀ f ∈ alternating, f.body.Resolved (Functions.extend .empty alternating) := by decide +kernel
  have htable := Functions.resolved_extend ⟨by decide, fun _ _ => rfl⟩ hbodies
  refine ⟨_, rfl, ?_, fun alarm => ?_⟩
  · exact resolution_sound.2 alternating [("g", .call "even" [.int 1, .int 1])] (by decide) hbodies
      (by decide +kernel) (by decide) 9 .unlimited _ _ rfl
  · exact (resolution_sound.1 _ htable (.call "even" [.int 1, .int 1]) (by decide +kernel) 9 Frames.global {}).2 alarm

end Scriptling
