/-
  Scriptling.Proofs.Session.Termination — without loops every operation of a session ends.

  A session may hold functions that call themselves and each other. If neither their bodies nor
  what is run has a loop, every operation ends with a value or with a fault, given enough fuel
  (`Session.Reached.loopFree_ends`).
-/

import Scriptling.Proofs.Eval.Termination
import Scriptling.Proofs.Session.Discipline

namespace Scriptling

open Run

def Functions.LoopFree (functions : Functions) : Prop := ∀ name f, functions.find? name = some f → f.body.LoopFree

namespace Operation

/-- The expressions of an operation: those that it evaluates, and the bodies of the functions that it
    defines. -/
def roots : Operation → List Expr
  | program p => p.map Definition.root
  | lines ls => ls
  | expr e => [e]
  | reset => []

def LoopFree (op : Operation) : Prop := ∀ e ∈ op.roots, e.LoopFree

instance (op : Operation) : Decidable op.LoopFree := inferInstanceAs (Decidable (∀ e ∈ op.roots, e.LoopFree))

end Operation

/-! ## Bounds -/

def Functions.height (functions : Functions) : Nat :=
  heightAll ((functions.entries.map Prod.snd).map Function.body)

theorem Functions.LoopFree.plain {functions : Functions} (h : functions.LoopFree) {bound : Nat}
    (hbound : functions.height ≤ bound) : functions.Plain bound := by
  intro name f hf
  have hheight := height_le_heightAll (List.mem_map_of_mem (f := Function.body) (Bindings.mem_of_find? hf))
  exact ⟨h name f hf, Nat.le_trans hheight hbound⟩

theorem Functions.Plain.insert {functions : Functions} {bound : Nat} (h : functions.Plain bound) {f : Function}
    (hloop : f.body.LoopFree) (hheight : f.body.height ≤ bound) :
    Functions.Plain bound (functions.insert f.name f) := by
  intro name g hg
  rw [Bindings.find?_insert] at hg
  split at hg
  · cases hg
    exact ⟨hloop, hheight⟩
  · exact h name g hg

/-! ## Operations -/

namespace Session

def Plain (bound : Nat) (session : Session) : Prop :=
  session.machine.frames.OnTop Frames.global ∧ session.functions.Plain bound

variable {bound fuel : Nat}

theorem evaluating_ends {α : Type} {evaluation : Functions → Eval α}
    (h : ∀ functions, functions.Plain bound → Eval.EndsAt Frames.global (evaluation functions)) :
    Ends (Plain bound) (evaluating evaluation) := by
  intro session hs
  obtain ⟨functions, m⟩ := session
  obtain ⟨m', hends, hm'⟩ := h functions hs.2 m hs.1
  refine ⟨⟨functions, m'⟩, ?_, hm', hs.2⟩
  unfold evaluating
  rcases hends with ⟨a, hrun⟩ | ⟨e, hrun⟩
  · exact .inl ⟨a, by simp only [hrun]⟩
  · exact .inr ⟨e, by simp only [hrun]⟩

section Fuel

variable (hfuel : bound + maxCalls * bound ≤ fuel)
include hfuel

theorem eval_global_ends {functions : Functions} (hplain : functions.Plain bound) {e : Expr} (he : e.LoopFree)
    (hheight : e.height ≤ bound) : Eval.EndsAt Frames.global (eval functions fuel Frames.global e) := by
  refine eval_ends hplain he ?_
  show e.height + maxCalls * bound ≤ fuel
  omega

theorem runExpr_ends {e : Expr} (he : e.LoopFree) (hheight : e.height ≤ bound) :
    Ends (Plain bound) (runExpr fuel e) :=
  evaluating_ends fun _ hplain => eval_global_ends hfuel hplain he hheight

theorem define_ends {definition : Definition} (hd : definition.root.LoopFree)
    (hheight : definition.root.height ≤ bound) : Ends (Plain bound) (define fuel definition) := by
  cases definition with
  | global name e =>
    refine evaluating_ends fun functions hplain => (eval_global_ends hfuel hplain hd hheight).bind fun v => ?_
    intro m hm
    simp only [Eval.define, Eval.changeFrames, Frames.define, hm.live, if_true]
    exact ⟨_, .inl ⟨(), rfl⟩, hm.1.bind Frames.global name v, by rw [Frames.depth_bind]; exact hm.2⟩
  | function f =>
    intro session hs
    simp only [define, addFunction]
    split
    · exact ⟨session, .inr ⟨_, rfl⟩, hs⟩
    · exact ⟨_, .inl ⟨(), rfl⟩, hs.1, hs.2.insert hd hheight⟩

theorem callMain_ends : Ends (Plain bound) (callMain fuel) := by
  refine evaluating_ends fun functions hplain => ?_
  cases hmain : functions.find? "main" with
  | none => exact Ends.raise _
  | some main =>
    obtain ⟨hloop, hheight⟩ := hplain "main" main hmain
    refine invoke_ends (fun _ => eval_ends hplain hloop ?_) []
    have hless : (maxCalls - (Frames.global + 1)) * bound ≤ maxCalls * bound := Nat.mul_le_mul_right bound (by omega)
    omega

/-- Given fuel for one expression and for a body in each call that may be active, an operation
    ends. -/
theorem run_ends {op : Operation} (hop : op.LoopFree) (hheight : ∀ e ∈ op.roots, e.height ≤ bound) :
    Ends (Plain bound) (op.run fuel) := by
  cases op with
  | program p =>
    refine Ends.bind ?_ fun _ => callMain_ends hfuel
    refine Congruence.forM (K := Ends.congruence (Plain bound)) (g := define fuel) fun definition hdefinition => ?_
    have hmem : definition.root ∈ (Operation.program p).roots := List.mem_map_of_mem hdefinition
    exact define_ends hfuel (hop _ hmem) (hheight _ hmem)
  | lines ls => exact Ends.foldlM (fun line hline _ => runExpr_ends hfuel (hop line hline) (hheight line hline)) .unit
  | expr e =>
    have hmem : e ∈ (Operation.expr e).roots := List.mem_singleton.mpr rfl
    exact runExpr_ends hfuel (hop e hmem) (hheight e hmem)
  | reset =>
    intro session hs
    have hinitial : Frames.initial.OnTop Frames.global := by decide
    refine ⟨session.reset, .inl ⟨_, rfl⟩, hinitial, fun name f hf => ?_⟩
    cases hf

end Fuel

/-- If there is no loop in the functions of a session, nor in a program, in lines or in an
    expression, then carrying out the latter ends, given enough fuel, with a value or with a fault
    that is no misuse of the frames. -/
theorem Reached.loopFree_ends {session : Session} (reached : session.Reached) (loopFree : session.functions.LoopFree)
    {op : Operation} (opLoopFree : op.LoopFree) :
    ∃ enough, ∀ fuel ≥ enough,
      (∃ v session', op.run fuel session = .done v session') ∨
        ∃ e session', op.run fuel session = .fault e session' ∧ ∀ misuse, e ≠ .misuse misuse := by
  let bound := max session.functions.height (heightAll op.roots)
  refine ⟨bound + maxCalls * bound, fun fuel hfuel => ?_⟩
  have hrest := reached.atRest
  have hplain : session.Plain bound :=
    ⟨⟨hrest.1, hrest.2.1⟩, loopFree.plain (Nat.le_max_left ..)⟩
  have hheight (e : Expr) (he : e ∈ op.roots) : e.height ≤ bound :=
    Nat.le_trans (height_le_heightAll he) (Nat.le_max_right ..)
  obtain ⟨session', hends, -⟩ := run_ends hfuel opLoopFree hheight session hplain
  rcases hends with ⟨v, hrun⟩ | ⟨e, hrun⟩
  · exact .inl ⟨v, session', hrun⟩
  · exact .inr ⟨e, session', hrun, ((op.run_agree .unfinished fuel).of_fault hrest hrun).2⟩

/-- Two functions that call each other for ever, one with its arguments by position and one by
    label. -/
def runaway : Operation :=
  .program [.function ⟨"ping", ["n"], .labelledCall "pong" [("n", .binary .add (.var "n") (.int 1))]⟩,
    .function ⟨"pong", ["n"], .call "ping" [.var "n"]⟩, .function ⟨"main", [], .call "ping" [.int 0]⟩]

theorem runaway_ends :
    (start .unlimited).Reached ∧ (start .unlimited).functions.LoopFree ∧ runaway.LoopFree ∧
      ∃ enough, ∀ fuel ≥ enough,
        (∃ v session', runaway.run fuel (start .unlimited) = .done v session') ∨
          ∃ e session', runaway.run fuel (start .unlimited) = .fault e session' ∧ ∀ misuse, e ≠ .misuse misuse := by
  have hloopFree : (start .unlimited).functions.LoopFree := by
    intro name f hf
    cases hf
  have hrunaway : runaway.LoopFree := by decide
  exact ⟨.start _, hloopFree, hrunaway, (Reached.start _).loopFree_ends hloopFree hrunaway⟩

end Session

end Scriptling
