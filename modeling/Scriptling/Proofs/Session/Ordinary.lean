/-
  Scriptling.Proofs.Session.Ordinary — the values of sessions are the ordinary ones.

  However often programs, lines and expressions are run one after another, no value comes up that is not
  ordinary: none is returned, and none is bound in a frame, not even while an operation is going on. And
  there is a program for every ordinary value.
  - `Operation.InRange`: integer literals fit into 64 bits. What is parsed is always in range
    (`Expr.IsStatement.inRange`, `Definition.WellFormed.inRange`).
  - `Operation.run_concur`: no operation in range meets a value that is not ordinary.
  - `Program.giving`: a program whose `main` returns a given value.
  - `ordinary_values_exactly`: the two together.
-/

import Scriptling.Proofs.Eval.Ordinary
import Scriptling.Proofs.Grammar.Image
import Scriptling.Proofs.Session.Linking
import Scriptling.Proofs.Session.Termination

namespace Scriptling

open Run

/-! ## What is parsed is in range -/

theorem Expr.IsOperand.inRange {e : Expr} (h : e.IsOperand) : e.InRange := by
  induction h with
  | int hn => exact inRange_iff.mpr ⟨Value.isWord_natCast_iff.mpr hn, fun c hc => by cases hc⟩
  | bool _ | var _ => exact inRange_iff.mpr ⟨rfl, fun c hc => by cases hc⟩
  | array _ ih | call _ _ ih => exact inRange_iff.mpr ⟨rfl, ih⟩
  | binary op _ _ ihl ihr => exact inRange_iff.mpr ⟨rfl, by simp [children, ihl, ihr]⟩
  | labelledCall _ _ _ ih =>
    refine inRange_iff.mpr ⟨rfl, fun c hc => ?_⟩
    obtain ⟨argument, hargument, rfl⟩ := List.mem_map.mp hc
    exact ih argument hargument

theorem Expr.IsStatement.inRange {e : Expr} (h : e.IsStatement) : e.InRange := by
  induction h with
  | operand he => exact he.inRange
  | assign _ hv => exact inRange_iff.mpr ⟨rfl, by simp [children, hv.inRange]⟩
  | println ha => exact inRange_iff.mpr ⟨rfl, by simp [children, ha.inRange]⟩
  | block _ ih => exact inRange_iff.mpr ⟨rfl, ih⟩
  | whileDo hc _ ih | ifThen hc _ ih => exact inRange_iff.mpr ⟨rfl, by simp [children, hc.inRange, ih]⟩
  | ifElse hc _ _ _ ihb iho => exact inRange_iff.mpr ⟨rfl, by simp [children, hc.inRange, ihb, iho]⟩

theorem Definition.WellFormed.inRange {d : Definition} (h : d.WellFormed) : d.root.InRange := by
  cases h with
  | global _ hv => exact hv.inRange
  | function _ _ hlines => exact Expr.inRange_iff.mpr ⟨rfl, fun c hc => (hlines c hc).inRange⟩

namespace Operation

def InRange (op : Operation) : Prop := ∀ e ∈ op.roots, e.InRange

instance (op : Operation) : Decidable op.InRange := inferInstanceAs (Decidable (∀ e ∈ op.roots, e.InRange))

theorem inRange_expr_of_parse {source : String} {e : Expr} (h : Expr.parse source = .ok e) : (expr e).InRange := by
  obtain ⟨ts, hw, hd⟩ := Rule.derives_of_read (fun _ _ _ => Grammar.wholeExpr_ok_iff) h
  intro root hroot
  obtain rfl := List.mem_singleton.mp hroot
  exact (hd.isOperand hw).inRange

theorem inRange_lines_of_parse {source : String} {es : List Expr} (h : Expr.parseLines source = .ok es) :
    (lines es).InRange := by
  obtain ⟨ts, hw, hd⟩ := Rule.derives_of_read (fun _ _ _ => Grammar.wholeLines_ok_iff) h
  exact fun root hroot => (hd.isStatement hw root hroot).inRange

theorem inRange_program_of_parse {source : String} {p : Program} (h : Program.parse source = .ok p) :
    (program p).InRange := by
  obtain ⟨ts, hw, hd⟩ := Rule.derives_of_read (fun _ _ _ => Grammar.wholeProgram_ok_iff) h
  intro root hroot
  obtain ⟨definition, hdefinition, rfl⟩ := List.mem_map.mp hroot
  exact (hd.wellFormed hw definition hdefinition).inRange

end Operation

/-! ## Operations -/

def inspector (alarm : Outcome Machine Value) (fuel : Nat) : Evaluator := fun functions _ =>
  evalInspected alarm functions fuel

namespace Session

def Ordinary (session : Session) : Prop := session.machine.Ordinary ∧ session.functions.InRange

theorem ordinary_start (sink : Sink) : (start sink).Ordinary :=
  ⟨(by decide : Frames.initial.Ordinary), fun _ _ hf => by cases hf⟩

variable {alarm : Outcome Machine Value} {fuel : Nat}

theorem evaluating_concur {α : Type} {Q : α → Prop} {evaluation evaluation' : Functions → Eval α}
    (h : ∀ functions, functions.InRange → Concur Machine.Ordinary Q (evaluation functions) (evaluation' functions)) :
    Concur Ordinary Q (evaluating evaluation) (evaluating evaluation') := by
  intro session hs
  obtain ⟨functions, m⟩ := session
  obtain ⟨hm, hfunctions⟩ := hs
  obtain ⟨heq, hkeeps⟩ := h functions hfunctions m hm
  unfold evaluating
  dsimp only
  rw [heq]
  refine ⟨rfl, ?_⟩
  cases hrun : evaluation' functions m with
  | done a m' =>
    rw [hrun] at hkeeps
    exact ⟨hkeeps.1, hkeeps.2, hfunctions⟩
  | fault e m' =>
    rw [hrun] at hkeeps
    exact ⟨hkeeps, hfunctions⟩
  | unfinished => trivial

theorem runExprBy_concur {e : Expr} (he : e.InRange) :
    Concur Ordinary Value.Ordinary (runExprBy (inspector alarm fuel) e) (runExpr fuel e) :=
  evaluating_concur fun _ hfunctions => evalInspected_concur alarm hfunctions fuel Frames.global he

theorem addFunction_concur {f : Function} (hf : f.body.InRange) :
    Concur Ordinary (fun _ => True) (addFunction f) (addFunction f) := by
  intro session hs
  refine ⟨rfl, ?_⟩
  unfold addFunction
  split
  · exact hs
  · refine ⟨trivial, hs.1, fun name g hg => ?_⟩
    rw [Bindings.find?_insert] at hg
    split at hg
    · cases hg
      exact hf
    · exact hs.2 name g hg

theorem defineBy_concur {definition : Definition} (hd : definition.root.InRange) :
    Concur Ordinary (fun _ => True) (defineBy (inspector alarm fuel) definition) (define fuel definition) := by
  cases definition with
  | global x e =>
    unfold defineBy define
    refine evaluating_concur fun functions hfunctions => ?_
    refine Concur.bind (evalInspected_concur alarm hfunctions fuel Frames.global hd) fun v hv => ?_
    exact Eval.define_concur Frames.global x hv
  | function f => exact addFunction_concur hd

theorem callMainBy_concur : Concur Ordinary Value.Ordinary (callMainBy (inspector alarm fuel)) (callMain fuel) := by
  refine evaluating_concur fun functions hfunctions => ?_
  cases hmain : functions.find? "main" with
  | none => exact Concur.raise _
  | some main =>
    refine invoke_concur (fun v hv => by cases hv) Frames.global fun frame => ?_
    exact evalInspected_concur alarm hfunctions fuel frame (hfunctions "main" main hmain)

end Session

open Session in
/-- An operation in range meets no value that is not ordinary. -/
theorem Operation.run_concur (alarm : Outcome Machine Value) (fuel : Nat) {op : Operation} (h : op.InRange) :
    Concur Session.Ordinary Value.Ordinary (op.runBy (inspector alarm fuel)) (op.run fuel) := by
  cases op with
  | program p =>
    refine Concur.bind (Concur.forM fun definition hdefinition => ?_) fun _ _ => callMainBy_concur
    exact defineBy_concur (h _ (List.mem_map_of_mem hdefinition))
  | lines ls => exact Concur.foldlM (fun line hline _ => runExprBy_concur (h line hline)) .unit
  | expr e => exact runExprBy_concur (h e (List.mem_singleton_self e))
  | reset => exact fun session _ => ⟨rfl, .unit, ordinary_start _⟩

namespace Session

/-- The sessions that operations in range lead to from a fresh one, each of which ended with a value or with
    a fault. -/
inductive ReachedInRange : Session → Prop
  | start (sink : Sink) : ReachedInRange (.start sink)
  | ended {session session' : Session} (op : Operation) (fuel : Nat) : ReachedInRange session → op.InRange →
      (op.run fuel session).EndsIn session' → ReachedInRange session'

theorem ReachedInRange.ordinary {session : Session} (h : session.ReachedInRange) : session.Ordinary := by
  induction h with
  | start sink => exact ordinary_start sink
  | ended op fuel _ hop hends ih => exact (op.run_concur .unfinished fuel hop).of_endsIn ih hends

end Session

/-! ## Programs for values -/

namespace Value

/-- A function that returns the value, if it is ordinary and there is a function that does nothing. -/
def main (v : Value) : Function := ⟨"main", [], .block [v.expr]⟩

def program (v : Value) : Program := [.nothing, v.main].map .function

def source (v : Value) : String := textOf (v.program.flatMap Definition.tokens)

namespace Ordinary

variable {v : Value} (h : v.Ordinary)
include h

theorem parse_source : Program.parse v.source = .ok v.program := by
  have hmain : Nameable "main" :=
    ⟨⟨'m', "ain".toList, rfl, by decide, List.all_eq_true.mp (by decide)⟩, fun k => by cases k <;> decide⟩
  have hwell : ∀ d ∈ v.program, d.WellFormed := by
    intro d hd
    obtain ⟨f, hf, rfl⟩ := List.mem_map.mp hd
    simp only [List.mem_cons, List.not_mem_nil, or_false] at hf
    rcases hf with rfl | rfl
    · exact .function nameable_nothing (by simp) (by simp)
    · exact .function hmain (by simp) (by simpa using Expr.IsStatement.operand h.isOperand)
  obtain ⟨hw, hd⟩ := Grammar.programTokens_derives hwell
  exact Rule.read_textOf (fun _ _ _ => Grammar.wholeProgram_ok_iff) hw hd

/-- Where there is a function that does nothing, a call of `main` returns the value and changes nothing. -/
theorem callMain_main {functions : Functions} (hnothing : functions.find? "nothing" = some .nothing)
    (hmain : functions.find? "main" = some v.main) {fuel : Nat} (hfuel : v.expr.height + 2 ≤ fuel) (sink : Sink) :
    Session.callMain fuel ⟨functions, { sink }⟩ = .done v ⟨functions, { sink }⟩ := by
  obtain ⟨fuel, rfl⟩ : ∃ less, fuel = less + 1 := ⟨fuel - 1, by omega⟩
  -- The body is a block of one line, in a frame above the global one.
  let m : Machine := ⟨Frames.initial.push Frames.global, sink⟩
  have hroom : 0 < m.frames.depth ∧ m.frames.depth ≤ maxCalls := by
    show 0 < (Frames.initial.push Frames.global).depth ∧ (Frames.initial.push Frames.global).depth ≤ maxCalls
    decide
  have hline : eval functions fuel Frames.initial.nextId v.expr m = .done v m :=
    h.eval_expr hnothing hroom.1 hroom.2 (by omega)
  have hbody : eval functions (fuel + 1) Frames.initial.nextId v.main.body m = .done v m := by
    rw [main, eval_succ, evalNode, List.foldlM_cons, bind_apply, hline]
    rfl
  have hglobal : 0 < Frames.initial.depth ∧ Frames.initial.depth ≤ maxCalls := by decide
  have hcall : invoke (eval functions (fuel + 1)) v.main [] Frames.global { sink } = .done v { sink } :=
    invoke_unchanged rfl hglobal.1 hglobal.2 hbody
  simp only [Session.callMain, Session.evaluating, hmain, hcall]

/-- The program returns the value and prints nothing. -/
theorem runProgram_program {fuel : Nat} (hfuel : v.expr.height + 2 ≤ fuel) (sink : Sink) :
    Session.runProgram fuel v.program (.start sink) =
      .done v ⟨Functions.extend .empty [.nothing, v.main], { sink }⟩ := by
  have hnames : ([.nothing, v.main].map Function.name).Nodup := by
    show ["nothing", "main"].Nodup
    decide
  have hfresh : (Session.start sink).functions.Fresh [.nothing, v.main] := ⟨hnames, fun _ _ => rfl⟩
  have hdefined := Session.runProgram_functions hfresh fuel []
  rw [List.append_nil] at hdefined
  have hcall : Session.callMain fuel ⟨Functions.extend .empty [.nothing, v.main], { sink }⟩ = _ :=
    h.callMain_main rfl rfl hfuel sink
  exact hdefined.trans hcall

theorem runSource_source {fuel : Nat} (hfuel : v.expr.height + 2 ≤ fuel) (sink : Sink) :
    runSource fuel v.source sink = some (.ok v, ⟨Functions.extend .empty [.nothing, v.main], { sink }⟩) := by
  simp only [runSource, Session.runText, h.parse_source, h.runProgram_program hfuel sink]

end Ordinary

end Value

/-- Only an ordinary value comes out of a text. -/
theorem ordinary_of_runSource {fuel : Nat} {source : String} {sink : Sink} {v : Value} {session : Session}
    (h : runSource fuel source sink = some (.ok v, session)) : v.Ordinary := by
  unfold runSource Session.runText at h
  cases hparse : Program.parse source with
  | error e =>
    rw [hparse] at h
    cases h
  | ok p =>
    simp only [hparse] at h
    cases hrun : Session.runProgram fuel p (.start sink) with
    | done w session' =>
      rw [hrun] at h
      cases h
      have hconcur := Operation.run_concur .unfinished fuel (Operation.inRange_program_of_parse hparse)
      exact (hconcur.of_done (Session.ordinary_start sink) hrun).1
    | fault e session' =>
      rw [hrun] at h
      cases h
    | unfinished =>
      rw [hrun] at h
      cases h

/-- The values of sessions are exactly the ordinary ones. After any operations in range only ordinary values
    are bound; while one more is going on no other value is bound or returned, whatever an alarm would do, and
    however it ends only ordinary values are bound. Expressions, lines and programs that are parsed are in
    range. An ordinary value, and no other, is what some text returns. -/
theorem ordinary_values_exactly :
    (∀ session : Session, session.ReachedInRange →
      session.machine.frames.Ordinary ∧
        ∀ op : Operation, op.InRange → ∀ fuel,
          (∀ alarm, op.runBy (inspector alarm fuel) session = op.run fuel session) ∧
            (∀ v session', op.run fuel session = .done v session' →
              v.Ordinary ∧ session'.machine.frames.Ordinary) ∧
              ∀ e session', op.run fuel session = .fault e session' → session'.machine.frames.Ordinary) ∧
    (∀ source,
      (∀ e, Expr.parse source = .ok e → (Operation.expr e).InRange) ∧
        (∀ lines, Expr.parseLines source = .ok lines → (Operation.lines lines).InRange) ∧
          ∀ program, Program.parse source = .ok program → (Operation.program program).InRange) ∧
    ∀ v : Value, v.Ordinary ↔
      ∃ source enough, ∀ fuel, enough ≤ fuel → ∀ sink, ∃ session,
        runSource fuel source sink = some (.ok v, session) := by
  refine ⟨fun session hreached => ?_, fun source => ?_, fun v => ⟨fun h => ?_, ?_⟩⟩
  · have hs := hreached.ordinary
    refine ⟨hs.1, fun op hop fuel => ⟨fun alarm => ?_, fun v session' hrun => ?_, fun e session' hrun => ?_⟩⟩
    · exact (op.run_concur alarm fuel hop session hs).1
    · obtain ⟨hv, hs'⟩ := (op.run_concur .unfinished fuel hop).of_done hs hrun
      exact ⟨hv, hs'.1⟩
    · exact ((op.run_concur .unfinished fuel hop).of_endsIn hs (.inr ⟨e, hrun⟩)).1
  · exact ⟨fun e => Operation.inRange_expr_of_parse, fun lines => Operation.inRange_lines_of_parse,
      fun program => Operation.inRange_program_of_parse⟩
  · exact ⟨v.source, v.expr.height + 2, fun fuel hfuel sink => ⟨_, h.runSource_source hfuel sink⟩⟩
  · rintro ⟨source, enough, hall⟩
    obtain ⟨session, hrun⟩ := hall enough (Nat.le_refl _) .unlimited
    exact ordinary_of_runSource hrun

def Value.unwritten : Value := .array [.int (-9223372036854775808), .unit, .array [.unit, .int (-1)]]

theorem ordinary_values_unwritten :
    (∃ source enough, ∀ fuel, enough ≤ fuel → ∀ sink, ∃ session,
      runSource fuel source sink = some (.ok .unwritten, session)) ∧
    ∃ session, Session.failing.run 10 (.start .unlimited) = .fault .divisionByZero session ∧
      session.machine.frames.Ordinary ∧
        ∀ alarm, (Operation.expr (.var "g")).runBy (inspector alarm 1) session =
          (Operation.expr (.var "g")).run 1 session := by
  have hrange : Session.failing.InRange := by decide +kernel
  refine ⟨(ordinary_values_exactly.2.2 .unwritten).mp (by decide +kernel), _, rfl, ?_⟩
  obtain ⟨hbound, hnext⟩ :=
    ordinary_values_exactly.1 _ (.ended Session.failing 10 (.start .unlimited) hrange (.inr ⟨_, rfl⟩))
  exact ⟨hbound, (hnext (.expr (.var "g")) (by decide +kernel) 1).1⟩

end Scriptling
