/-
  Scriptling.Proofs.Session.Table — the functions of a session.

  A session only comes to know functions from the definitions of its programs, in order, each under
  its own name and only if that name is new. An evaluation never changes them, and only `reset` takes
  one away. A program may stop at any of its definitions; what it leaves behind are the functions of
  the definitions before (`Session.Reached.table_discipline`).
-/

import Scriptling.Proofs.Eval.Guarded
import Scriptling.Proofs.Session.Discipline

namespace Scriptling

open Run

/-! ## Tables -/

def Program.functions (program : Program) : List Function :=
  program.filterMap fun
    | .function f => some f
    | .global _ _ => none

namespace Functions

def extend (functions : Functions) (fs : List Function) : Functions :=
  fs.foldl (fun table f => table.insert f.name f) functions

/-- No two of the functions have the same name, and none has one that is in the table. -/
def Fresh (functions : Functions) (fs : List Function) : Prop :=
  (fs.map Function.name).Nodup ∧ ∀ f ∈ fs, functions.find? f.name = none

def Extends (functions functions' : Functions) : Prop :=
  ∃ fs, functions.Fresh fs ∧ functions' = functions.extend fs

variable {functions : Functions} {f : Function} {fs gs : List Function}

@[simp] theorem fresh_nil : functions.Fresh [] := ⟨List.nodup_nil, by simp⟩

/-- The first function is new to the table, and the others to the table with it. -/
theorem fresh_cons :
    functions.Fresh (f :: fs) ↔ functions.find? f.name = none ∧ Fresh (functions.insert f.name f) fs := by
  constructor
  · intro h
    obtain ⟨hnodup, hnew⟩ := h
    rw [List.map_cons, List.nodup_cons] at hnodup
    refine ⟨hnew f (List.mem_cons_self ..), hnodup.2, fun g hg => ?_⟩
    have hne : g.name ≠ f.name := fun h => hnodup.1 (h ▸ List.mem_map_of_mem hg)
    rw [Bindings.find?_insert, if_neg hne]
    exact hnew g (List.mem_cons_of_mem _ hg)
  · intro h
    obtain ⟨hf, hnodup, hnew⟩ := h
    have hothers : ∀ g ∈ fs, g.name ≠ f.name ∧ functions.find? g.name = none := by
      intro g hg
      have hfind := hnew g hg
      rw [Bindings.find?_insert] at hfind
      split at hfind
      · cases hfind
      · exact ⟨‹_›, hfind⟩
    refine ⟨?_, fun g hg => ?_⟩
    · rw [List.map_cons, List.nodup_cons]
      refine ⟨fun hmem => ?_, hnodup⟩
      obtain ⟨g, hg, hname⟩ := List.mem_map.mp hmem
      exact (hothers g hg).1 hname
    · rcases List.mem_cons.mp hg with rfl | hg
      · exact hf
      · exact (hothers g hg).2

theorem fresh_append : functions.Fresh (fs ++ gs) ↔ functions.Fresh fs ∧ (functions.extend fs).Fresh gs := by
  induction fs generalizing functions with
  | nil => simp [extend]
  | cons f fs ih =>
    rw [List.cons_append, fresh_cons, fresh_cons, ih, and_assoc]
    rfl

theorem extend_append : functions.extend (fs ++ gs) = (functions.extend fs).extend gs :=
  List.foldl_append

/-- In a table with more functions are found those of the table and the new ones. -/
theorem find?_extend (h : functions.Fresh fs) {name : String} {g : Function} :
    (functions.extend fs).find? name = some g ↔ functions.find? name = some g ∨ g ∈ fs ∧ g.name = name := by
  induction fs generalizing functions with
  | nil => simp [extend]
  | cons f fs ih =>
    obtain ⟨hf, hfs⟩ := fresh_cons.mp h
    have hih : (functions.extend (f :: fs)).find? name = some g ↔ _ := ih hfs
    rw [hih, Bindings.find?_insert, List.mem_cons]
    by_cases hname : name = f.name
    · rw [if_pos hname, hname, hf]
      grind
    · rw [if_neg hname]
      grind

namespace Extends

theorem refl (functions : Functions) : functions.Extends functions := ⟨[], fresh_nil, rfl⟩

theorem trans {functions' functions'' : Functions} (h : functions.Extends functions')
    (h' : functions'.Extends functions'') : functions.Extends functions'' := by
  obtain ⟨fs, hfs, rfl⟩ := h
  obtain ⟨gs, hgs, rfl⟩ := h'
  exact ⟨fs ++ gs, fresh_append.mpr ⟨hfs, hgs⟩, extend_append.symm⟩

/-- What is found once is found again. -/
theorem find? {functions' : Functions} (h : functions.Extends functions') {name : String} {g : Function}
    (hg : functions.find? name = some g) : functions'.find? name = some g := by
  obtain ⟨fs, hfs, rfl⟩ := h
  exact (find?_extend hfs).mpr (.inl hg)

end Extends

def OwnNames (functions : Functions) : Prop := ∀ name f, functions.find? name = some f → f.name = name

theorem OwnNames.extends {functions' : Functions} (h : functions.OwnNames) (hext : functions.Extends functions') :
    functions'.OwnNames := by
  obtain ⟨fs, hfs, rfl⟩ := hext
  intro name f hf
  rcases (find?_extend hfs).mp hf with hf | ⟨-, hname⟩
  · exact h name f hf
  · exact hname

end Functions

/-! ## Runs -/

namespace Session

def SameTable (session session' : Session) : Prop := session'.functions = session.functions

theorem evaluating_sameTable {α : Type} (evaluation : Functions → Eval α) : Leads SameTable (evaluating evaluation) := by
  intro session session' hends
  obtain ⟨m, -, rfl⟩ := endsIn_evaluating.mp hends
  rfl

theorem runExpr_sameTable (fuel : Nat) (e : Expr) : Leads SameTable (runExpr fuel e) := evaluating_sameTable _

theorem callMain_sameTable (fuel : Nat) : Leads SameTable (callMain fuel) := evaluating_sameTable _

theorem runLines_sameTable (fuel : Nat) (lines : List Expr) : Leads SameTable (runLines fuel lines) := by
  let K := Leads.congruence SameTable (fun _ => rfl) (fun _ _ _ h h' => h'.trans h)
  exact Congruence.foldlM (K := K) (g := fun _ line => runExpr fuel line) (fun line _ _ => runExpr_sameTable fuel line) .unit

theorem define_global_sameTable (fuel : Nat) (x : String) (e : Expr) : Leads SameTable (define fuel (.global x e)) := by
  unfold define
  exact evaluating_sameTable _

/-- A definition that is carried out adds its function, which is new. -/
theorem define_table {fuel : Nat} {definition : Definition} {session session' : Session}
    (h : define fuel definition session = .done () session') :
    session.functions.Fresh (Program.functions [definition]) ∧
      session'.functions = session.functions.extend (Program.functions [definition]) := by
  cases definition with
  | global x e => exact ⟨Functions.fresh_nil, define_global_sameTable fuel x e _ _ (.inl ⟨(), h⟩)⟩
  | function f =>
    simp only [define, addFunction] at h
    split at h
    · cases h
    · rename_i hnew
      obtain ⟨-, rfl⟩ := Outcome.done.inj h
      have hfind : session.functions.find? f.name = none := by simpa [Bindings.contains] using hnew
      exact ⟨Functions.fresh_cons.mpr ⟨hfind, Functions.fresh_nil⟩, rfl⟩

/-- Definitions that are carried out add their functions, which are new. -/
theorem forM_define_table {fuel : Nat} {first : Program} {session mid : Session}
    (h : first.forM (define fuel) session = .done () mid) :
    session.functions.Fresh first.functions ∧ mid.functions = session.functions.extend first.functions := by
  induction first generalizing session with
  | nil =>
    obtain ⟨-, rfl⟩ := Outcome.done.inj h
    exact ⟨Functions.fresh_nil, rfl⟩
  | cons definition first ih =>
    rw [List.forM_eq_forM, List.forM_cons, bind_apply] at h
    cases hdefine : define fuel definition session with
    | done u session' =>
      rw [hdefine] at h
      obtain ⟨hfresh, htable⟩ := define_table hdefine
      obtain ⟨hfresh', htable'⟩ := ih h
      rw [htable] at hfresh' htable'
      have happend : Program.functions (definition :: first) =
          Program.functions [definition] ++ Program.functions first :=
        List.filterMap_append (l := [definition])
      rw [happend]
      exact ⟨Functions.fresh_append.mpr ⟨hfresh, hfresh'⟩, htable'.trans Functions.extend_append.symm⟩
    | fault e session' => rw [hdefine] at h; cases h
    | unfinished => rw [hdefine] at h; cases h

/-! ## Programs -/

theorem define_global (fuel : Nat) (x : String) (e : Expr) :
    define fuel (.global x e) =
      (do let v ← runExpr fuel e; evaluating fun _ => Eval.define Frames.global x v) := by
  funext session
  obtain ⟨functions, machine⟩ := session
  simp only [define, runExpr, evaluating, bind_apply]
  cases eval functions fuel Frames.global e machine with
  | done v m => rfl
  | fault fault m => rfl
  | unfinished => rfl

theorem runProgram_cons (fuel : Nat) (definition : Definition) (rest : Program) :
    runProgram fuel (definition :: rest) = (do define fuel definition; runProgram fuel rest) := by
  unfold runProgram
  rw [List.forM_eq_forM, List.forM_cons, bind_assoc]

/-- At rest, a global variable can be bound. -/
theorem AtRest.bind {session : Session} (hrest : session.AtRest) (x : String) (v : Value) :
    ∃ session', evaluating (fun _ => Eval.define Frames.global x v) session = .done () session' ∧ session'.AtRest := by
  obtain ⟨functions, m⟩ := session
  have hlive : Frames.global < m.frames.depth := hrest.1.1
  simp only [evaluating, Eval.define, Eval.changeFrames, Frames.define, hlive, if_true]
  exact ⟨_, rfl, Frames.StackAt.bind hrest Frames.global x v⟩

/-- How a program ends once its first definitions have led to the session `mid`, by the definitions
    that are left: with `main` if there are none, and otherwise at the first of them. -/
inductive Ending (fuel : Nat) (mid : Session) : Program → Outcome Session Value → Prop
  | main : Ending fuel mid [] (callMain fuel mid)
  | initializer {x : String} {e : Expr} {rest : Program} : (∀ v session', runExpr fuel e mid ≠ .done v session') →
      Ending fuel mid (.global x e :: rest) (runExpr fuel e mid)
  | duplicate {f : Function} {rest : Program} : mid.functions.contains f.name →
      Ending fuel mid (.function f :: rest) (.fault (.duplicateFunction f.name) mid)

/-- A definition is carried out, or the program ends at it. -/
theorem define_or_ending {session : Session} (hrest : session.AtRest) (fuel : Nat) (definition : Definition) :
    (∃ session', define fuel definition session = .done () session' ∧ session'.AtRest) ∨
      ∀ rest, Ending fuel session (definition :: rest) (runProgram fuel (definition :: rest) session) := by
  cases definition with
  | global x e =>
    -- The value can always be bound, so the program ends here only for want of a value.
    have hstop (hrun : ∀ v session', runExpr fuel e session ≠ .done v session') (rest : Program) :
        Ending fuel session (.global x e :: rest) (runProgram fuel (.global x e :: rest) session) := by
      have heq : runProgram fuel (.global x e :: rest) session = runExpr fuel e session := by
        rw [runProgram_cons, define_global, bind_assoc, bind_apply]
        cases hcase : runExpr fuel e session with
        | done v session' => exact absurd hcase (hrun v session')
        | fault _ _ | unfinished => rfl
      rw [heq]
      exact .initializer hrun
    cases hrun : runExpr fuel e session with
    | done v mid =>
      have hmid : mid.AtRest := ((Operation.expr e).run_agree .unfinished fuel).of_done hrest hrun
      obtain ⟨session', hbind, hrest'⟩ := hmid.bind x v
      refine .inl ⟨session', ?_, hrest'⟩
      rw [define_global, bind_apply, hrun]
      exact hbind
    | fault _ _ | unfinished => exact .inr (hstop (by simp [hrun]))
  | function f =>
    by_cases hknown : session.functions.contains f.name = true
    · refine .inr fun rest => ?_
      rw [runProgram_cons, bind_apply, define, addFunction, if_pos hknown]
      exact .duplicate hknown
    · refine .inl ⟨{ session with functions := session.functions.insert f.name f }, ?_, hrest⟩
      rw [define, addFunction, if_neg hknown]

/-- The first definitions of a program are carried out, up to the one at which it ends. -/
theorem exists_ending {session : Session} (hrest : session.AtRest) (fuel : Nat) (p : Program) :
    ∃ first rest mid, p = first ++ rest ∧ first.forM (define fuel) session = .done () mid ∧
      Ending fuel mid rest (runProgram fuel p session) := by
  induction p generalizing session with
  | nil => exact ⟨[], [], session, rfl, rfl, .main⟩
  | cons definition p ih =>
    rcases define_or_ending hrest fuel definition with ⟨session', hdefine, hrest'⟩ | hending
    · obtain ⟨first, rest, mid, rfl, hfirst, hending⟩ := ih hrest'
      refine ⟨definition :: first, rest, mid, rfl, ?_, ?_⟩
      · rw [List.forM_eq_forM, List.forM_cons, bind_apply, hdefine]
        exact hfirst
      · rw [runProgram_cons, bind_apply, hdefine]
        exact hending
    · exact ⟨[], definition :: p, session, rfl, rfl, hending p⟩

theorem Ending.sameTable {fuel : Nat} {mid session' : Session} {rest : Program} {x : Outcome Session Value}
    (h : Ending fuel mid rest x) (hends : x.EndsIn session') : session'.functions = mid.functions := by
  cases h with
  | main => exact callMain_sameTable fuel mid session' hends
  | initializer _ => exact runExpr_sameTable fuel _ mid session' hends
  | duplicate _ => rw [← Outcome.endsIn_fault.mp hends]

/-- How far a program comes: its first definitions lead to the session `mid`, and then it ends. The
    functions it leaves behind are those from before and those of the first definitions. -/
structure Progress (fuel : Nat) (session : Session) (p first rest : Program) (mid : Session) : Prop where
  split : p = first ++ rest
  carriedOut : first.forM (define fuel) session = .done () mid
  ending : Ending fuel mid rest (runProgram fuel p session)
  fresh : session.functions.Fresh first.functions
  table : mid.functions = session.functions.extend first.functions
  kept : ∀ session', (runProgram fuel p session).EndsIn session' → session'.functions = mid.functions

theorem AtRest.progress {session : Session} (hrest : session.AtRest) (fuel : Nat) (p : Program) :
    ∃ first rest mid, session.Progress fuel p first rest mid := by
  obtain ⟨first, rest, mid, hsplit, hfirst, hending⟩ := exists_ending hrest fuel p
  obtain ⟨hfresh, htable⟩ := forM_define_table hfirst
  exact ⟨first, rest, mid, hsplit, hfirst, hending, hfresh, htable, fun _ => hending.sameTable⟩

/-! ## Operations -/

inductive Onward (session : Session) : Session → Prop
  | refl : Onward session session
  | step {session' session'' : Session} (op : Operation) (fuel : Nat) : Onward session session' → op ≠ .reset →
      (op.run fuel session').EndsIn session'' → Onward session session''

/-- An operation other than `reset` only adds functions, which are new. -/
theorem AtRest.extends {session session' : Session} (hrest : session.AtRest) {op : Operation} {fuel : Nat}
    (hop : op ≠ .reset) (hends : (op.run fuel session).EndsIn session') :
    session.functions.Extends session'.functions := by
  cases op with
  | program p =>
    obtain ⟨first, _, _, hprogress⟩ := hrest.progress fuel p
    exact ⟨first.functions, hprogress.fresh, (hprogress.kept session' hends).trans hprogress.table⟩
  | lines ls =>
    rw [runLines_sameTable fuel ls session session' hends]
    exact .refl _
  | expr e =>
    rw [runExpr_sameTable fuel e session session' hends]
    exact .refl _
  | reset => exact absurd rfl hop

theorem AtRest.run {session session' : Session} (hrest : session.AtRest) {op : Operation} {fuel : Nat}
    (hends : (op.run fuel session).EndsIn session') : session'.AtRest :=
  (op.run_agree .unfinished fuel).of_endsIn hrest hends

theorem Onward.extends {session later : Session} (h : session.Onward later) (hrest : session.AtRest) :
    later.AtRest ∧ session.functions.Extends later.functions := by
  induction h with
  | refl => exact ⟨hrest, .refl _⟩
  | step op fuel _ hop hends ih => exact ⟨ih.1.run hends, ih.2.trans (ih.1.extends hop hends)⟩

theorem ownNames_run {session session' : Session} (hrest : session.AtRest) (hown : session.functions.OwnNames)
    {op : Operation} {fuel : Nat} (hends : (op.run fuel session).EndsIn session') : session'.functions.OwnNames := by
  by_cases hop : op = .reset
  · subst hop
    obtain rfl := Outcome.endsIn_done.mp hends
    intro name f hf
    cases hf
  · exact hown.extends (hrest.extends hop hends)

/-- Every function of a session is found under its own name. -/
theorem Reached.ownNames {session : Session} (reached : session.Reached) : session.functions.OwnNames := by
  induction reached with
  | start sink =>
    intro name f hf
    cases hf
  | done op fuel reached hrun ih => exact ownNames_run reached.atRest ih (.inl ⟨_, hrun⟩)
  | fault op fuel reached hrun ih => exact ownNames_run reached.atRest ih (.inr ⟨_, hrun⟩)

/-! ## Initializers -/

def calling (Allowed : Function → Prop) [DecidablePred Allowed] (alarm : Outcome Machine Value) (fuel : Nat) :
    Evaluator := fun functions _ => evalGuarded (fun f _ => Allowed f) alarm functions fuel

/-- The function was there before the program, or the definitions so far have added it. -/
def Registered (session : Session) (before : Program) (f : Function) : Prop :=
  session.functions.find? f.name = some f ∨ f ∈ before.functions

instance Registered.decidable (session : Session) (before : Program) : DecidablePred (session.Registered before) :=
  fun _ => inferInstanceAs (Decidable (_ ∨ _))

/-- What is found after some definitions is registered. -/
theorem registered_of_find? {session mid : Session} (hown : session.functions.OwnNames) {fuel : Nat} {before : Program}
    (hbefore : before.forM (define fuel) session = .done () mid) {name : String} {f : Function}
    (hf : mid.functions.find? name = some f) : session.Registered before f ∧ f.name = name := by
  obtain ⟨hfresh, htable⟩ := forM_define_table hbefore
  rw [htable] at hf
  rcases (Functions.find?_extend hfresh).mp hf with hold | ⟨hnew, hname⟩
  · have hname := hown name f hold
    exact ⟨.inl (by rw [hname]; exact hold), hname⟩
  · exact ⟨.inr hnew, hname⟩

/-- The value of a global variable is evaluated without a call of a function that is not registered. -/
theorem define_calling {session mid : Session} (hown : session.functions.OwnNames) {fuel : Nat} {before : Program}
    (hbefore : before.forM (define fuel) session = .done () mid) (alarm : Outcome Machine Value) (x : String)
    (e : Expr) :
    defineBy (calling (session.Registered before) alarm fuel) (.global x e) mid = define fuel (.global x e) mid := by
  have heval : evalGuarded (fun f _ => session.Registered before f) alarm mid.functions fuel =
      eval mid.functions fuel := by
    funext frame e
    refine evalGuarded_eq _ _ _ (fun name f hf _ _ => ?_) fuel frame e
    exact (registered_of_find? hown hbefore hf).1
  obtain ⟨functions, m⟩ := mid
  simp only [defineBy, define, calling, evaluating] at heval ⊢
  rw [heval]

/-- A call of a function that is not there fails before anything else is done. -/
theorem eval_call_unknown {functions : Functions} {name : String} (h : functions.find? name = none) (fuel frame : Nat)
    (m : Machine) :
    (∀ arguments, eval functions (fuel + 1) frame (.call name arguments) m = .fault (.undefinedFunction name) m) ∧
      ∀ arguments,
        eval functions (fuel + 1) frame (.labelledCall name arguments) m = .fault (.undefinedFunction name) m := by
  have hget : functions.get name = .error (.undefinedFunction name) := by
    unfold Functions.get
    rw [h]
  constructor <;>
  · intro arguments
    rw [eval_succ, evalNode, hget]
    rfl

/-! ## The table of a session -/

/-- Each function of a session is found under its own name. Evaluations leave the functions as they
    are, and so do all operations but `reset` with those that are there. A program adds the functions
    of its first definitions, which are new and have different names, up to a global variable whose
    value fails or a function whose name is taken. The value of a global variable is evaluated
    without a call of a function that comes later. -/
theorem Reached.table_discipline {session : Session} (reached : session.Reached) :
    (∀ name f, session.functions.find? name = some f → f.name = name) ∧
    (∀ fuel (s s' : Session),
      (∀ e, (runExpr fuel e s).EndsIn s' → s'.functions = s.functions) ∧
      (∀ lines, (runLines fuel lines s).EndsIn s' → s'.functions = s.functions) ∧
      (∀ x e, (define fuel (.global x e) s).EndsIn s' → s'.functions = s.functions) ∧
      ((callMain fuel s).EndsIn s' → s'.functions = s.functions)) ∧
    (∀ later, session.Onward later → ∀ name f, session.functions.find? name = some f →
      later.functions.find? name = some f) ∧
    (∀ fuel p, ∃ first rest mid, session.Progress fuel p first rest mid) ∧
    ∀ fuel before mid, before.forM (define fuel) session = .done () mid →
      (∀ x e alarm, defineBy (calling (session.Registered before) alarm fuel) (.global x e) mid =
        define fuel (.global x e) mid) ∧
      ∀ name, (∀ f, session.Registered before f → f.name ≠ name) → ∀ less frame m,
        (∀ arguments, eval mid.functions (less + 1) frame (.call name arguments) m =
          .fault (.undefinedFunction name) m) ∧
        ∀ arguments, eval mid.functions (less + 1) frame (.labelledCall name arguments) m =
          .fault (.undefinedFunction name) m := by
  refine ⟨reached.ownNames, fun fuel s s' => ⟨?_, ?_, ?_, ?_⟩, ?_, reached.atRest.progress, ?_⟩
  · exact fun e => runExpr_sameTable fuel e s s'
  · exact fun lines => runLines_sameTable fuel lines s s'
  · exact fun x e => define_global_sameTable fuel x e s s'
  · exact callMain_sameTable fuel s s'
  · intro later honward name f hf
    exact (honward.extends reached.atRest).2.find? hf
  · intro fuel before mid hbefore
    refine ⟨fun x e alarm => define_calling reached.ownNames hbefore alarm x e, fun name hname less frame m => ?_⟩
    refine eval_call_unknown ?_ less frame m
    cases hf : mid.functions.find? name with
    | none => rfl
    | some f =>
      obtain ⟨hregistered, hown⟩ := registered_of_find? reached.ownNames hbefore hf
      exact absurd hown (hname f hregistered)

def echo : Function := ⟨"echo", ["n"], .var "n"⟩

def stopping : Program :=
  [.function echo, .global "g" (.call "echo" [.int 1]), .global "h" (.binary .divide (.int 1) (.int 0)),
    .function ⟨"main", [], .var "g"⟩]

def resuming : Program :=
  [.function ⟨"main", [], .var "k"⟩, .global "k" (.call "echo" [.int 2]), .function echo]

theorem table_discipline_after_stopping : ∃ session mid session' : Session,
    runProgram 10 stopping (.start .unlimited) = .fault .divisionByZero session ∧
      session.functions.entries = [("echo", echo)] ∧
        (resuming.take 1).forM (define 10) session = .done () mid ∧
          (∀ alarm, defineBy (calling (session.Registered (resuming.take 1)) alarm 10)
            (.global "k" (.call "echo" [.int 2])) mid = .done () session') ∧
            runProgram 10 resuming session = .fault (.duplicateFunction "echo") session' ∧
              ∃ first rest mid, session.Progress 10 resuming first rest mid := by
  have hreached : Reached _ := .fault (.program stopping) 10 (.start .unlimited) rfl
  refine ⟨_, _, _, rfl, rfl, rfl, fun alarm => ?_, rfl, ?_⟩
  · exact (hreached.table_discipline.2.2.2.2 10 (resuming.take 1) _ rfl).1 "k" (.call "echo" [.int 2]) alarm
  · exact hreached.table_discipline.2.2.2.1 10 resuming

end Session

end Scriptling
