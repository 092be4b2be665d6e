/-
  Scriptling.Proofs.Ideal.Sound — every evaluation follows the ideal one.

  An evaluation `Tracks` some ideal behaviour if it ends the way this ends, having exceeded no
  limit; or stops with the fault for the first limit that this exceeds. Tracking goes through
  sequencing (`Tracks.bind`), so each construct is followed step by step, and `eval_tracks` is an
  induction on fuel.
-/

import Scriptling.Proofs.Ideal.Semantics

namespace Scriptling

open Run

/-- An operator stops with an overflow just where the result without bounds is no 64-bit integer. -/
theorem Operator.apply_eq (op : Operator) (a b : Value) :
    op.apply a b =
      match op.ideal a b with
      | .ok (.int n) => if isWord n then .ok (.int n) else .error (.overflow op)
      | x => x := by
  cases a <;> cases b <;> try rfl
  case int.int m n =>
    cases op <;> try rfl
    simp only [apply, onInts, ideal, checked]
    split <;> rfl

namespace Ideal

@[simp] theorem firstExcess_nil : firstExcess [] = none := rfl

theorem firstExcess_append (t u : List Event) : firstExcess (t ++ u) = (firstExcess t).or (firstExcess u) :=
  List.find?_append

theorem firstExcess_append_of_none {t : List Event} (ht : firstExcess t = none) (u : List Event) :
    firstExcess (t ++ u) = firstExcess u := by
  rw [firstExcess_append, ht, Option.none_or]

theorem firstExcess_call (active : Nat) (t : List Event) :
    firstExcess (.call active :: t) = if maxCalls ≤ active then some (.call active) else firstExcess t := by
  by_cases h : maxCalls ≤ active <;> simp [firstExcess, Event.exceeds, h]

/-- An operator comes to its ideal result, or to the fault for it if it exceeds a limit. -/
theorem apply_cases (op : Operator) (a b : Value) :
    (firstExcess (results op a b) = none ∧ op.apply a b = op.ideal a b) ∨
      ∃ event, firstExcess (results op a b) = some event ∧ op.apply a b = .error event.fault := by
  rw [op.apply_eq, results]
  match op.ideal a b with
  | .ok (.int n) =>
    by_cases hn : isWord n = true
    · exact .inl ⟨by simp [firstExcess, Event.exceeds, hn], by simp [hn]⟩
    · exact .inr ⟨.result op n, by simp [firstExcess, Event.exceeds, hn], by simp [hn, Event.fault]⟩
  | .ok (.bool _) | .ok (.array _) | .ok (.dictionary _) | .ok .unit | .error _ => exact .inl ⟨rfl, rfl⟩

def Ending.map {α β : Type} (f : α → β) : Ending α → Ending β
  | .value a => .value (f a)
  | .stop s => .stop s

/-! ## Tracking -/

abbrev Behaviour (α : Type) := List Event → Ending α → World → Prop

variable {α β : Type} {k : Nat} {D : Behaviour α}

/-- The outcome in frame `k` is one of the behaviour, up to the first limit that is exceeded. -/
inductive Tracks (k : Nat) (D : Behaviour α) : Outcome Machine α → Prop
  | done {a : α} {m : Machine} {t : List Event} : m.Ready k → firstExcess t = none →
      D t (.value a) (m.world k) → Tracks k D (.done a m)
  | fault {e : Fault} {m : Machine} {t : List Event} : m.Ready k → firstExcess t = none →
      D t (.stop (.fault e)) (m.world k) → Tracks k D (.fault e m)
  | excess {event : Event} {m : Machine} {t : List Event} {w : World} : m.Ready k →
      firstExcess t = some event → D t (.stop .pending) w → Tracks k D (.fault event.fault m)
  | unfinished : Tracks k D .unfinished

namespace Tracks

theorem imp {E : Behaviour α} {x : Outcome Machine α} (h : Tracks k D x) (hDE : ∀ t r w, D t r w → E t r w) :
    Tracks k E x := by
  cases h with
  | done hm ht h => exact .done hm ht (hDE _ _ _ h)
  | fault hm ht h => exact .fault hm ht (hDE _ _ _ h)
  | excess hm ht h => exact .excess hm ht (hDE _ _ _ h)
  | unfinished => exact .unfinished

/-- What comes after a trace within the limits. -/
theorem after {t : List Event} (ht : firstExcess t = none) {x : Outcome Machine α}
    (h : Tracks k (fun u r w => D (t ++ u) r w) x) : Tracks k D x := by
  cases h with
  | done hm hu h => exact .done hm (by rw [firstExcess_append_of_none ht, hu]) h
  | fault hm hu h => exact .fault hm (by rw [firstExcess_append_of_none ht, hu]) h
  | excess hm hu h => exact .excess hm (by rw [firstExcess_append_of_none ht, hu]) h
  | unfinished => exact .unfinished

/-- Two runs one after the other: the second one goes on from any value of the first one, and what
    stops the first one stops both. -/
theorem bind {run : Eval α} {f : α → Eval β} {m : Machine} {E : Behaviour β} (h : Tracks k D (run m))
    (hstop : ∀ t s w, D t (.stop s) w → E t (.stop s) w)
    (hnext : ∀ t a m', m'.Ready k → D t (.value a) (m'.world k) → Tracks k (fun u r w => E (t ++ u) r w) (f a m')) :
    Tracks k E ((run >>= f) m) := by
  rw [bind_apply]
  generalize run m = x at h
  cases h with
  | done hm ht h => exact after ht (hnext _ _ _ hm h)
  | fault hm ht h => exact .fault hm ht (hstop _ _ _ h)
  | excess hm ht h => exact .excess hm ht (hstop _ _ _ h)
  | unfinished => exact .unfinished

theorem pure {a : α} {m : Machine} (hm : m.Ready k) (h : D [] (.value a) (m.world k)) :
    Tracks k D ((pure a : Eval α) m) :=
  .done hm firstExcess_nil h

theorem raise {e : Fault} {m : Machine} (hm : m.Ready k) (h : D [] (.stop (.fault e)) (m.world k)) :
    Tracks k D ((Run.ofExcept (.error e) : Eval α) m) :=
  .fault hm firstExcess_nil h

/-- A call ends where its body ends, without the innermost scope. -/
theorem leave {D E : Behaviour Value} {x : Outcome Machine Value} (h : Tracks (k + 1) D x)
    (hDE : ∀ t r w, D t r w → E t r w.leave) : Tracks k E (x.leave (k + 1)) := by
  cases h with
  | @done a _ _ hm ht h =>
    obtain ⟨m', hdone, -, hm', hworld⟩ := hm.leave
    rw [hdone a]
    exact .done hm' ht (hworld ▸ hDE _ _ _ h)
  | @fault e _ _ hm ht h =>
    obtain ⟨m', -, hfault, hm', hworld⟩ := hm.leave
    rw [hfault e]
    exact .fault hm' ht (hworld ▸ hDE _ _ _ h)
  | @excess event _ _ _ hm ht h =>
    obtain ⟨m', -, hfault, hm', -⟩ := hm.leave
    rw [hfault event.fault]
    exact .excess hm' ht (hDE _ _ _ h)
  | unfinished => exact .unfinished

end Tracks

/-! ## Constructs -/

variable {functions : Functions} {eval : Expr → Eval Value} {evalBody : Nat → Expr → Eval Value}

/-- An operator comes to its result, or to an overflow if that is no 64-bit integer. -/
theorem apply_tracks {D : Behaviour Value} {op : Operator} {a b : Value} {m : Machine} (hm : m.Ready k)
    (h : D (results op a b) (.ofExcept (op.ideal a b)) (m.world k))
    (hpause : D (results op a b) (.stop .pending) (m.world k)) :
    Tracks k D (Run.ofExcept (op.apply a b) m) := by
  rcases apply_cases op a b with ⟨hwithin, happly⟩ | ⟨event, hexcess, happly⟩
  · rw [happly]
    generalize op.ideal a b = x at h
    cases x with
    | ok v => exact .done hm hwithin h
    | error e => exact .fault hm hwithin h
  · rw [happly]
    exact .excess hm hexcess hpause

/-- Items are evaluated from left to right. -/
theorem mapM_tracks (heval : ∀ e m, m.Ready k → Tracks k (Runs functions (m.world k) e) (eval e m))
    (es : List Expr) {m : Machine} (hm : m.Ready k) :
    Tracks k (fun t r w => Runs functions (m.world k) (.array es) t (r.map .array) w)
      ((es.mapM eval : Eval (List Value)) m) := by
  induction es generalizing m with
  | nil => exact .pure hm .arrayNil
  | cons e es ih =>
    rw [List.mapM_cons]
    refine (heval e m hm).bind (fun t s w h => .first (.array e es) h) fun t v m₁ hm₁ hv => ?_
    refine (ih hm₁).bind (fun u s w h => .arrayStop hv h) fun u vs m₂ hm₂ hvs => ?_
    exact .pure hm₂ (by rw [List.append_nil]; exact .arrayCons hv hvs)

/-- The value of a block is that of its last line. -/
theorem foldlM_tracks (heval : ∀ e m, m.Ready k → Tracks k (Runs functions (m.world k) e) (eval e m))
    (e : Expr) (es : List Expr) (v : Value) {m : Machine} (hm : m.Ready k) :
    Tracks k (Runs functions (m.world k) (.block (e :: es)))
      (((e :: es).foldlM (fun _ line => eval line) v : Eval Value) m) := by
  induction es generalizing e v m with
  | nil =>
    rw [List.foldlM_cons]
    refine (heval e m hm).bind (fun t s w h => .first (.block e []) h) fun t v m₁ hm₁ hv => ?_
    exact .pure hm₁ (by rw [List.append_nil]; exact .blockLast hv)
  | cons e' es ih =>
    rw [List.foldlM_cons]
    refine (heval e m hm).bind (fun t s w h => .first (.block e _) h) fun t v m₁ hm₁ hv => ?_
    exact (ih e' v hm₁).imp fun u r w h => .blockCons hv h

/-- A condition comes to a truth value, or the expression is over. -/
theorem evalTest_tracks {e c : Expr} {context : String} (htests : Tests e c context) {m : Machine}
    (hc : Tracks k (Runs functions (m.world k) c) (eval c m)) :
    Tracks k (fun t r w =>
        match r with
        | .value b => Runs functions (m.world k) c t (.value (.bool b)) w
        | .stop s => Runs functions (m.world k) e t (.stop s) w)
      (evalTest eval context c m) := by
  refine hc.bind (fun t s w h => .first (.test htests) h) fun t v m₁ hm₁ hv => ?_
  cases v with
  | bool b => exact .pure hm₁ (by simpa using hv)
  | int _ | array _ | dictionary _ | unit =>
    exact .raise hm₁ (by rw [List.append_nil]; exact .notBool htests hv (by simp [Value.kind]))

/-- A loop goes on as long as its condition holds. -/
theorem repeatWhile_tracks (heval : ∀ e m, m.Ready k → Tracks k (Runs functions (m.world k) e) (eval e m))
    (c b : Expr) (rounds : Nat) {m : Machine} (hm : m.Ready k) :
    Tracks k (fun t r w => Runs functions (m.world k) (.whileDo c b) t (r.map fun _ => .bool true) w)
      (Run.repeatWhile (evalTest eval "while condition" c) (eval b) rounds m) := by
  induction rounds generalizing m with
  | zero => exact .unfinished
  | succ rounds ih =>
    refine (evalTest_tracks (.whileDo c b) (heval c m hm)).bind (fun t s w h => h) fun t holds m₁ hm₁ ht => ?_
    cases holds with
    | false => exact .pure hm₁ (by rw [List.append_nil]; exact .whileFalse ht)
    | true =>
      refine (heval b m₁ hm₁).bind (fun u s w h => .whileStop ht h) fun u v m₂ hm₂ hu => ?_
      exact (ih hm₂).imp fun v r w h => .whileTrue ht hu h

/-- The values of some items are as many as these. -/
theorem Runs.length_eq {w w' : World} {es : List Expr} {t : List Event} {vs : List Value}
    (h : Runs functions w (.array es) t (.value (.array vs)) w') : vs.length = es.length := by
  induction es generalizing w t vs with
  | nil =>
    cases h with
    | arrayNil => rfl
    | call hcalls => cases hcalls
  | cons e es ih =>
    cases h with
    | arrayCons _ hvs => simp [ih hvs]
    | call hcalls => cases hcalls

/-- A call passes as many arguments as there are parameters. -/
theorem Calls.length_eq {e : Expr} {f : Function} {es : List Expr} (h : Calls functions e f es) :
    es.length = f.params.length := by
  cases h with
  | positional _ hlength => exact hlength
  | labelled _ _ hplaces => exact hplaces.1

/-- A call evaluates its arguments and invokes the function. -/
theorem Calls.evalNode_eq {e : Expr} {f : Function} {es : List Expr} (h : Calls functions e f es)
    (rounds frame : Nat) :
    evalNode functions rounds eval evalBody frame e =
      es.mapM eval >>= fun values => invoke evalBody f values frame := by
  cases h with
  | positional hf hlength =>
    simp only [evalNode, Functions.get, hf, ofExcept_ok_bind, Function.checkArity, hlength, if_true]
  | labelled hf htakes hplaces =>
    have harrange := Function.arrange_eq_ok_iff.mpr ⟨htakes, hplaces⟩
    simp only [evalNode, Functions.get, hf, ofExcept_ok_bind, harrange]
    rfl

theorem Misses.evalNode_eq {e : Expr} {fault : Fault} (h : Misses functions e fault) (rounds frame : Nat) :
    evalNode functions rounds eval evalBody frame e = Run.ofExcept (.error fault) := by
  cases h with
  | unknown hf | unknownLabelled hf => simp only [evalNode, Functions.get, hf, ofExcept_error_bind]
  | arity hf hlength =>
    simp only [evalNode, Functions.get, hf, ofExcept_ok_bind, Function.checkArity, hlength, if_false,
      ofExcept_error_bind]
  | labels hf hrefuses =>
    simp only [evalNode, Functions.get, hf, ofExcept_ok_bind, hrefuses.arrange]
    rfl

theorem misses_or_calls (functions : Functions) (name : String) (arguments : List Expr) :
    (∃ fault, Misses functions (.call name arguments) fault) ∨ ∃ f es, Calls functions (.call name arguments) f es := by
  cases hf : functions.find? name with
  | none => exact .inl ⟨_, .unknown hf⟩
  | some f =>
    by_cases hlength : arguments.length = f.params.length
    · exact .inr ⟨f, arguments, .positional hf hlength⟩
    · exact .inl ⟨_, .arity hf hlength⟩

theorem misses_or_calls_labelled (functions : Functions) (name : String) (arguments : List (String × Expr)) :
    (∃ fault, Misses functions (.labelledCall name arguments) fault) ∨
      ∃ f es, Calls functions (.labelledCall name arguments) f es := by
  cases hf : functions.find? name with
  | none => exact .inl ⟨_, .unknownLabelled hf⟩
  | some f =>
    rcases f.takes_or_refuses (arguments.map Prod.fst) with htakes | ⟨fault, hrefuses⟩
    · obtain ⟨es, hplaces⟩ := htakes.exists_places
      exact .inr ⟨f, es, .labelled hf htakes hplaces⟩
    · exact .inl ⟨_, .labels hf hrefuses⟩

/-- A call fits no function, or evaluates its arguments and then the body in a scope of its own. -/
theorem call_tracks (heval : ∀ e m, m.Ready k → Tracks k (Runs functions (m.world k) e) (eval e m))
    (hbody : ∀ e m, m.Ready (k + 1) → Tracks (k + 1) (Runs functions (m.world (k + 1)) e) (evalBody (k + 1) e m))
    {e : Expr} (h : (∃ fault, Misses functions e fault) ∨ ∃ f es, Calls functions e f es) (rounds : Nat)
    {m : Machine} (hm : m.Ready k) :
    Tracks k (Runs functions (m.world k) e) (evalNode functions rounds eval evalBody k e m) := by
  rcases h with ⟨fault, hmisses⟩ | ⟨f, es, hcalls⟩
  · rw [hmisses.evalNode_eq]
    exact .raise hm (.misses hmisses)
  · rw [hcalls.evalNode_eq]
    have hargs := mapM_tracks heval es hm
    refine hargs.bind (fun t s w h => .first (.arguments hcalls) h) fun t values m₁ hm₁ hvalues => ?_
    have hlength : values.length = f.params.length := hvalues.length_eq.trans hcalls.length_eq
    rw [hm₁.invoke_eq hlength]
    by_cases hfull : maxCalls ≤ k
    · -- One call too many: the trace ends with that call, whose body has not begun.
      have hexcess : firstExcess [.call (m₁.world k).active] = some (.call k) := by
        rw [m₁.active_world, firstExcess_call, if_pos hfull]
      rw [if_pos hfull]
      change Tracks k _ (.fault (Event.fault (.call k)) m₁)
      exact .excess hm₁ hexcess (Runs.call hcalls hvalues .begin)
    · have hwithin : firstExcess [.call (m₁.world k).active] = none := by
        rw [m₁.active_world, firstExcess_call, if_neg hfull, firstExcess_nil]
      rw [if_neg hfull]
      refine .after hwithin (.leave (hbody f.body _ (hm₁.enter (f.params.zip values))) fun u r w h => ?_)
      rw [hm₁.world_enter] at h
      exact Runs.call hcalls hvalues h

variable (functions)

/-- Every evaluation follows the ideal one as far as the limits allow. -/
theorem eval_tracks (fuel : Nat) {k : Nat} (e : Expr) {m : Machine} (hm : m.Ready k) :
    Tracks k (Runs functions (m.world k) e) (Scriptling.eval functions fuel k e m) := by
  induction fuel generalizing k e m with
  | zero => exact .unfinished
  | succ fuel ih =>
    have heval (e : Expr) (m : Machine) (hm : m.Ready k) := ih e hm
    rw [eval_succ]
    cases e with
    | int n => exact .pure hm (.int n)
    | bool b => exact .pure hm (.bool b)
    | array items =>
      refine (mapM_tracks heval items hm).bind (fun t s w h => h) fun t vs m₁ hm₁ hvs => ?_
      exact .pure hm₁ (by rw [List.append_nil]; exact hvs)
    | var x =>
      simp only [evalNode, Eval.read, hm.read?_eq]
      cases hx : (m.world k).read x with
      | some v => exact .done hm firstExcess_nil (.var hx)
      | none => exact .fault hm firstExcess_nil (.undefined hx)
    | binary op l r =>
      refine (heval l m hm).bind (fun t s w h => .first (.binary op l r) h) fun t a m₁ hm₁ ha => ?_
      refine (heval r m₁ hm₁).bind (fun u s w h => .binaryStop ha h) fun u b m₂ hm₂ hb => ?_
      -- A result that exceeds the limit is on the trace, but never a value of the machine.
      exact apply_tracks hm₂ (.binary ha hb) (.pause (.binary ha hb))
    | assign x c =>
      refine (heval c m hm).bind (fun t s w h => .first (.assign x c) h) fun t v m₁ hm₁ hv => ?_
      obtain ⟨m₂, hassign, hm₂, hworld⟩ := hm₁.assign x v
      rw [bind_apply, hassign]
      exact .pure hm₂ (by rw [List.append_nil, hworld]; exact .assign hv)
    | block lines =>
      cases lines with
      | nil => exact .pure hm .blockNil
      | cons line lines => exact foldlM_tracks heval line lines .unit hm
    | ifThen c b =>
      refine (evalTest_tracks (.ifThen c b) (heval c m hm)).bind (fun t s w h => h) fun t holds m₁ hm₁ ht => ?_
      cases holds with
      | false => exact .pure hm₁ (by rw [List.append_nil]; exact .thenFalse ht)
      | true => exact (heval b m₁ hm₁).imp fun u r w h => .thenTrue ht h
    | ifElse c b o =>
      refine (evalTest_tracks (.ifElse c b o) (heval c m hm)).bind (fun t s w h => h) fun t holds m₁ hm₁ ht => ?_
      cases holds with
      | false => exact (heval o m₁ hm₁).imp fun u r w h => .elseFalse ht h
      | true => exact (heval b m₁ hm₁).imp fun u r w h => .elseTrue ht h
    | whileDo c b =>
      refine (repeatWhile_tracks heval c b fuel hm).bind (fun t s w h => h) fun t _ m₁ hm₁ ht => ?_
      exact .pure hm₁ (by rw [List.append_nil]; exact ht)
    | call name arguments =>
      exact call_tracks heval (fun e m hm => ih e hm) (misses_or_calls functions name arguments) fuel hm
    | labelledCall name arguments =>
      exact call_tracks heval (fun e m hm => ih e hm) (misses_or_calls_labelled functions name arguments) fuel hm
    | println c =>
      refine (heval c m hm).bind (fun t s w h => .first (.println c) h) fun t v m₁ hm₁ hv => ?_
      obtain ⟨m₂, hprint, hm₂, hworld⟩ := hm₁.printLine v.render
      rw [bind_apply, hprint]
      exact .pure hm₂ (by rw [List.append_nil, hworld]; exact .println hv)

end Ideal

end Scriptling
