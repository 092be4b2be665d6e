/-
  Scriptling.Proofs.Ideal.Refinement — evaluation is ideal up to the first limit.

  Soundness and completeness together (`eval_refines_ideal`): on a stack of frames and a sink
  without a limit, an evaluation that ends with neither an overflow nor too many calls ends the
  way the ideal one does; an ideal evaluation that stays within the limits is what the machine
  does; and the machine stops with an overflow, or with too many calls, exactly where the ideal
  evaluation exceeds its first limit.
-/

import Scriptling.Proofs.Ideal.Complete

namespace Scriptling

namespace Ideal

/-! ## The ideal evaluation has no limits -/

theorem ideal_ne_fault (op : Operator) (a b : Value) (event : Event) : op.ideal a b ≠ .error event.fault := by
  intro h
  unfold Operator.ideal at h
  split at h
  · cases op <;> try cases h
    simp only at h
    split at h <;> cases event <;> cases h
  · cases event <;> cases h
  · cases event <;> cases h

theorem Misses.ne_fault {functions : Functions} {e : Expr} {fault : Fault} (h : Misses functions e fault)
    (event : Event) : fault ≠ event.fault := by
  cases h <;> cases event <;> simp [Event.fault]

/-- No fault of the ideal evaluation is that of a limit. -/
theorem Runs.ne_fault {functions : Functions} {w w' : World} {e : Expr} {t : List Event} {r : Ending Value}
    (h : Runs functions w e t r w') (event : Event) : r ≠ .stop (.fault event.fault) := by
  induction h with
  | int _ | bool _ | arrayNil | arrayCons | var _ | assign | blockNil | blockLast | thenFalse | whileFalse
  | println | begin | pause => simp
  | undefined _ | notBool => cases event <;> simp [Event.fault]
  | arrayStop _ _ _ ih | binaryStop _ _ _ ih | blockCons _ _ _ ih | thenTrue _ _ _ ih | elseTrue _ _ _ ih
  | elseFalse _ _ _ ih | whileTrue _ _ _ _ _ ih | whileStop _ _ _ ih | call _ _ _ _ ih | first _ _ ih => exact ih
  | @binary w w₁ w₂ op l r t u a b =>
    cases hideal : op.ideal a b with
    | ok v => simp [Ending.ofExcept]
    | error fault =>
      have hne := ideal_ne_fault op a b event
      rw [hideal] at hne
      simpa [Ending.ofExcept] using hne
  | misses h => simpa using h.ne_fault event

/-! ## Endings and limits -/

variable {functions : Functions} {e : Expr} {k : Nat} {m m' : Machine} {t : List Event} {w : World}

theorem firstExcess_eq_none (hresults : ∀ op n, .result op n ∈ t → isWord n)
    (hcalls : ∀ active, .call active ∈ t → active < maxCalls) : firstExcess t = none := by
  refine List.find?_eq_none.mpr fun event hevent => ?_
  cases event with
  | result op n => simp [Event.exceeds, hresults op n hevent]
  | call active => simp [Event.exceeds, hcalls active hevent]

theorem Runs.eval_done {v : Value} (h : Runs functions (m.world k) e t (.value v) w) (hm : m.Ready k)
    (ht : firstExcess t = none) : ∃ fuel m', eval functions fuel k e m = .done v m' ∧ m'.Ready k ∧ m'.world k = w := by
  cases h.meets hm rfl with
  | done _ hm' hsettles =>
    obtain ⟨enough, heval⟩ := hsettles
    exact ⟨enough, _, heval enough (Nat.le_refl _), hm', rfl⟩
  | excess hexcess => rw [ht] at hexcess; cases hexcess

theorem Runs.eval_fault {fault : Fault} (h : Runs functions (m.world k) e t (.stop (.fault fault)) w) (hm : m.Ready k)
    (ht : firstExcess t = none) :
    ∃ fuel m', eval functions fuel k e m = .fault fault m' ∧ m'.Ready k ∧ m'.world k = w := by
  cases h.meets hm rfl with
  | fault _ hm' hsettles =>
    obtain ⟨enough, heval⟩ := hsettles
    exact ⟨enough, _, heval enough (Nat.le_refl _), hm', rfl⟩
  | excess hexcess => rw [ht] at hexcess; cases hexcess

/-- The machine stops with the fault of a limit exactly where the ideal evaluation exceeds its
    first one. -/
theorem eval_limit_iff (hm : m.Ready k) (event : Event) :
    (∃ fuel m', eval functions fuel k e m = .fault event.fault m') ↔
      ∃ t r w event', Runs functions (m.world k) e t r w ∧ firstExcess t = some event' ∧
        event'.fault = event.fault := by
  constructor
  · intro h
    obtain ⟨fuel, m', heval⟩ := h
    have htracks := eval_tracks functions fuel e hm
    rw [heval] at htracks
    generalize hfault : event.fault = fault at htracks
    cases htracks with
    | fault _ _ h => exact absurd (hfault ▸ rfl) (h.ne_fault event)
    | excess _ hexcess h => exact ⟨_, _, _, _, h, hexcess, rfl⟩
  · intro h
    obtain ⟨t, r, w, event', h, hexcess, hfault⟩ := h
    cases h.meets hm rfl with
    | excess hexcess' _ hsettles =>
      cases hexcess.symm.trans hexcess'
      obtain ⟨enough, heval⟩ := hsettles
      exact ⟨enough, _, hfault ▸ heval enough (Nat.le_refl _)⟩
    | done hnone | fault hnone | pending hnone => rw [hnone] at hexcess; cases hexcess

end Ideal

open Scriptling.Ideal

/-- On a stack of frames and a sink without a limit, an evaluation follows the ideal one: the
    same value or fault, scopes and output, unless it ends with an overflow or with too many
    calls; and with enough fuel it comes to every ending of the ideal one on the way to which all
    results are 64-bit integers and no call is made while `maxCalls` are active. It ends with an
    overflow of an operator, or with too many calls, exactly if the first thing on the trace of
    the ideal one that is not so is a result of that operator, or a call. -/
theorem eval_refines_ideal (functions : Functions) (e : Expr) {k : Nat} {m : Machine}
    (stack : m.frames.IsStack) (top : k + 1 = m.frames.depth) (unlimited : m.sink.room = none) :
    (∀ fuel v m', eval functions fuel k e m = .done v m' →
      m'.Ready k ∧ ∃ t, Runs functions (m.world k) e t (.value v) (m'.world k)) ∧
    (∀ fuel fault m', eval functions fuel k e m = .fault fault m' →
      (∀ op, fault ≠ .overflow op) → fault ≠ .tooManyCalls →
      m'.Ready k ∧ ∃ t, Runs functions (m.world k) e t (.stop (.fault fault)) (m'.world k)) ∧
    (∀ t v w, Runs functions (m.world k) e t (.value v) w →
      (∀ op n, .result op n ∈ t → isWord n) → (∀ active, .call active ∈ t → active < maxCalls) →
      ∃ fuel m', eval functions fuel k e m = .done v m' ∧ m'.Ready k ∧ m'.world k = w) ∧
    (∀ t fault w, Runs functions (m.world k) e t (.stop (.fault fault)) w →
      (∀ op n, .result op n ∈ t → isWord n) → (∀ active, .call active ∈ t → active < maxCalls) →
      ∃ fuel m', eval functions fuel k e m = .fault fault m' ∧ m'.Ready k ∧ m'.world k = w) ∧
    (∀ op, (∃ fuel m', eval functions fuel k e m = .fault (.overflow op) m') ↔
      ∃ t r w n, Runs functions (m.world k) e t r w ∧ firstExcess t = some (.result op n)) ∧
    ((∃ fuel m', eval functions fuel k e m = .fault .tooManyCalls m') ↔
      ∃ t r w active, Runs functions (m.world k) e t r w ∧ firstExcess t = some (.call active)) := by
  have hm : m.Ready k := ⟨⟨stack, top⟩, unlimited⟩
  refine ⟨fun fuel v m' heval => ?_, fun fuel fault m' heval hoverflow hcalls => ?_, fun t v w h hresults hcalls => ?_,
    fun t fault w h hresults hcalls => ?_, fun op => ?_, ?_⟩
  · have htracks := eval_tracks functions fuel e hm
    rw [heval] at htracks
    cases htracks with
    | done hm' _ h => exact ⟨hm', _, h⟩
  · have htracks := eval_tracks functions fuel e hm
    rw [heval] at htracks
    cases htracks with
    | fault hm' _ h => exact ⟨hm', _, h⟩
    | @excess event =>
      cases event with
      | result op n => exact absurd rfl (hoverflow op)
      | call active => exact absurd rfl hcalls
  · exact h.eval_done hm (firstExcess_eq_none hresults hcalls)
  · exact h.eval_fault hm (firstExcess_eq_none hresults hcalls)
  · rw [show Fault.overflow op = Event.fault (.result op 0) from rfl, eval_limit_iff hm]
    constructor
    · intro h
      obtain ⟨t, r, w, event, h, hexcess, hfault⟩ := h
      cases event <;> cases hfault
      exact ⟨t, r, w, _, h, hexcess⟩
    · intro h
      obtain ⟨t, r, w, n, h, hexcess⟩ := h
      exact ⟨t, r, w, .result op n, h, hexcess, rfl⟩
  · rw [show Fault.tooManyCalls = Event.fault (.call 0) from rfl, eval_limit_iff hm]
    constructor
    · intro h
      obtain ⟨t, r, w, event, h, hexcess, hfault⟩ := h
      cases event <;> cases hfault
      exact ⟨t, r, w, _, h, hexcess⟩
    · intro h
      obtain ⟨t, r, w, active, h, hexcess⟩ := h
      exact ⟨t, r, w, .call active, h, hexcess, rfl⟩

/-- `sum` prints its argument, and adds it to the sum of the smaller numbers. -/
def Ideal.summing : Functions :=
  (Bindings.empty.insert "sum" ⟨"sum", ["n"],
    .ifElse (.binary .less (.var "n") (.int 1)) (.int 0)
      (.binary .add (.println (.var "n")) (.call "sum" [.binary .subtract (.var "n") (.int 1)]))⟩).insert
    "minus" ⟨"minus", ["a", "b"], .binary .subtract (.var "a") (.var "b")⟩

/-- The sum of two numbers, a product that is too large, a labelled call that evaluates its arguments in
    the order of the parameters, and one that fails before it evaluates any. -/
theorem eval_refines_ideal_summing :
    ({} : Machine).frames.IsStack ∧ 0 + 1 = ({} : Machine).frames.depth ∧ ({} : Machine).sink.room = none ∧
      (∃ t w, Runs summing (({} : Machine).world 0) (.call "sum" [.int 2]) t (.value (.int 3)) w ∧
        w.printed = "2\n1\n") ∧
      (∃ t r w n, Runs summing (({} : Machine).world 0) (.binary .multiply (.int 4294967296) (.int 4294967296)) t r w ∧
        firstExcess t = some (.result .multiply n)) ∧
      (∃ t w, Runs summing (({} : Machine).world 0)
          (.labelledCall "minus" [("b", .println (.int 1)), ("a", .println (.int 7))]) t (.value (.int 6)) w ∧
        w.printed = "7\n1\n") ∧
      ∃ t w, Runs summing (({} : Machine).world 0) (.labelledCall "minus" [("b", .println (.int 1))]) t
          (.stop (.fault (.labels "minus" (.missing "a")))) w ∧
        w.printed = "" := by
  have hstack : ({} : Machine).frames.IsStack := by decide
  refine ⟨hstack, rfl, rfl, ?_, ?_, ?_, ?_⟩
  · have hsum := (eval_refines_ideal summing (.call "sum" [.int 2]) hstack (k := 0) rfl rfl).1 20 _ _ rfl
    obtain ⟨-, t, h⟩ := hsum
    exact ⟨t, _, h, by decide⟩
  · have hproduct := eval_refines_ideal summing (.binary .multiply (.int 4294967296) (.int 4294967296)) hstack
      (k := 0) rfl rfl
    exact (hproduct.2.2.2.2.1 .multiply).mp ⟨2, _, rfl⟩
  · have hminus := (eval_refines_ideal summing (.labelledCall "minus" [("b", .println (.int 1)),
      ("a", .println (.int 7))]) hstack (k := 0) rfl rfl).1 20 _ _ rfl
    obtain ⟨-, t, h⟩ := hminus
    exact ⟨t, _, h, by decide⟩
  · have hmissing := (eval_refines_ideal summing (.labelledCall "minus" [("b", .println (.int 1))]) hstack
      (k := 0) rfl rfl).2.1 20 _ _ rfl (fun op h => by cases h) (fun h => by cases h)
    obtain ⟨-, t, h⟩ := hmissing
    exact ⟨t, _, h, by decide⟩

end Scriptling
