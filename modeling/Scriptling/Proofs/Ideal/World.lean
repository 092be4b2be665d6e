/-
  Scriptling.Proofs.Ideal.World — scopes as a list, and the stack of frames as such a list.

  A `World` has the scopes of the active calls, the innermost first and the global one last, and
  what has been printed. A machine whose frames are a stack and whose sink has no limit stands for
  a world, and reading, assigning, printing, entering and leaving a call do to the machine what
  they do to its world.
-/

import Scriptling.Proofs.Eval.Invariant

namespace Scriptling

/-- The scopes, the innermost first, and what has been printed. -/
structure World where
  scopes : List (Bindings Value)
  printed : String

namespace World

def read (w : World) (x : String) : Option Value := w.scopes.findSome? (·.find? x)

/-- Gives a name a value in the innermost scope that has it, or else in the innermost scope. -/
def assign (w : World) (x : String) (v : Value) : World :=
  { w with scopes := w.scopes.modify ((w.scopes.findIdx? (·.contains x)).getD 0) (·.insert x v) }

def print (w : World) (text : String) : World := { w with printed := w.printed ++ (text ++ "\n") }

def enter (w : World) (entries : List (String × Value)) : World :=
  { w with scopes := entries.foldl (fun scope entry => scope.insert entry.1 entry.2) {} :: w.scopes }

def leave (w : World) : World := { w with scopes := w.scopes.tail }

/-- How many calls are active: one for each scope but the global one. -/
def active (w : World) : Nat := w.scopes.length - 1

end World

/-! ## The scopes of a stack -/

namespace Frames

def scopes (frames : Frames) : Nat → List (Bindings Value)
  | 0 => [frames.own 0]
  | k + 1 => frames.own (k + 1) :: frames.scopes k

theorem length_scopes (frames : Frames) (k : Nat) : (frames.scopes k).length = k + 1 := by
  induction k with
  | zero => rfl
  | succ k ih => simp [scopes, ih]

theorem scopes_congr {frames frames' : Frames} {k : Nat} (h : ∀ j ≤ k, frames'.own j = frames.own j) :
    frames'.scopes k = frames.scopes k := by
  induction k with
  | zero => rw [scopes, scopes, h 0 (Nat.le_refl 0)]
  | succ k ih => rw [scopes, scopes, h (k + 1) (Nat.le_refl _), ih fun j hj => h j (Nat.le_succ_of_le hj)]

/-- Binding a name in a frame changes the scope of that frame. -/
theorem scopes_bind {frames : Frames} {j k : Nat} (hlive : j < frames.depth) (hj : j ≤ k) (x : String) (v : Value) :
    (frames.bind j x v).scopes k = (frames.scopes k).modify (k - j) (·.insert x v) := by
  induction k with
  | zero =>
    obtain rfl : j = 0 := Nat.le_zero.mp hj
    simp [scopes, own_bind hlive]
  | succ k ih =>
    rw [scopes, own_bind hlive]
    rcases Nat.eq_or_lt_of_le hj with rfl | hlt
    · have hbelow : (frames.bind (k + 1) x v).scopes k = frames.scopes k :=
        scopes_congr fun i hi => by rw [own_bind hlive, if_neg (by omega)]
      simp [scopes, hbelow]
    · have hne : ¬ k + 1 = j := by omega
      have hsub : k + 1 - j = (k - j) + 1 := by omega
      rw [if_neg hne, ih (by omega), hsub]
      rfl

/-- The owner of a name is the innermost scope that has it. -/
theorem nearest_eq (frames : Frames) (x : String) (k : Nat) :
    frames.nearest x k = ((frames.scopes k).findIdx? (·.contains x)).map (k - ·) := by
  induction k with
  | zero =>
    simp only [nearest, scopes, binds_iff, List.findIdx?_cons, List.findIdx?_nil]
    split <;> simp
  | succ k ih =>
    simp only [nearest, scopes, binds_iff, List.findIdx?_cons]
    split
    · simp
    · rw [ih]
      cases (frames.scopes k).findIdx? (·.contains x) <;> simp

theorem read_eq (frames : Frames) (x : String) (k : Nat) :
    (frames.nearest x k).bind (frames.get? · x) = (frames.scopes k).findSome? (·.find? x) := by
  induction k with
  | zero =>
    simp only [nearest, scopes, binds_iff, Bindings.contains, List.findSome?_cons, List.findSome?_nil]
    cases hx : (frames.own 0).find? x <;> simp [get?_eq, hx]
  | succ k ih =>
    simp only [nearest, scopes, binds_iff, Bindings.contains, List.findSome?_cons, ← ih]
    cases hx : (frames.own (k + 1)).find? x <;> simp [get?_eq, hx]

theorem scopes_assigned {frames : Frames} {k : Nat} (hlive : k < frames.depth) (x : String) (v : Value) :
    (frames.assigned k x v).scopes k =
      (frames.scopes k).modify (((frames.scopes k).findIdx? (·.contains x)).getD 0) (·.insert x v) := by
  rw [assigned, nearest_eq]
  cases hidx : (frames.scopes k).findIdx? (·.contains x) with
  | none =>
    simp only [Option.map_none, Option.getD_none]
    rw [scopes_bind hlive (Nat.le_refl k), Nat.sub_self]
  | some i =>
    have hi : i ≤ k := by
      have := (List.findIdx?_eq_some_iff_findIdx_eq.mp hidx).1
      rw [length_scopes] at this
      omega
    have hback : k - (k - i) = i := by omega
    simp only [Option.map_some, Option.getD_some]
    rw [scopes_bind (by omega) (Nat.sub_le k i), hback]

end Frames

/-! ## The world of a machine -/

namespace Machine

def world (m : Machine) (frame : Nat) : World := ⟨m.frames.scopes frame, m.sink.text⟩

structure Ready (m : Machine) (frame : Nat) : Prop where
  onTop : m.frames.OnTop frame
  unlimited : m.sink.room = none

variable {m : Machine} {k : Nat}

theorem active_world (m : Machine) (k : Nat) : (m.world k).active = k := by
  simp [world, World.active, Frames.length_scopes]

namespace Ready

theorem read?_eq (h : m.Ready k) (x : String) : m.frames.read? k x = (m.world k).read x := by
  rw [Frames.read?, h.onTop.1.owner?_eq h.onTop.live, Frames.read_eq]
  rfl

theorem assign (h : m.Ready k) (x : String) (v : Value) :
    ∃ m', Eval.assign k x v m = .done () m' ∧ m'.Ready k ∧ m'.world k = (m.world k).assign x v := by
  refine ⟨{ m with frames := m.frames.assigned k x v }, ?_, ⟨h.onTop.assigned x v, h.unlimited⟩, ?_⟩
  · simp only [Eval.assign, Eval.changeFrames, h.onTop.1.assign_eq h.onTop.live]
  · simp only [world, World.assign, Frames.scopes_assigned h.onTop.live]

theorem printLine (h : m.Ready k) (text : String) :
    ∃ m', Eval.printLine text m = .done () m' ∧ m'.Ready k ∧ m'.world k = (m.world k).print text := by
  obtain ⟨frames, ⟨printed, room⟩⟩ := m
  obtain rfl : room = none := h.unlimited
  exact ⟨⟨frames, ⟨printed ++ (text ++ "\n"), none⟩⟩, rfl, ⟨h.onTop, rfl⟩, rfl⟩

theorem enter (h : m.Ready k) (entries : List (String × Value)) :
    ({ m with frames := m.frames.enter k entries } : Machine).Ready (k + 1) :=
  ⟨h.onTop.enter entries, h.unlimited⟩

theorem world_enter (h : m.Ready k) (entries : List (String × Value)) :
    ({ m with frames := m.frames.enter k entries } : Machine).world (k + 1) = (m.world k).enter entries := by
  have hbelow : (m.frames.enter k entries).scopes k = m.frames.scopes k := by
    refine Frames.scopes_congr fun j hj => ?_
    rw [Frames.own_enter, if_neg (Nat.ne_of_lt (Nat.lt_of_le_of_lt hj h.onTop.live))]
  simp only [world, World.enter, Frames.scopes, hbelow, Frames.own_enter, h.onTop.2, if_true]

/-- A call can be left however its body ends. -/
theorem leave (h : m.Ready (k + 1)) :
    ∃ m', (∀ v, (Outcome.done v m).leave (k + 1) = .done v m') ∧
      (∀ e, (Outcome.fault e m).leave (k + 1) = .fault e m') ∧
        m'.Ready k ∧ m'.world k = (m.world (k + 1)).leave := by
  obtain ⟨frames, hpop, htop, hown⟩ := h.onTop.pop
  refine ⟨{ m with frames }, fun v => ?_, fun e => ?_, ⟨htop, h.unlimited⟩, ?_⟩
  · simp only [Outcome.leave, hpop]
  · simp only [Outcome.leave, hpop]
  · simp only [world, World.leave, Frames.scopes, List.tail_cons, Frames.scopes_congr hown]

theorem invoke_eq (h : m.Ready k) {f : Function} {values : List Value} (hlength : values.length = f.params.length)
    (evalBody : Nat → Expr → Eval Value) :
    invoke evalBody f values k m =
      if maxCalls ≤ k then .fault .tooManyCalls m
      else (evalBody (k + 1) f.body { m with frames := m.frames.enter k (f.params.zip values) }).leave (k + 1) := by
  rw [Scriptling.invoke_eq, if_pos hlength, Frames.nextId, ← h.onTop.2]
  simp only [Nat.lt_succ_iff]

end Ready

end Machine

end Scriptling
