/-
  Scriptling.Frames — the scopes of a running program.

  Every active call has a frame with its own bindings, and a frame refers to the one its names
  are looked up in next, its parent. Frames are numbered from 0, the global frame, which has no
  parent and is always there. A frame that has been released leaves its number to the next one,
  so a number kept too long may come to stand for another frame, or for none.
  - Names are read and assigned along the chain of parents (`Frames.owner?`), and defined in one
    frame only.
  - Releasing a frame out of order and defining a name in a released frame are misuses.
-/

import Scriptling.Bindings
import Scriptling.Value

namespace Scriptling

structure Frame where
  bindings : Bindings Value := {}
  parent : Option Nat := none
  deriving Repr, Inhabited

structure Frames where
  slots : Array Frame
  deriving Repr

inductive Misuse where
  /-- A frame other than the last one was released. -/
  | releaseOutOfOrder
  /-- A name was defined in a frame that is not live. -/
  | defineInReleased
  deriving DecidableEq, Repr

def Misuse.message : Misuse → String
  | releaseOutOfOrder => "frames must be popped in stack order"
  | defineInReleased => "define into a released frame"

namespace Frames

def global : Nat := 0

def initial : Frames := ⟨#[{}]⟩

instance : Inhabited Frames := ⟨initial⟩

def depth (frames : Frames) : Nat := frames.slots.size

def bindings? (frames : Frames) (frame : Nat) : Option (Bindings Value) :=
  frames.slots[frame]?.map Frame.bindings

def parent? (frames : Frames) (frame : Nat) : Option Nat :=
  frames.slots[frame]?.bind Frame.parent

/-! ## Frames come and go -/

def nextId (frames : Frames) : Nat := frames.depth

def push (frames : Frames) (parent : Nat) : Frames := ⟨frames.slots.push { parent := some parent }⟩

/-- Releases a frame, which has to be the last one. The global frame stays. -/
@[inline] def pop (frames : Frames) (frame : Nat) : Except Misuse Frames :=
  if frame + 1 = frames.depth then
    if frame = global then .ok frames else .ok ⟨frames.slots.pop⟩
  else .error .releaseOutOfOrder

/-! ## Names -/

def get? (frames : Frames) (frame : Nat) (name : String) : Option Value :=
  (frames.bindings? frame).bind (·.find? name)

/-- The first frame that binds `name` among `frame` and the next of its parents, `n` frames in
    all. A frame that is not live ends the search. -/
def ownerWithin (frames : Frames) (name : String) : Nat → Nat → Option Nat
  | 0, _ => none
  | n + 1, frame =>
    match frames.slots[frame]? with
    | none => none
    | some { bindings, parent } =>
      if bindings.contains name then some frame
      else
        match parent with
        | none => none
        | some parent => ownerWithin frames name n parent

/-- The first frame that binds `name` among `frame` and its parents. There are only as many
    frames as `depth`, so a longer chain of parents would run in a circle and bind no more
    names. -/
def owner? (frames : Frames) (frame : Nat) (name : String) : Option Nat :=
  frames.ownerWithin name frames.depth frame

def read? (frames : Frames) (frame : Nat) (name : String) : Option Value :=
  (frames.owner? frame name).bind (frames.get? · name)

def bind (frames : Frames) (frame : Nat) (name : String) (value : Value) : Frames :=
  ⟨frames.slots.modify frame fun slot => { slot with bindings := slot.bindings.insert name value }⟩

@[inline] def define (frames : Frames) (frame : Nat) (name : String) (value : Value) :
    Except Misuse Frames :=
  if frame < frames.depth then .ok (frames.bind frame name value) else .error .defineInReleased

/-- Binds a name anew where it is bound, in `frame` or the nearest parent, or else in `frame`. -/
@[inline] def assign (frames : Frames) (frame : Nat) (name : String) (value : Value) :
    Except Misuse Frames :=
  frames.define ((frames.owner? frame name).getD frame) name value

/-! ## What the operations change -/

@[simp] theorem depth_initial : initial.depth = 1 := rfl

@[simp] theorem depth_push (frames : Frames) (parent : Nat) :
    (frames.push parent).depth = frames.depth + 1 := by
  simp [depth, push]

@[simp] theorem depth_bind (frames : Frames) (frame : Nat) (name : String) (value : Value) :
    (frames.bind frame name value).depth = frames.depth := by
  simp [depth, bind]

/-- Binding a name leaves every parent as it is. -/
@[simp] theorem parent?_bind (frames : Frames) (frame other : Nat) (name : String) (value : Value) :
    (frames.bind frame name value).parent? other = frames.parent? other := by
  simp only [parent?, bind, Array.getElem?_modify]
  by_cases h : frame = other
  · subst h
    cases frames.slots[frame]? <;> simp
  · simp [h]

/-- Binding a name in a live frame changes the value of that name there, and nothing else. -/
theorem get?_bind (frames : Frames) (frame other : Nat) (name x : String) (value : Value)
    (live : frame < frames.depth) :
    (frames.bind frame name value).get? other x =
      if other = frame ∧ x = name then some value else frames.get? other x := by
  simp only [get?, bindings?, bind, Array.getElem?_modify]
  by_cases h : frame = other
  · subst h
    have found : frames.slots[frame]? = some frames.slots[frame] := Array.getElem?_eq_getElem live
    simp [found, Bindings.find?_insert]
  · have h' : ¬ other = frame := fun e => h e.symm
    simp [h, h']

/-- Releasing a frame right after adding it restores the frames. -/
theorem pop_push (frames : Frames) (parent : Nat) (nonempty : 0 < frames.depth) :
    (frames.push parent).pop frames.nextId = .ok frames := by
  have hne : ¬ frames.slots.size = global := Nat.ne_of_gt nonempty
  simp [pop, nextId, push, depth, hne]

end Frames

end Scriptling
