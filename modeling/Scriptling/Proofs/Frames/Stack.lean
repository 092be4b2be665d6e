/-
  Scriptling.Proofs.Frames.Stack — frames that form a stack.

  In a stack every frame but the global one has the frame before it as its parent. Binding names
  keeps a stack, a frame pushed onto the last one makes a stack again, and so does releasing the
  last one.
-/

import Scriptling.Frames

namespace Scriptling.Frames

def below : Nat → Option Nat
  | 0 => none
  | k + 1 => some k

/-- Each frame has the one below it as its parent, and there is a global frame. -/
def IsStack (frames : Frames) : Prop :=
  0 < frames.depth ∧ ∀ k < frames.depth, frames.parent? k = below k

instance (frames : Frames) : Decidable frames.IsStack := inferInstanceAs (Decidable (_ ∧ _))

/-! ## Binding -/

def own (frames : Frames) (frame : Nat) : Bindings Value := (frames.bindings? frame).getD {}

def Binds (frames : Frames) (frame : Nat) (x : String) : Prop := (frames.get? frame x).isSome

instance (frames : Frames) (frame : Nat) (x : String) : Decidable (frames.Binds frame x) :=
  inferInstanceAs (Decidable (_ = _))

theorem get?_eq (frames : Frames) (k : Nat) (x : String) : frames.get? k x = (frames.own k).find? x := by
  unfold get? own
  cases frames.bindings? k <;> rfl

theorem binds_iff (frames : Frames) (k : Nat) (x : String) :
    frames.Binds k x ↔ (frames.own k).contains x = true := by
  rw [Binds, get?_eq, Bindings.contains]

theorem binds_congr {frames frames' : Frames} {k : Nat} (h : frames'.own k = frames.own k) (x : String) :
    frames'.Binds k x ↔ frames.Binds k x := by
  rw [binds_iff, h, binds_iff]

/-- Only a live frame binds a name. -/
theorem live_of_binds {frames : Frames} {k : Nat} {x : String} (h : frames.Binds k x) : k < frames.depth := by
  by_cases hlive : k < frames.slots.size
  · exact hlive
  · unfold Binds get? bindings? at h
    rw [Array.getElem?_eq_none (by omega)] at h
    cases h

theorem own_bind {frames : Frames} {frame : Nat} (hlive : frame < frames.depth) (x : String) (v : Value) (k : Nat) :
    (frames.bind frame x v).own k = if k = frame then (frames.own k).insert x v else frames.own k := by
  have hslot : frames.slots[frame]? = some frames.slots[frame] := Array.getElem?_eq_getElem hlive
  simp only [own, bindings?, bind, Array.getElem?_modify]
  by_cases hk : k = frame
  · subst hk
    simp [hslot]
  · simp [hk, Ne.symm hk]

theorem binds_bind {frames : Frames} {frame : Nat} (hlive : frame < frames.depth) (x y : String) (v : Value)
    (k : Nat) : (frames.bind frame x v).Binds k y ↔ (k = frame ∧ y = x) ∨ frames.Binds k y := by
  unfold Binds
  rw [get?_bind _ _ _ _ _ _ hlive]
  split
  · rename_i h
    simp [h]
  · rename_i h
    simp [h]

theorem IsStack.bind {frames : Frames} (h : frames.IsStack) (frame : Nat) (x : String) (v : Value) :
    (frames.bind frame x v).IsStack := by
  refine ⟨by simpa using h.1, fun k hk => ?_⟩
  rw [parent?_bind]
  exact h.2 k (by simpa using hk)

/-! ## Owners -/

/-- The last frame up to `k` that binds `x`. -/
def nearest (frames : Frames) (x : String) : Nat → Option Nat
  | 0 => if frames.Binds 0 x then some 0 else none
  | k + 1 => if frames.Binds (k + 1) x then some (k + 1) else nearest frames x k

theorem nearest_eq_some {frames : Frames} {x : String} {k owner : Nat} (h : frames.nearest x k = some owner) :
    owner ≤ k ∧ frames.Binds owner x := by
  induction k with
  | zero =>
    unfold nearest at h
    split at h <;> cases h
    exact ⟨Nat.le_refl 0, ‹_›⟩
  | succ k ih =>
    unfold nearest at h
    split at h
    · cases h
      exact ⟨Nat.le_refl _, ‹_›⟩
    · exact ⟨Nat.le_succ_of_le (ih h).1, (ih h).2⟩

theorem nearest_isSome_iff (frames : Frames) (x : String) (k : Nat) :
    (frames.nearest x k).isSome ↔ ∃ j ≤ k, frames.Binds j x := by
  constructor
  · intro h
    obtain ⟨owner, howner⟩ := Option.isSome_iff_exists.mp h
    exact ⟨owner, nearest_eq_some howner⟩
  · intro h
    obtain ⟨j, hj, hbinds⟩ := h
    induction k with
    | zero =>
      obtain rfl : j = 0 := Nat.le_zero.mp hj
      simp [nearest, hbinds]
    | succ k ih =>
      unfold nearest
      split
      · rfl
      · rename_i hk
        have hne : j ≠ k + 1 := fun he => hk (he ▸ hbinds)
        exact ih (by omega)

theorem IsStack.ownerWithin_eq {frames : Frames} (h : frames.IsStack) (x : String) {k n : Nat}
    (hk : k < frames.depth) (hn : k < n) : frames.ownerWithin x n k = frames.nearest x k := by
  induction n generalizing k with
  | zero => omega
  | succ n ih =>
    have hslot : frames.slots[k]? = some frames.slots[k] := Array.getElem?_eq_getElem hk
    have hparent : frames.slots[k].parent = below k := by
      have := h.2 k hk
      rwa [parent?, hslot] at this
    have hbinds : frames.slots[k].bindings.contains x = true ↔ frames.Binds k x := by
      simp [Binds, get?, bindings?, hslot, Bindings.contains]
    simp only [ownerWithin, hslot, hparent, hbinds]
    cases k with
    | zero => rfl
    | succ k => simp only [below, nearest, ih (Nat.lt_of_succ_lt hk) (Nat.lt_of_succ_lt_succ hn)]

/-- In a stack the owner of a name is the last frame that binds it. -/
theorem IsStack.owner?_eq {frames : Frames} (h : frames.IsStack) {frame : Nat} (hlive : frame < frames.depth)
    (x : String) : frames.owner? frame x = frames.nearest x frame :=
  h.ownerWithin_eq x hlive hlive

/-- In a stack a name can be read if the frame or one below it binds the name. -/
theorem IsStack.read?_isSome_iff {frames : Frames} (h : frames.IsStack) {frame : Nat}
    (hlive : frame < frames.depth) (x : String) :
    (frames.read? frame x).isSome ↔ ∃ j ≤ frame, frames.Binds j x := by
  rw [← nearest_isSome_iff, read?, h.owner?_eq hlive]
  cases hn : frames.nearest x frame with
  | none => simp
  | some owner => simpa [Binds] using (nearest_eq_some hn).2

def assigned (frames : Frames) (frame : Nat) (x : String) (v : Value) : Frames :=
  frames.bind ((frames.nearest x frame).getD frame) x v

@[simp] theorem depth_assigned (frames : Frames) (frame : Nat) (x : String) (v : Value) :
    (frames.assigned frame x v).depth = frames.depth :=
  depth_bind ..

theorem owner_live {frames : Frames} {frame : Nat} (hlive : frame < frames.depth) (x : String) :
    (frames.nearest x frame).getD frame < frames.depth := by
  cases hn : frames.nearest x frame with
  | none => exact hlive
  | some owner => exact Nat.lt_of_le_of_lt (nearest_eq_some hn).1 hlive

/-- In a stack a name is assigned where it is owned, or else in the frame itself. -/
theorem IsStack.assign_eq {frames : Frames} (h : frames.IsStack) {frame : Nat} (hlive : frame < frames.depth)
    (x : String) (v : Value) : frames.assign frame x v = .ok (frames.assigned frame x v) := by
  rw [assign, h.owner?_eq hlive, define, if_pos (owner_live hlive x), assigned]

theorem IsStack.assigned {frames : Frames} (h : frames.IsStack) (frame : Nat) (x : String) (v : Value) :
    (frames.assigned frame x v).IsStack :=
  h.bind _ x v

/-- Assigning binds no new name but the one assigned, and that in the frame itself. -/
theorem binds_assigned {frames : Frames} {frame : Nat} (hlive : frame < frames.depth) {x y : String} {v : Value}
    {k : Nat} (h : (frames.assigned frame x v).Binds k y) : frames.Binds k y ∨ (k = frame ∧ y = x) := by
  rcases (binds_bind (owner_live hlive x) x y v k).mp h with ⟨rfl, rfl⟩ | h
  · cases hn : frames.nearest y frame with
    | none => exact .inr ⟨rfl, rfl⟩
    | some owner => exact .inl (nearest_eq_some hn).2
  · exact .inl h

/-- Assigning removes no name. -/
theorem Binds.assigned {frames : Frames} {frame k : Nat} {y : String} (h : frames.Binds k y)
    (hlive : frame < frames.depth) (x : String) (v : Value) : (frames.assigned frame x v).Binds k y :=
  (binds_bind (owner_live hlive x) x y v k).mpr (.inr h)

/-! ## Pushing and popping -/

def enter (frames : Frames) (caller : Nat) (entries : List (String × Value)) : Frames :=
  entries.foldl (fun opened entry => opened.bind frames.nextId entry.1 entry.2) (frames.push caller)

theorem parent?_push (frames : Frames) (caller k : Nat) :
    (frames.push caller).parent? k = if k = frames.depth then some caller else frames.parent? k := by
  simp only [parent?, push, Array.getElem?_push, depth]
  by_cases h : k = frames.slots.size <;> simp [h]

theorem own_push (frames : Frames) (caller k : Nat) :
    (frames.push caller).own k = if k = frames.depth then {} else frames.own k := by
  simp only [own, bindings?, push, Array.getElem?_push, depth]
  by_cases h : k = frames.slots.size <;> simp [h]

theorem IsStack.push {frames : Frames} (h : frames.IsStack) {caller : Nat} (htop : caller + 1 = frames.depth) :
    (frames.push caller).IsStack := by
  refine ⟨by simp, fun k hk => ?_⟩
  rw [parent?_push]
  split
  · rename_i heq
    rw [heq, ← htop]
    rfl
  · exact h.2 k (by simp only [depth_push] at hk; omega)

/-- Everything that holds of a new frame and is kept by binding a name in it holds when the
    call has been entered. -/
theorem enter_induct {P : Frames → Prop} {frames : Frames} {caller : Nat} (hpush : P (frames.push caller))
    (hbind : ∀ opened x v, P opened → P (opened.bind frames.nextId x v)) (entries : List (String × Value)) :
    P (frames.enter caller entries) := by
  unfold enter
  generalize frames.push caller = opened at hpush
  induction entries generalizing opened with
  | nil => exact hpush
  | cons entry entries ih => exact ih _ (hbind opened _ _ hpush)

@[simp] theorem depth_enter (frames : Frames) (caller : Nat) (entries : List (String × Value)) :
    (frames.enter caller entries).depth = frames.depth + 1 :=
  enter_induct (P := fun opened => opened.depth = frames.depth + 1) (depth_push frames caller)
    (fun _ _ _ h => by simpa using h) entries

theorem IsStack.enter {frames : Frames} (h : frames.IsStack) {caller : Nat} (htop : caller + 1 = frames.depth)
    (entries : List (String × Value)) : (frames.enter caller entries).IsStack :=
  enter_induct (h.push htop) (fun _ x v h => h.bind _ x v) entries

theorem own_foldl_bind {opened : Frames} {frame : Nat} (hlive : frame < opened.depth)
    (entries : List (String × Value)) (k : Nat) :
    (entries.foldl (fun opened entry => opened.bind frame entry.1 entry.2) opened).own k =
      if k = frame then entries.foldl (fun scope entry => scope.insert entry.1 entry.2) (opened.own k)
      else opened.own k := by
  induction entries generalizing opened with
  | nil => simp
  | cons entry entries ih =>
    rw [List.foldl_cons, List.foldl_cons, ih (by simpa using hlive), own_bind hlive]
    split <;> rfl

/-- Entering a call binds the entries in a new frame and changes nothing in the frames that were
    there. -/
theorem own_enter (frames : Frames) (caller : Nat) (entries : List (String × Value)) (k : Nat) :
    (frames.enter caller entries).own k =
      if k = frames.depth then entries.foldl (fun scope entry => scope.insert entry.1 entry.2) {}
      else frames.own k := by
  rw [enter, own_foldl_bind (by simp [nextId]), own_push, nextId]
  split <;> rfl

theorem binds_enter {frames : Frames} {k : Nat} (hk : k < frames.depth) (caller : Nat)
    (entries : List (String × Value)) (x : String) :
    (frames.enter caller entries).Binds k x ↔ frames.Binds k x :=
  binds_congr (by rw [own_enter, if_neg (Nat.ne_of_lt hk)]) x

/-- The last frame can be released, and the others stay as they are. -/
theorem IsStack.pop {frames : Frames} (h : frames.IsStack) {frame : Nat} (htop : frame + 1 = frames.depth)
    (hpos : 0 < frame) :
    ∃ frames', frames.pop frame = .ok frames' ∧ frames'.IsStack ∧ frames'.depth = frame ∧
      ∀ k < frame, frames'.own k = frames.own k := by
  have hne : ¬ frame = global := Nat.ne_of_gt hpos
  have hsize : frames.slots.pop.size = frame := by
    rw [Array.size_pop]
    unfold depth at htop
    omega
  have hslot (k : Nat) (hk : k < frame) : frames.slots.pop[k]? = frames.slots[k]? := by
    rw [Array.getElem?_pop, if_pos (by unfold depth at htop; omega)]
  refine ⟨⟨frames.slots.pop⟩, by simp only [Frames.pop, htop, hne, if_true, if_false], ⟨?_, ?_⟩, hsize, ?_⟩
  · rwa [depth, hsize]
  · intro k hk
    rw [depth, hsize] at hk
    rw [parent?, hslot k hk]
    exact h.2 k (by omega)
  · intro k hk
    simp only [own, bindings?, hslot k hk]

/-! ## The last frame of a stack -/

def OnTop (frame : Nat) (frames : Frames) : Prop := frames.IsStack ∧ frame + 1 = frames.depth

instance (frame : Nat) (frames : Frames) : Decidable (frames.OnTop frame) := inferInstanceAs (Decidable (_ ∧ _))

namespace OnTop

variable {frame : Nat} {frames frames' : Frames}

theorem live (h : frames.OnTop frame) : frame < frames.depth := by
  rw [← h.2]
  exact Nat.lt_succ_self frame

theorem assigned (h : frames.OnTop frame) (x : String) (v : Value) : (frames.assigned frame x v).OnTop frame :=
  ⟨h.1.assigned frame x v, by simpa using h.2⟩

theorem read?_isSome_iff (h : frames.OnTop frame) {k : Nat} (hk : k ≤ frame) (x : String) :
    (frames.read? k x).isSome ↔ ∃ j ≤ k, frames.Binds j x :=
  h.1.read?_isSome_iff (Nat.lt_of_le_of_lt hk h.live) x

theorem enter (h : frames.OnTop frame) (entries : List (String × Value)) :
    (frames.enter frame entries).OnTop (frame + 1) :=
  ⟨h.1.enter h.2 entries, by rw [depth_enter, h.2]⟩

/-- The frame of a call can be released, and the frames of its callers stay as they are. -/
theorem pop (h : frames.OnTop (frame + 1)) :
    ∃ frames', frames.pop (frame + 1) = .ok frames' ∧ frames'.OnTop frame ∧
      ∀ k ≤ frame, frames'.own k = frames.own k := by
  obtain ⟨frames', hpop, hstack, hdepth, hown⟩ := h.1.pop h.2 (Nat.succ_pos frame)
  exact ⟨frames', hpop, ⟨hstack, hdepth.symm⟩, fun k hk => hown k (Nat.lt_succ_of_le hk)⟩

theorem of_pop (h : frames.OnTop (frame + 1)) (hpop : frames.pop (frame + 1) = .ok frames') :
    frames'.OnTop frame ∧ ∀ k ≤ frame, frames'.own k = frames.own k := by
  obtain ⟨_, hpop', hrest⟩ := h.pop
  cases hpop.symm.trans hpop'
  exact hrest

end OnTop

end Scriptling.Frames
