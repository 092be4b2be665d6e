/-
  Scriptling.Proofs.Frames.Tree — names in a tree of frames.

  A frame that is pushed onto a live one has a parent that was there before it, so frames that come
  of this form a tree, of any shape. Reads from different frames share a part of their chains, and a
  name that is bound in one frame is seen from another one only if no frame on the way binds it too.
  - `IsNearest`: the first frame on a chain that binds a name. `owner?_eq_some_iff`: the owner of a
    name is the nearest one.
  - `read?_bind`: what binding a name changes for the readers, wherever they are.
  - `BoundIn.pop`: a frame that is released after names were bound in it leaves nothing behind.
  - `Reached.environment_laws`: the laws of frames that were pushed onto live ones only.
-/

import Scriptling.Proofs.Frames.Chain

namespace Scriptling.Frames

variable {frames after : Frames} {frame owner h i k n o : Nat} {x y : String} {v : Value}

/-! ## The nearest frame -/

/-- Of the frames from `frame` on to its parents, `owner` is the first that binds `x`. -/
def IsNearest (frames : Frames) (frame : Nat) (x : String) (owner : Nat) : Prop :=
  ∃ n, frames.climb n frame = some owner ∧ frames.Binds owner x ∧
    ∀ k < n, ∀ i, frames.climb k frame = some i → ¬ frames.Binds i x

/-- The owner of a name is the nearest frame that binds it. -/
theorem owner?_eq_some_iff : frames.owner? frame x = some owner ↔ frames.IsNearest frame x owner := by
  constructor
  · intro howner
    rw [owner?, ownerWithin_eq] at howner
    cases hsearch : frames.search x frames.depth frame with
    | none => rw [hsearch] at howner; cases howner
    | some answer =>
      rw [hsearch] at howner
      obtain rfl : answer = some owner := howner
      obtain ⟨n, -, hnearest⟩ := search_eq_some_some_iff.mp hsearch
      exact ⟨n, hnearest⟩
  · rintro ⟨n, hnearest⟩
    exact owner?_eq_of_search (search_eq_some_some_iff.mpr ⟨n, Nat.lt_succ_self n, hnearest⟩)

theorem owner?_eq_none_iff :
    frames.owner? frame x = none ↔ ∀ n i, frames.climb n frame = some i → ¬ frames.Binds i x := by
  constructor
  · intro hnone n i hi hbinds
    -- Of the frames that bind the name, the first one on the chain would be the nearest.
    have hsome : ∃ m j, frames.climb m frame = some j ∧ frames.Binds j x := ⟨n, i, hi, hbinds⟩
    classical
    obtain ⟨j, hj, hbinds⟩ := Nat.find_spec hsome
    have hnearest : frames.IsNearest frame x j :=
      ⟨Nat.find hsome, hj, hbinds, fun k hk i hi hb => Nat.find_min hsome hk ⟨i, hi, hb⟩⟩
    rw [owner?_eq_some_iff.mpr hnearest] at hnone
    cases hnone
  · intro hunbound
    cases howner : frames.owner? frame x with
    | none => rfl
    | some owner =>
      obtain ⟨n, hn, hbinds, -⟩ := owner?_eq_some_iff.mp howner
      exact absurd hbinds (hunbound n owner hn)

/-- In frames without circles every search ends, with the owner of the name. -/
theorem Rooted.search_ends (hrooted : Rooted true frames) (frame : Nat) (x : String) :
    ∃ rounds, frames.search x rounds frame = some (frames.owner? frame x) := by
  rcases frames.ends_or_circles frame with ⟨n, -, last, hlast, hend⟩ | hcircle
  · obtain ⟨answer, hanswer⟩ := exists_search hlast hend x
    rw [owner?_eq_of_search hanswer]
    exact ⟨n + 1, hanswer⟩
  · exact absurd hcircle hrooted.not_circles

/-- Every parent comes before its children. -/
theorem Rooted.parent_lt (hrooted : Rooted true frames) (h : frames.parent? k = some i) : i < k := by
  have hne : k ≠ global := by
    rintro rfl
    rw [hrooted.root] at h
    cases h
  obtain ⟨parent, hparent, hlt⟩ := hrooted.parent k (live_of_parent? h) hne
  rw [h] at hparent
  cases hparent
  exact hlt rfl

/-! ## Binding a name -/

theorem climb_bind (frames : Frames) (o : Nat) (x : String) (v : Value) (n k : Nat) :
    (frames.bind o x v).climb n k = frames.climb n k := by
  induction n generalizing k with
  | zero => rfl
  | succ n ih =>
    rw [climb, climb, parent?_bind]
    congr 1
    funext parent
    exact ih parent

/-- A nearest frame that is not the one where the name was bound was the nearest before. -/
theorem IsNearest.of_bind (live : o < frames.depth) (hnearest : (frames.bind o x v).IsNearest h y owner)
    (hne : ¬ (owner = o ∧ y = x)) : frames.IsNearest h y owner := by
  obtain ⟨n, hn, hbinds, hfirst⟩ := hnearest
  rw [climb_bind] at hn
  refine ⟨n, hn, ((binds_bind live x y v owner).mp hbinds).resolve_left hne, fun k hk i hi hb => ?_⟩
  exact hfirst k hk i (by rwa [climb_bind]) ((binds_bind live x y v i).mpr (.inr hb))

/-- A name is found where it was bound, or else where it was found before. -/
theorem owner?_bind (live : o < frames.depth) (x : String) (v : Value) (h : Nat) (y : String)
    (hother : ¬ (y = x ∧ (frames.bind o x v).owner? h x = some o)) :
    (frames.bind o x v).owner? h y = frames.owner? h y := by
  cases howner : (frames.bind o x v).owner? h y with
  | none =>
    -- Binding takes no name away, so there was none to find before.
    refine (owner?_eq_none_iff.mpr fun n i hi hb => ?_).symm
    exact owner?_eq_none_iff.mp howner n i (by rwa [climb_bind]) ((binds_bind live x y v i).mpr (.inr hb))
  | some owner =>
    refine (owner?_eq_some_iff.mpr ((owner?_eq_some_iff.mp howner).of_bind live ?_)).symm
    rintro ⟨rfl, rfl⟩
    exact hother ⟨rfl, howner⟩

/-- A reader that now finds the name where it was bound reads the new value. All other readers read
    what they did. -/
theorem read?_bind (live : o < frames.depth) (x : String) (v : Value) (h : Nat) (y : String) :
    (frames.bind o x v).read? h y =
      if y = x ∧ (frames.bind o x v).owner? h x = some o then some v else frames.read? h y := by
  by_cases hhere : y = x ∧ (frames.bind o x v).owner? h x = some o
  · obtain ⟨rfl, hfound⟩ := hhere
    rw [if_pos ⟨rfl, hfound⟩, read?, hfound, Option.bind_some, get?_bind _ _ _ _ _ _ live, if_pos ⟨rfl, rfl⟩]
  · rw [if_neg hhere, read?, read?, owner?_bind live x v h y hhere]
    cases howner : frames.owner? h y with
    | none => rfl
    | some owner =>
      rw [Option.bind_some, Option.bind_some, get?_bind _ _ _ _ _ _ live, if_neg]
      rintro ⟨rfl, rfl⟩
      rw [← owner?_bind live y v h y hhere] at howner
      exact hhere ⟨rfl, howner⟩

/-! ## Assigning a name -/

def target (frames : Frames) (frame : Nat) (x : String) : Nat := (frames.owner? frame x).getD frame

theorem target_live (live : frame < frames.depth) (x : String) : frames.target frame x < frames.depth := by
  unfold target
  cases howner : frames.owner? frame x with
  | none => exact live
  | some owner =>
    obtain ⟨-, -, hbinds, -⟩ := owner?_eq_some_iff.mp howner
    exact live_of_binds hbinds

theorem assign_eq (live : frame < frames.depth) (x : String) (v : Value) :
    frames.assign frame x v = .ok (frames.bind (frames.target frame x) x v) :=
  if_pos (target_live live x)

theorem eq_of_assign (hassign : frames.assign frame x v = .ok after) :
    after = frames.bind (frames.target frame x) x v := by
  unfold assign define at hassign
  split at hassign
  · cases hassign
    rfl
  · cases hassign

/-- The frame where a name has been assigned owns it. -/
theorem owner?_assigned (live : frame < frames.depth) (x : String) (v : Value) :
    (frames.bind (frames.target frame x) x v).owner? frame x = some (frames.target frame x) := by
  have hbinds : (frames.bind (frames.target frame x) x v).Binds (frames.target frame x) x :=
    (binds_bind (target_live live x) x x v _).mpr (.inl ⟨rfl, rfl⟩)
  refine owner?_eq_some_iff.mpr ?_
  cases howner : frames.owner? frame x with
  | none =>
    have htarget : frames.target frame x = frame := by rw [target, howner]; rfl
    rw [htarget] at hbinds ⊢
    exact ⟨0, rfl, hbinds, fun k hk => absurd hk (Nat.not_lt_zero k)⟩
  | some owner =>
    have htarget : frames.target frame x = owner := by rw [target, howner]; rfl
    obtain ⟨n, hn, hbefore, hfirst⟩ := owner?_eq_some_iff.mp howner
    have hlive := live_of_binds hbefore
    rw [htarget] at hbinds ⊢
    refine ⟨n, by rwa [climb_bind], hbinds, fun k hk i hi hb => ?_⟩
    rw [climb_bind] at hi
    -- The frames before the owner did not bind the name, and none of them is the owner.
    rcases (binds_bind hlive x x v i).mp hb with ⟨rfl, -⟩ | hb
    · exact hfirst k hk i hi hbefore
    · exact hfirst k hk i hi hb

theorem read?_assigned (live : frame < frames.depth) (x : String) (v : Value) :
    (frames.bind (frames.target frame x) x v).read? frame x = some v := by
  rw [read?_bind (target_live live x), if_pos ⟨rfl, owner?_assigned live x v⟩]

/-! ## A frame comes and goes -/

/-- Names are bound in frame `id` and in no other: they are defined there, or assigned from there where
    no other frame owns them. -/
inductive BoundIn (id : Nat) (frames : Frames) : Frames → Prop
  | nothing : BoundIn id frames frames
  | define {mid after : Frames} {x : String} {v : Value} : BoundIn id frames mid →
      mid.define id x v = .ok after → BoundIn id frames after
  | assign {mid after : Frames} {x : String} {v : Value} : BoundIn id frames mid →
      (∀ owner, mid.owner? id x = some owner → owner = id) → mid.assign id x v = .ok after →
      BoundIn id frames after

/-- Binding a name in the last frame leaves the frames before it as they are. -/
theorem slots_pop_bind (hlast : k + 1 = frames.depth) (x : String) (v : Value) :
    (frames.bind k x v).slots.pop = frames.slots.pop := by
  apply Array.ext_getElem?
  intro i
  unfold depth at hlast
  simp only [bind, Array.getElem?_pop, Array.size_modify, Array.getElem?_modify]
  split
  · rw [if_neg (by omega)]
  · rfl

/-- Whatever names are bound in a frame, they go with it. -/
theorem BoundIn.pop {parent : Nat} (hbound : BoundIn frames.nextId (frames.push parent) after)
    (nonempty : 0 < frames.depth) : after.pop frames.nextId = .ok frames := by
  have hbind {mid : Frames} (x : String) (v : Value) (h : mid.depth = frames.depth + 1 ∧ mid.slots.pop = frames.slots) :
      (mid.bind frames.nextId x v).depth = frames.depth + 1 ∧
        (mid.bind frames.nextId x v).slots.pop = frames.slots :=
    ⟨(depth_bind ..).trans h.1, (slots_pop_bind h.1.symm x v).trans h.2⟩
  have hkeeps : after.depth = frames.depth + 1 ∧ after.slots.pop = frames.slots := by
    induction hbound with
    | nothing => exact ⟨depth_push frames parent, Array.pop_push ..⟩
    | @define mid after x v _ hdefine ih =>
      rw [Frames.define, if_pos (by rw [ih.1]; exact Nat.lt_succ_self _)] at hdefine
      cases hdefine
      exact hbind x v ih
    | @assign mid after x v _ howner hassign ih =>
      have htarget : mid.target frames.nextId x = frames.nextId := by
        unfold target
        cases hfound : mid.owner? frames.nextId x with
        | none => rfl
        | some owner => exact howner owner hfound
      rw [assign_eq (by rw [ih.1]; exact Nat.lt_succ_self _), htarget] at hassign
      cases hassign
      exact hbind x v ih
  have hlast : frames.nextId + 1 = after.depth := hkeeps.1.symm
  have hne : ¬ frames.nextId = global := Nat.ne_of_gt nonempty
  rw [Frames.pop, if_pos hlast, if_neg hne, hkeeps.2]

/-! ## The laws together -/

/-- In frames that were pushed onto live ones only, parents come before their children, and the search
    for a name ends at the nearest frame that binds it, if there is one. Assigning a name from a live
    frame binds it in the frame `o` that owned it, or else in that frame itself, which then reads the
    value. Another frame reads something else than before only if `o` is now the nearest to it that
    binds the name, and then it reads the value too; no other binding, no parent and not the number of
    frames is changed. A new frame that names are bound in and that is then released leaves the
    frames exactly as they were. -/
theorem Reached.environment_laws {handed : List Nat} {frames : Frames} (reached : Reached true handed frames) :
    (∀ child parent, frames.parent? child = some parent → parent < child) ∧
    (∀ h < frames.depth, ∀ x,
      (∃ rounds, frames.search x rounds h = some (frames.owner? h x)) ∧
      (∀ owner, frames.owner? h x = some owner ↔ frames.IsNearest h x owner) ∧
      (frames.owner? h x = none ↔ ∀ n i, frames.climb n h = some i → ¬ frames.Binds i x)) ∧
    (∀ e < frames.depth, ∀ x v, ∃ o after, o = (frames.owner? e x).getD e ∧ frames.assign e x v = .ok after ∧
      after.read? e x = some v ∧
      (∀ h < frames.depth, ∀ y, after.read? h y ≠ frames.read? h y → y = x ∧ after.IsNearest h x o) ∧
      (∀ h < frames.depth, after.IsNearest h x o → after.read? h x = some v) ∧
      (∀ k y, after.get? k y = if k = o ∧ y = x then some v else frames.get? k y) ∧
      after.depth = frames.depth ∧ ∀ k, after.parent? k = frames.parent? k) ∧
    ∀ parent < frames.depth, ∀ after, BoundIn frames.nextId (frames.push parent) after →
      after.pop frames.nextId = .ok frames := by
  have hrooted := reached.rooted
  refine ⟨fun _ _ => hrooted.parent_lt, fun h _ x => ⟨hrooted.search_ends h x, fun _ => owner?_eq_some_iff,
    owner?_eq_none_iff⟩, fun e live x v => ?_, fun parent _ after hbound => hbound.pop hrooted.live⟩
  have htarget := target_live live x
  refine ⟨frames.target e x, _, rfl, assign_eq live x v, read?_assigned live x v, fun h _ y hne => ?_,
    fun h _ hnearest => ?_, fun k y => get?_bind _ _ _ _ _ _ htarget, depth_bind .., fun k => parent?_bind ..⟩
  · rw [read?_bind htarget] at hne
    split at hne
    · rename_i hfound
      exact ⟨hfound.1, owner?_eq_some_iff.mp hfound.2⟩
    · exact absurd rfl hne
  · rw [read?_bind htarget, if_pos ⟨rfl, owner?_eq_some_iff.mpr hnearest⟩]

def shadowed : Frames := ((((initial.bind 0 "x" (.int 1)).push 0).push 0).push 1).bind 1 "x" (.int 2)

/-- What is assigned from frame 3 is seen from frame 1, but not from frame 2. -/
theorem environment_laws_shadowed :
    Reached true [3, 2, 1, 0] shadowed ∧ 3 < shadowed.depth ∧
      ∃ after, shadowed.assign 3 "x" (.int 5) = .ok after ∧ after.read? 3 "x" = some (.int 5) ∧
        after.read? 1 "x" = some (.int 5) ∧ after.read? 2 "x" = some (.int 1) := by
  have hbound : Reached true [0] (initial.bind 0 "x" (.int 1)) := .define .initial (show 0 ∈ [0] by decide) rfl
  have hpushed : Reached true [3, 2, 1, 0] ((((initial.bind 0 "x" (.int 1)).push 0).push 0).push 1) := by
    refine .push (.push (.push hbound ?_ ?_) ?_ ?_) ?_ ?_ <;> decide
  have hreached : Reached true [3, 2, 1, 0] shadowed := .define hpushed (show 1 ∈ [3, 2, 1, 0] by decide) rfl
  obtain ⟨-, -, hassign, -⟩ := hreached.environment_laws
  obtain ⟨o, after, rfl, hafter, hread, -⟩ := hassign 3 (by decide) "x" (.int 5)
  refine ⟨hreached, by decide, after, hafter, hread, ?_⟩
  cases hafter
  exact ⟨rfl, rfl⟩

end Scriptling.Frames
