/-
  Scriptling.Proofs.Frames.Chain — where the parents of a frame lead.

  A search for a name goes from a frame to its parent as long as it has not found the name and
  there is a parent. Nothing else bounds it, so it ends for every name only if the chain of
  parents ends.
  - `Frames.search` is the search, and says when it is still under way.
    `owner?_eq_of_search`: where it ends, its answer is that of `owner?`.
  - `Frames.Reached`: the frames that come of pushing, popping, binding and resetting, with
    numbers that were handed out before, stale ones included.
  - `Reached.leads_out_or_circles`: each chain ends at the global frame or at a frame that is not
    live, unless it runs in a circle; and a circle takes a frame that was pushed onto a number
    that was not live. Two frames that were pushed so may be each other's parents
    (`stale_parents_circle`).
-/

import Mathlib.Data.Finset.Card
import Mathlib.Data.Nat.Find
import Scriptling.Proofs.Frames.Stack

namespace Scriptling.Frames

/-! ## Steps to the parent -/

def climb (frames : Frames) : Nat → Nat → Option Nat
  | 0, frame => some frame
  | n + 1, frame => (frames.parent? frame).bind (frames.climb n)

/-- The chain of parents leads, in no more steps than there are frames, to the global frame or to
    one that is not live. -/
def LeadsOut (frames : Frames) (frame : Nat) : Prop :=
  ∃ n ≤ frames.depth, ∃ last, frames.climb n frame = some last ∧ (last = global ∨ frames.depth ≤ last)

def Circles (frames : Frames) (frame : Nat) : Prop :=
  ∃ n i k, frames.climb n frame = some i ∧ frames.climb (k + 1) i = some i

variable {frames : Frames} {frame i j k m n : Nat} {x : String}

theorem climb_of_parent? (h : frames.parent? i = some j) (n : Nat) : frames.climb (n + 1) i = frames.climb n j := by
  rw [climb, h]
  rfl

theorem climb_add (frames : Frames) (m n frame : Nat) :
    frames.climb (m + n) frame = (frames.climb m frame).bind (frames.climb n) := by
  induction m generalizing frame with
  | zero => rw [Nat.zero_add]; rfl
  | succ m ih =>
    rw [Nat.add_right_comm]
    cases hparent : frames.parent? frame with
    | none => rw [climb, climb, hparent]; rfl
    | some parent => rw [climb_of_parent? hparent, climb_of_parent? hparent, ih]

theorem climb_succ (frames : Frames) (n frame : Nat) :
    frames.climb (n + 1) frame = (frames.climb n frame).bind frames.parent? := by
  rw [climb_add]
  congr 1
  funext i
  simp only [climb]
  cases frames.parent? i <;> rfl

/-- Only a live frame has a parent. -/
theorem live_of_parent? (h : frames.parent? i = some j) : i < frames.depth := by
  unfold parent? at h
  by_cases hlive : i < frames.slots.size
  · exact hlive
  · rw [Array.getElem?_eq_none (by omega)] at h
    cases h

theorem live_of_climb_succ (h : frames.climb (n + 1) frame = some j) :
    ∃ i, frames.climb n frame = some i ∧ frames.parent? i = some j ∧ i < frames.depth := by
  rw [climb_succ] at h
  obtain ⟨i, hi, hparent⟩ := Option.bind_eq_some_iff.mp h
  exact ⟨i, hi, hparent, live_of_parent? hparent⟩

/-- What comes before a frame on a chain is live. -/
theorem live_of_climb_lt (h : frames.climb n frame = some j) (hm : m < n) :
    ∃ i, frames.climb m frame = some i ∧ i < frames.depth := by
  have hsplit : n = m + 1 + (n - (m + 1)) := by omega
  rw [hsplit, climb_add] at h
  obtain ⟨i, hi, -⟩ := Option.bind_eq_some_iff.mp h
  obtain ⟨i', hi', -, hlive⟩ := live_of_climb_succ hi
  exact ⟨i', hi', hlive⟩

/-- A chain that comes to the same frame after `m` and after `n` steps can be cut short by what
    lies between. -/
theorem climb_shortcut (hm : frames.climb m frame = some i) (hn : frames.climb n frame = some i) (k : Nat) :
    frames.climb (m + k) frame = frames.climb (n + k) frame := by
  rw [climb_add, climb_add, hm, hn]

/-- More steps through live frames than there are frames come to one of them twice. -/
theorem exists_climb_eq (hlive : ∀ m ≤ frames.depth, ∃ i, frames.climb m frame = some i ∧ i < frames.depth) :
    ∃ m n i, m < n ∧ n ≤ frames.depth ∧ frames.climb m frame = some i ∧ frames.climb n frame = some i := by
  have hcard : (Finset.range frames.depth).card < (Finset.range (frames.depth + 1)).card := by
    rw [Finset.card_range, Finset.card_range]
    omega
  have hmaps : ∀ m ∈ Finset.range (frames.depth + 1),
      (frames.climb m frame).getD 0 ∈ Finset.range frames.depth := by
    intro m hm
    obtain ⟨i, hi, hi'⟩ := hlive m (Nat.le_of_lt_succ (Finset.mem_range.mp hm))
    rw [hi]
    exact Finset.mem_range.mpr hi'
  obtain ⟨m, hm, n, hn, hne, heq⟩ := Finset.exists_ne_map_eq_of_card_lt_of_maps_to hcard hmaps
  obtain ⟨i, hi, -⟩ := hlive m (Nat.le_of_lt_succ (Finset.mem_range.mp hm))
  obtain ⟨j, hj, -⟩ := hlive n (Nat.le_of_lt_succ (Finset.mem_range.mp hn))
  rw [hi, hj] at heq
  obtain rfl : i = j := heq
  have hm' := Finset.mem_range.mp hm
  have hn' := Finset.mem_range.mp hn
  rcases Nat.lt_or_gt_of_ne hne with hlt | hgt
  · exact ⟨m, n, i, hlt, by omega, hi, hj⟩
  · exact ⟨n, m, i, hgt, by omega, hj, hi⟩

/-- The first time that a chain comes to a frame is within as many steps as there are frames, and
    one less if that frame is live. -/
theorem le_depth_of_first (h : frames.climb n frame = some j) (hfirst : ∀ m < n, frames.climb m frame ≠ some j) :
    n ≤ frames.depth ∧ (j < frames.depth → n < frames.depth) := by
  -- A frame that the chain comes to twice before would have led to `j` earlier.
  have hno (hmore : ∀ m ≤ frames.depth, ∃ i, frames.climb m frame = some i ∧ i < frames.depth)
      (hle : frames.depth ≤ n) : False := by
    obtain ⟨a, b, i, hab, hb, ha, hb'⟩ := exists_climb_eq hmore
    have hshort := climb_shortcut ha hb' (n - b)
    rw [Nat.add_sub_cancel' (Nat.le_trans hb hle), h] at hshort
    exact hfirst (a + (n - b)) (by omega) hshort
  constructor
  · by_cases hle : n ≤ frames.depth
    · exact hle
    · exact (hno (fun m hm => live_of_climb_lt h (by omega)) (by omega)).elim
  · intro hlive
    by_cases hlt : n < frames.depth
    · exact hlt
    · refine (hno (fun m hm => ?_) (by omega)).elim
      rcases Nat.lt_or_eq_of_le (Nat.le_trans hm (Nat.not_lt.mp hlt)) with hmn | rfl
      · exact live_of_climb_lt h hmn
      · exact ⟨j, h, hlive⟩

/-- A frame on a chain is come to for the first time. -/
theorem exists_first (h : frames.climb n frame = some j) :
    ∃ m, frames.climb m frame = some j ∧ ∀ k < m, frames.climb k frame ≠ some j := by
  have hsome : ∃ m, frames.climb m frame = some j := ⟨n, h⟩
  exact ⟨Nat.find hsome, Nat.find_spec hsome, fun k hk => Nat.find_min hsome hk⟩

/-- A chain of parents ends, or comes to a frame twice. -/
theorem ends_or_circles (frames : Frames) (frame : Nat) :
    (∃ n ≤ frames.depth, ∃ last, frames.climb n frame = some last ∧ frames.parent? last = none) ∨
      frames.Circles frame := by
  by_cases hends : ∃ n last, frames.climb n frame = some last ∧ frames.parent? last = none
  · obtain ⟨n, last, hn, hlast⟩ := hends
    obtain ⟨m, hm, hfirst⟩ := exists_first hn
    exact .inl ⟨m, (le_depth_of_first hm hfirst).1, last, hm, hlast⟩
  · right
    have hgoes (n : Nat) : ∃ i, frames.climb n frame = some i ∧ i < frames.depth := by
      induction n with
      | zero =>
        cases hparent : frames.parent? frame with
        | none => exact absurd ⟨0, frame, rfl, hparent⟩ hends
        | some parent => exact ⟨frame, rfl, live_of_parent? hparent⟩
      | succ n ih =>
        obtain ⟨i, hi, -⟩ := ih
        cases hparent : frames.parent? i with
        | none => exact absurd ⟨n, i, hi, hparent⟩ hends
        | some j =>
          have hj : frames.climb (n + 1) frame = some j := by rw [climb_succ, hi]; exact hparent
          cases hnext : frames.parent? j with
          | none => exact absurd ⟨n + 1, j, hj, hnext⟩ hends
          | some next => exact ⟨j, hj, live_of_parent? hnext⟩
    obtain ⟨m, n, i, hlt, -, hm, hn⟩ := exists_climb_eq fun m _ => hgoes m
    refine ⟨m, i, n - m - 1, hm, ?_⟩
    have hsplit : n = m + (n - m - 1 + 1) := by omega
    rw [hsplit, climb_add, hm] at hn
    exact hn

/-! ## Circles -/

/-- Once round a circle leads anywhere on it again. -/
theorem climb_mul (hi : frames.climb k i = some i) (n : Nat) : frames.climb (n * k) i = some i := by
  induction n with
  | zero => rw [Nat.zero_mul]; rfl
  | succ n ih =>
    rw [Nat.succ_mul, climb_add, ih]
    exact hi

/-- A chain that comes to a frame twice goes on for ever. -/
theorem Circles.climb_isSome (h : frames.Circles frame) (n : Nat) :
    ∃ j, frames.climb n frame = some j ∧ j < frames.depth := by
  obtain ⟨m, i, k, hm, hi⟩ := h
  have hround : frames.climb (m + (n + 1) * (k + 1)) frame = some i := by
    rw [climb_add, hm]
    exact climb_mul hi (n + 1)
  have hlt : n < m + (n + 1) * (k + 1) := by
    have hle : n + 1 ≤ (n + 1) * (k + 1) := Nat.le_mul_of_pos_right (n + 1) (Nat.succ_pos k)
    omega
  exact live_of_climb_lt hround hlt

/-- A chain that runs in a circle does not lead out. -/
theorem Circles.not_leadsOut (h : frames.Circles frame) (hroot : frames.parent? global = none) :
    ¬ frames.LeadsOut frame := by
  intro hout
  obtain ⟨n, -, last, hlast, hwhere⟩ := hout
  obtain ⟨next, hnext, -⟩ := h.climb_isSome (n + 1)
  rw [climb_succ, hlast] at hnext
  rcases hwhere with rfl | hdead
  · rw [Option.bind_some, hroot] at hnext
    cases hnext
  · have hlive := live_of_parent? hnext
    omega

/-- On a circle some frame has a parent that does not come before it. -/
theorem Circles.exists_stray (h : frames.Circles frame) :
    ∃ n stray parent k, frames.climb n frame = some stray ∧ frames.parent? stray = some parent ∧
      stray ≤ parent ∧ frames.climb (k + 1) stray = some stray := by
  obtain ⟨n, i, k, hn, hi⟩ := h
  -- If the parent comes before the frame, the circle is also one from the parent, which is smaller.
  induction i using Nat.strongRecOn generalizing n with
  | ind i ih =>
    have hi' := hi
    rw [climb] at hi
    obtain ⟨parent, hparent, hback⟩ := Option.bind_eq_some_iff.mp hi
    by_cases hle : i ≤ parent
    · exact ⟨n, i, parent, k, hn, hparent, hle, hi'⟩
    · refine ih parent (Nat.not_le.mp hle) (n + 1) ?_ ?_
      · rw [climb_succ, hn]
        exact hparent
      · rw [climb_succ, hback]
        exact hparent

/-! ## Searching -/

/-- The search for a name from `frame` in so many rounds: the frame that binds the name, or `none` if
    the chain of parents has ended, or no answer yet. -/
def search (frames : Frames) (x : String) : Nat → Nat → Option (Option Nat)
  | 0, _ => none
  | rounds + 1, frame =>
    if frames.Binds frame x then some (some frame)
    else
      match frames.parent? frame with
      | none => some none
      | some parent => search frames x rounds parent

theorem search_of_binds (hb : frames.Binds i x) (n : Nat) : frames.search x (n + 1) i = some (some i) := by
  rw [search, if_pos hb]

theorem search_of_end (hb : ¬ frames.Binds i x) (h : frames.parent? i = none) (n : Nat) :
    frames.search x (n + 1) i = some none := by
  rw [search, if_neg hb, h]

theorem search_of_parent? (hb : ¬ frames.Binds i x) (h : frames.parent? i = some j) (n : Nat) :
    frames.search x (n + 1) i = frames.search x n j := by
  rw [search, if_neg hb, h]

def readIn (frames : Frames) (rounds frame : Nat) (x : String) : Option (Option Value) :=
  (frames.search x rounds frame).map fun owner => owner.bind (frames.get? · x)

def assignIn (frames : Frames) (rounds frame : Nat) (x : String) (v : Value) : Option (Except Misuse Frames) :=
  (frames.search x rounds frame).map fun owner => frames.define (owner.getD frame) x v

/-- Searching a bounded number of frames is a search that is given up without an answer. -/
theorem ownerWithin_eq (frames : Frames) (x : String) (n frame : Nat) :
    frames.ownerWithin x n frame = (frames.search x n frame).getD none := by
  induction n generalizing frame with
  | zero => rfl
  | succ n ih =>
    unfold ownerWithin search
    cases hslot : frames.slots[frame]? with
    | none => simp [Binds, get?, bindings?, parent?, hslot]
    | some slot =>
      have hbinds : frames.Binds frame x ↔ slot.bindings.contains x = true := by
        simp [Binds, get?, bindings?, hslot, Bindings.contains]
      have hparent : frames.parent? frame = slot.parent := by simp [parent?, hslot]
      rw [hparent]
      by_cases hb : frames.Binds frame x
      · simp [hb, hbinds.mp hb]
      · have hb' : ¬ slot.bindings.contains x = true := fun h => hb (hbinds.mpr h)
        simp only [hb, hb', if_false]
        cases slot.parent with
        | none => rfl
        | some parent => exact ih parent

/-- More rounds keep an answer. -/
theorem search_mono {answer : Option Nat} (h : frames.search x m frame = some answer) (hmn : m ≤ n) :
    frames.search x n frame = some answer := by
  induction m generalizing n frame with
  | zero => cases h
  | succ m ih =>
    obtain ⟨n, rfl⟩ : ∃ n', n = n' + 1 := ⟨n - 1, by omega⟩
    by_cases hb : frames.Binds frame x
    · rwa [search_of_binds hb] at h ⊢
    · cases hparent : frames.parent? frame with
      | none => rwa [search_of_end hb hparent] at h ⊢
      | some parent =>
        rw [search_of_parent? hb hparent] at h ⊢
        exact ih h (by omega)

/-- A search finds the first frame on the chain that binds the name. -/
theorem search_eq_some_some_iff {owner : Nat} :
    frames.search x n frame = some (some owner) ↔
      ∃ m < n, frames.climb m frame = some owner ∧ frames.Binds owner x ∧
        ∀ k < m, ∀ i, frames.climb k frame = some i → ¬ frames.Binds i x := by
  induction n generalizing frame with
  | zero => simp [search]
  | succ n ih =>
    by_cases hb : frames.Binds frame x
    · rw [search_of_binds hb]
      constructor
      · intro h
        cases h
        exact ⟨0, by omega, rfl, hb, by simp⟩
      · intro h
        obtain ⟨m, -, hm, -, hfirst⟩ := h
        cases m with
        | zero => cases hm; rfl
        | succ m => exact absurd hb (hfirst 0 (by omega) frame rfl)
    · constructor
      · intro h
        cases hparent : frames.parent? frame with
        | none => rw [search_of_end hb hparent] at h; cases h
        | some parent =>
          rw [search_of_parent? hb hparent] at h
          obtain ⟨m, hm, howner, hbinds, hfirst⟩ := ih.mp h
          refine ⟨m + 1, by omega, by rwa [climb_of_parent? hparent], hbinds, fun k hk i hi => ?_⟩
          cases k with
          | zero => cases hi; exact hb
          | succ k => exact hfirst k (by omega) i (by rwa [climb_of_parent? hparent] at hi)
      · intro h
        obtain ⟨m, hm, howner, hbinds, hfirst⟩ := h
        cases m with
        | zero => cases howner; exact absurd hbinds hb
        | succ m =>
          obtain ⟨parent, hparent, howner⟩ := Option.bind_eq_some_iff.mp howner
          rw [search_of_parent? hb hparent]
          refine ih.mpr ⟨m, by omega, howner, hbinds, fun k hk i hi => ?_⟩
          exact hfirst (k + 1) (by omega) i (by rwa [climb_of_parent? hparent])

/-- What a search finds, it finds among as many frames as there are. -/
theorem search_depth {owner : Nat} (h : frames.search x n frame = some (some owner)) :
    frames.search x frames.depth frame = some (some owner) := by
  obtain ⟨m, -, howner, hbinds, hfirst⟩ := search_eq_some_some_iff.mp h
  have hm := (le_depth_of_first howner fun k hk hi => hfirst k hk owner hi hbinds).2 (live_of_binds hbinds)
  exact search_eq_some_some_iff.mpr ⟨m, hm, howner, hbinds, hfirst⟩

/-- Where a search ends, `owner?` gives its answer. -/
theorem owner?_eq_of_search {answer : Option Nat} (h : frames.search x n frame = some answer) :
    frames.owner? frame x = answer := by
  rw [owner?, ownerWithin_eq]
  cases answer with
  | some owner => rw [search_depth h]; rfl
  | none =>
    cases hd : frames.search x frames.depth frame with
    | none => rfl
    | some answer =>
      have hall := (search_mono h (Nat.le_max_left n frames.depth)).symm.trans
        (search_mono hd (Nat.le_max_right n frames.depth))
      exact (Option.some.inj hall).symm

/-- Where the chain of parents ends, every search does. -/
theorem exists_search (hn : frames.climb n frame = some j) (hend : frames.parent? j = none) (x : String) :
    ∃ answer, frames.search x (n + 1) frame = some answer := by
  induction n generalizing frame with
  | zero =>
    obtain rfl : frame = j := Option.some.inj hn
    by_cases hb : frames.Binds frame x
    · exact ⟨_, search_of_binds hb 0⟩
    · exact ⟨_, search_of_end hb hend 0⟩
  | succ n ih =>
    obtain ⟨parent, hparent, hn⟩ := Option.bind_eq_some_iff.mp hn
    by_cases hb : frames.Binds frame x
    · exact ⟨_, search_of_binds hb (n + 1)⟩
    · rw [search_of_parent? hb hparent]
      exact ih hn

/-- Round a circle that does not bind the name, a search never ends. -/
theorem Circles.search_eq_none (h : frames.Circles frame)
    (hunbound : ∀ n i, frames.climb n frame = some i → ¬ frames.Binds i x) (rounds : Nat) :
    frames.search x rounds frame = none := by
  have hgoes := h.climb_isSome
  clear h
  induction rounds generalizing frame with
  | zero => rfl
  | succ rounds ih =>
    obtain ⟨parent, hfirst, -⟩ := hgoes 1
    have hparent : frames.parent? frame = some parent := by rwa [climb_succ] at hfirst
    rw [search_of_parent? (hunbound 0 frame rfl) hparent]
    refine ih (fun n i hi => hunbound (n + 1) i ?_) fun n => ?_
    · rwa [climb_of_parent? hparent]
    · rw [← climb_of_parent? hparent]
      exact hgoes (n + 1)

/-! ## Frames in use -/

/-- The frames that any use of them leads to, and the numbers handed out so far. Each operation is
    given a number that was handed out, whether or not it still stands for the same frame. With
    `careful` a frame is pushed only onto a live one. -/
inductive Reached (careful : Bool) : List Nat → Frames → Prop
  | initial : Reached careful [global] initial
  | push {handed : List Nat} {frames : Frames} {parent : Nat} : Reached careful handed frames →
      parent ∈ handed → (careful = true → parent < frames.depth) →
      Reached careful (frames.nextId :: handed) (frames.push parent)
  | pop {handed : List Nat} {frames frames' : Frames} {frame : Nat} : Reached careful handed frames →
      frame ∈ handed → frames.pop frame = .ok frames' → Reached careful handed frames'
  | reset {handed : List Nat} {frames : Frames} : Reached careful handed frames → Reached careful handed .initial
  | define {handed : List Nat} {frames frames' : Frames} {frame : Nat} {x : String} {v : Value} :
      Reached careful handed frames → frame ∈ handed → frames.define frame x v = .ok frames' →
      Reached careful handed frames'
  | assign {handed : List Nat} {frames frames' : Frames} {rounds frame : Nat} {x : String} {v : Value} :
      Reached careful handed frames → frame ∈ handed → frames.assignIn rounds frame x v = some (.ok frames') →
      Reached careful handed frames'

structure Rooted (careful : Bool) (frames : Frames) : Prop where
  live : global < frames.depth
  root : frames.parent? global = none
  parent : ∀ k < frames.depth, k ≠ global → ∃ parent, frames.parent? k = some parent ∧ (careful = true → parent < k)

variable {careful : Bool}

theorem rooted_initial : Rooted careful initial where
  live := by decide
  root := rfl
  parent k hk hne := absurd (Nat.lt_one_iff.mp hk) hne

theorem Rooted.push (h : Rooted careful frames) {parent : Nat} (hparent : careful = true → parent < frames.depth) :
    Rooted careful (frames.push parent) where
  live := by rw [depth_push]; exact Nat.succ_pos _
  root := by
    rw [parent?_push, if_neg (Nat.ne_of_lt h.live)]
    exact h.root
  parent k hk hne := by
    rw [depth_push] at hk
    rw [parent?_push]
    by_cases hlast : k = frames.depth
    · rw [if_pos hlast, hlast]
      exact ⟨parent, rfl, hparent⟩
    · rw [if_neg hlast]
      exact h.parent k (by omega) hne

theorem Rooted.bind (h : Rooted careful frames) (frame : Nat) (x : String) (v : Value) :
    Rooted careful (frames.bind frame x v) where
  live := by rw [depth_bind]; exact h.live
  root := by rw [parent?_bind]; exact h.root
  parent k hk hne := by
    rw [depth_bind] at hk
    rw [parent?_bind]
    exact h.parent k hk hne

theorem Rooted.define (h : Rooted careful frames) {frames' : Frames} {v : Value}
    (hdefine : frames.define frame x v = .ok frames') : Rooted careful frames' := by
  unfold Frames.define at hdefine
  split at hdefine
  · cases hdefine
    exact h.bind frame x v
  · cases hdefine

theorem Rooted.pop (h : Rooted careful frames) {frames' : Frames} (hpop : frames.pop frame = .ok frames') :
    Rooted careful frames' := by
  unfold Frames.pop at hpop
  split at hpop
  · rename_i hlast
    split at hpop
    · cases hpop
      exact h
    · rename_i hne
      cases hpop
      unfold global at hne
      have hdepth : depth ⟨frames.slots.pop⟩ = frame := by
        unfold depth at hlast ⊢
        rw [Array.size_pop, ← hlast, Nat.add_sub_cancel]
      have hsame (k : Nat) (hk : k < frame) : parent? ⟨frames.slots.pop⟩ k = frames.parent? k := by
        unfold parent?
        unfold depth at hlast
        rw [Array.getElem?_pop, if_pos (by omega)]
      refine ⟨?_, ?_, fun k hk hne' => ?_⟩
      · rw [hdepth]
        unfold global
        omega
      · rw [hsame global (by unfold global; omega)]
        exact h.root
      · rw [hdepth] at hk
        rw [hsame k hk]
        exact h.parent k (by omega) hne'
  · cases hpop

theorem Reached.rooted {handed : List Nat} (h : Reached careful handed frames) : Rooted careful frames := by
  induction h with
  | initial => exact rooted_initial
  | push _ _ hparent ih => exact ih.push hparent
  | pop _ _ hpop ih => exact ih.pop hpop
  | reset _ _ => exact rooted_initial
  | define _ _ hdefine ih => exact ih.define hdefine
  | assign _ _ hassign ih =>
    obtain ⟨owner, -, hdefine⟩ := Option.map_eq_some_iff.mp hassign
    exact ih.define hdefine

/-- Where a chain ends, it has left the live frames or come to the global one. -/
theorem Rooted.leadsOut (h : Rooted careful frames) (hn : n ≤ frames.depth) (hj : frames.climb n frame = some j)
    (hend : frames.parent? j = none) : frames.LeadsOut frame := by
  refine ⟨n, hn, j, hj, ?_⟩
  by_cases hlive : j < frames.depth
  · left
    by_cases hglobal : j = global
    · exact hglobal
    · obtain ⟨parent, hparent, -⟩ := h.parent j hlive hglobal
      rw [hend] at hparent
      cases hparent
  · exact .inr (Nat.not_lt.mp hlive)

/-- Pushed onto live frames only, frames run in no circle. -/
theorem Rooted.not_circles (h : Rooted true frames) : ¬ frames.Circles frame := by
  intro hcircle
  obtain ⟨n, stray, parent, k, hn, hparent, hle, -⟩ := hcircle.exists_stray
  have hne : stray ≠ global := by
    rintro rfl
    rw [h.root] at hparent
    cases hparent
  obtain ⟨parent', hparent', hlt⟩ := h.parent stray (live_of_parent? hparent) hne
  rw [hparent] at hparent'
  cases hparent'
  have := hlt rfl
  omega

/-- The global frame is always there and has no parent. From every number the chain of parents leads,
    in no more steps than there are frames, to the global frame or to one that is not live, and
    reading and assigning any name comes to an end, with the answer of `owner?`, `read?` and
    `assign`. If some frame was pushed onto a number that was not live, the chain may instead come
    to such a frame and back to it again and again, and then the search for a name that is bound
    nowhere on the way never ends. -/
theorem Reached.leads_out_or_circles {careful : Bool} {handed : List Nat} {frames : Frames}
    (reached : Reached careful handed frames) :
    global < frames.depth ∧ frames.parent? global = none ∧
      ∀ frame,
        (frames.LeadsOut frame ∧ ∀ x,
          frames.search x (frames.depth + 1) frame = some (frames.owner? frame x) ∧
            frames.readIn (frames.depth + 1) frame x = some (frames.read? frame x) ∧
              ∀ v, frames.assignIn (frames.depth + 1) frame x v = some (frames.assign frame x v)) ∨
        (careful = false ∧
          (∃ n stray parent k, frames.climb n frame = some stray ∧ frames.parent? stray = some parent ∧
            stray ≤ parent ∧ frames.climb (k + 1) stray = some stray) ∧
            ∀ x, (∀ n i, frames.climb n frame = some i → ¬ frames.Binds i x) →
              ∀ rounds, frames.search x rounds frame = none) := by
  have hrooted := reached.rooted
  refine ⟨hrooted.live, hrooted.root, fun frame => ?_⟩
  rcases frames.ends_or_circles frame with ⟨n, hn, last, hlast, hend⟩ | hcircle
  · left
    refine ⟨hrooted.leadsOut hn hlast hend, fun x => ?_⟩
    obtain ⟨answer, hanswer⟩ := exists_search hlast hend x
    have hsearch : frames.search x (frames.depth + 1) frame = some (frames.owner? frame x) := by
      rw [owner?_eq_of_search hanswer]
      exact search_mono hanswer (by omega)
    refine ⟨hsearch, ?_, fun v => ?_⟩
    · rw [readIn, hsearch]
      rfl
    · rw [assignIn, hsearch]
      rfl
  · right
    refine ⟨?_, hcircle.exists_stray, fun x => hcircle.search_eq_none⟩
    cases careful with
    | false => rfl
    | true => exact absurd hcircle hrooted.not_circles

def branched : Frames := ((initial.bind 0 "x" (.int 1)).push 0).push 0

theorem branched_leads_out :
    Reached true [2, 1, 0] branched ∧ branched.LeadsOut 2 ∧
      branched.search "x" (branched.depth + 1) 2 = some (some 0) := by
  have hbound : Reached true [0] (initial.bind 0 "x" (.int 1)) := .define .initial (show 0 ∈ [0] by decide) rfl
  have hreached : Reached true [2, 1, 0] branched := by
    refine .push (.push hbound ?_ ?_) ?_ ?_ <;> decide
  refine ⟨hreached, ?_⟩
  rcases hreached.leads_out_or_circles.2.2 2 with ⟨hout, hsearch⟩ | ⟨hcareless, -⟩
  · exact ⟨hout, (hsearch "x").1⟩
  · cases hcareless

/-- The frame 1 was pushed onto the number 2, when no frame had that number any more, and the frame 2
    that was pushed after it onto frame 1. -/
def entangled : Frames := (((initial.push 2).push 1).bind 1 "a" (.int 1)).bind 2 "b" (.int 2)

/-- Two frames come to be each other's parents. Each finds the variable of the other one, and the
    search for a variable that there is not never ends. -/
theorem stale_parents_circle :
    Reached false [2, 1, 2, 1, 0] entangled ∧ 1 < entangled.depth ∧ ¬ entangled.LeadsOut 1 ∧
      entangled.owner? 1 "b" = some 2 ∧ entangled.owner? 2 "a" = some 1 ∧
        ∀ rounds, entangled.search "x" rounds 1 = none := by
  have hemptied : Reached false [2, 1, 0] initial := by
    have hpushed : Reached false [2, 1, 0] ((initial.push 0).push 1) := by
      refine .push (.push .initial ?_ ?_) ?_ ?_ <;> decide
    have hpopped : Reached false [2, 1, 0] (initial.push 0) := .pop hpushed (show 2 ∈ [2, 1, 0] by decide) rfl
    exact .pop hpopped (show 1 ∈ [2, 1, 0] by decide) rfl
  have hreached : Reached false [2, 1, 2, 1, 0] entangled := by
    have hpushed : Reached false [2, 1, 2, 1, 0] ((initial.push 2).push 1) := by
      refine .push (.push hemptied ?_ ?_) ?_ ?_ <;> decide
    have hbound : Reached false [2, 1, 2, 1, 0] (((initial.push 2).push 1).bind 1 "a" (.int 1)) :=
      .define hpushed (show 1 ∈ [2, 1, 2, 1, 0] by decide) rfl
    exact .define hbound (show 2 ∈ [2, 1, 2, 1, 0] by decide) rfl
  have hcircle : entangled.Circles 1 := ⟨0, 1, 1, rfl, rfl⟩
  have hunbound : ∀ i < entangled.depth, ¬ entangled.Binds i "x" := by decide
  refine ⟨hreached, by decide, hcircle.not_leadsOut rfl, by decide, by decide, ?_⟩
  exact hcircle.search_eq_none fun n i hi hb => hunbound i (live_of_binds hb) hb

end Scriptling.Frames
