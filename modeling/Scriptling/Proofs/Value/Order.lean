/-
  Scriptling.Proofs.Value.Order — the order of values is total and agrees with equality.

  One value comes `Before` another if it compares as less. Values of different kinds are apart by
  their kinds alone; within arrays and dictionaries the first difference decides, so what holds of
  the order of values follows from what holds of the items and entries in them.
  - `Value.compare_swap`, `Value.before_trans`: the order is one order from both sides, and
    transitive.
  - `compareItems_eq_lt_iff`, `compareEntries_eq_lt_iff`: arrays and dictionaries are ordered
    lexicographically.
  - `Value.mem_insertAll`: what is in a dictionary when entries with different keys have been put
    into it. It does not depend on their order, and neither does the dictionary
    (`Value.ofEntries_eq_of_perm`).
  - `values_totally_ordered`: all of it, and that sorting forgets the order that there was.
-/

import Scriptling.Value.Order

namespace Scriptling

namespace Value

def Before (a b : Value) : Prop := a.compare b = .lt

instance (a b : Value) : Decidable (a.Before b) := inferInstanceAs (Decidable (_ = _))

variable {a b c : Value}

/-! ## Kinds -/

/-- Values of different kinds are compared by their kinds. -/
theorem compare_of_kind_ne (h : a.kind ≠ b.kind) : a.compare b = Ord.compare a.kind.rank b.kind.rank := by
  cases a <;> cases b <;> first | rfl | exact absurd rfl h

theorem before_of_rank_lt (h : a.kind.rank < b.kind.rank) : a.Before b := by
  have hne : a.kind ≠ b.kind := by
    intro hkind
    rw [hkind] at h
    omega
  rw [Before, compare_of_kind_ne hne]
  exact Nat.compare_eq_lt.mpr h

theorem rank_lt_of_kind_ne (h : a.Before b) (hkind : a.kind ≠ b.kind) : a.kind.rank < b.kind.rank := by
  rwa [Before, compare_of_kind_ne hkind, Nat.compare_eq_lt] at h

/-- The kinds never go back. -/
theorem Before.rank_le (h : a.Before b) : a.kind.rank ≤ b.kind.rank := by
  by_cases hkind : a.kind = b.kind
  · exact Nat.le_of_eq (congrArg Kind.rank hkind)
  · exact Nat.le_of_lt (rank_lt_of_kind_ne h hkind)

end Value

/-! ## The other way round -/

mutual

theorem Value.compare_swap (a b : Value) : (a.compare b).swap = b.compare a := by
  by_cases hkind : a.kind = b.kind
  · cases a <;> cases b <;> cases hkind
    · exact Int.compare_swap _ _
    · rename_i x y
      cases x <;> cases y <;> rfl
    · exact compareItems_swap _ _
    · exact compareEntries_swap _ _
    · rfl
  · rw [Value.compare_of_kind_ne hkind, Value.compare_of_kind_ne (Ne.symm hkind)]
    exact Nat.compare_swap _ _

theorem compareItems_swap (as bs : List Value) : (compareItems as bs).swap = compareItems bs as := by
  match as, bs with
  | [], [] => rfl
  | [], _ :: _ => rfl
  | _ :: _, [] => rfl
  | a :: as, b :: bs =>
    rw [compareItems, compareItems, Ordering.swap_then, Value.compare_swap a b, compareItems_swap as bs]

theorem compareEntries_swap (as bs : List (Value × Value)) :
    (compareEntries as bs).swap = compareEntries bs as := by
  match as, bs with
  | [], [] => rfl
  | [], _ :: _ => rfl
  | _ :: _, [] => rfl
  | (k, a) :: as, (l, b) :: bs =>
    rw [compareEntries, compareEntries, Ordering.swap_then, Ordering.swap_then, Value.compare_swap k l,
      Value.compare_swap a b, compareEntries_swap as bs]

end

/-! ## Transitivity -/

/-- The first difference decides: if what is compared first is in a transitive order that agrees
    with equality, and the rest is in a transitive order, then so is the whole. -/
theorem then_trans {ab bc ac ab' bc' ac' : Ordering} (hleft : ab = .eq → ac = bc) (hright : bc = .eq → ac = ab)
    (hfirst : ab = .lt → bc = .lt → ac = .lt) (hrest : ab' = .lt → bc' = .lt → ac' = .lt)
    (h : ab.then ab' = .lt) (h' : bc.then bc' = .lt) : ac.then ac' = .lt := by
  rcases Ordering.then_eq_lt.mp h with hab | ⟨hab, hab'⟩
  · rcases Ordering.then_eq_lt.mp h' with hbc | ⟨hbc, -⟩
    · exact Ordering.then_eq_lt.mpr (.inl (hfirst hab hbc))
    · exact Ordering.then_eq_lt.mpr (.inl ((hright hbc).trans hab))
  · rcases Ordering.then_eq_lt.mp h' with hbc | ⟨hbc, hbc'⟩
    · exact Ordering.then_eq_lt.mpr (.inl ((hleft hab).trans hbc))
    · exact Ordering.then_eq_lt.mpr (.inr ⟨(hleft hab).trans hbc, hrest hab' hbc'⟩)

namespace Value

theorem compare_eq_right {a b : Value} (h : a.compare b = .eq) (c : Value) : a.compare c = b.compare c := by
  rw [(compare_eq_iff a b).mp h]

theorem compare_eq_left {b c : Value} (h : b.compare c = .eq) (a : Value) : a.compare c = a.compare b := by
  rw [(compare_eq_iff b c).mp h]

end Value

mutual

theorem Value.before_trans (a b c : Value) (hab : a.Before b) (hbc : b.Before c) : a.Before c := by
  by_cases hkind : a.kind = b.kind ∧ b.kind = c.kind
  · obtain ⟨hkind, hkind'⟩ := hkind
    cases a <;> cases b <;> cases hkind <;> cases c <;> cases hkind'
    · exact Int.compare_eq_lt.mpr (Int.lt_trans (Int.compare_eq_lt.mp hab) (Int.compare_eq_lt.mp hbc))
    · rename_i x y z
      revert hab hbc
      cases x <;> cases y <;> cases z <;> decide
    · exact compareItems_trans _ _ _ hab hbc
    · exact compareEntries_trans _ _ _ hab hbc
    · cases hab
  · -- Somewhere the kind changes, and it never goes back.
    refine Value.before_of_rank_lt ?_
    have hle := hab.rank_le
    have hle' := hbc.rank_le
    by_cases hab' : a.kind = b.kind
    · have := Value.rank_lt_of_kind_ne hbc fun h => hkind ⟨hab', h⟩
      omega
    · have := Value.rank_lt_of_kind_ne hab hab'
      omega

theorem compareItems_trans (as bs cs : List Value) (hab : compareItems as bs = .lt)
    (hbc : compareItems bs cs = .lt) : compareItems as cs = .lt := by
  match as, bs, cs with
  | _, [], [] => cases hbc
  | _, _ :: _, [] => cases hbc
  | [], _, _ :: _ => rfl
  | _ :: _, [], _ => cases hab
  | a :: as, b :: bs, c :: cs =>
    exact then_trans (fun h => Value.compare_eq_right h c) (fun h => Value.compare_eq_left h a)
      (Value.before_trans a b c) (compareItems_trans as bs cs) hab hbc

theorem compareEntries_trans (as bs cs : List (Value × Value)) (hab : compareEntries as bs = .lt)
    (hbc : compareEntries bs cs = .lt) : compareEntries as cs = .lt := by
  match as, bs, cs with
  | _, [], [] => cases hbc
  | _, _ :: _, [] => cases hbc
  | [], _, _ :: _ => rfl
  | _ :: _, [], _ => cases hab
  | (j, a) :: as, (k, b) :: bs, (l, c) :: cs =>
    have hvalues := then_trans (fun h => Value.compare_eq_right h c) (fun h => Value.compare_eq_left h a)
      (Value.before_trans a b c) (compareEntries_trans as bs cs)
    exact then_trans (fun h => Value.compare_eq_right h l) (fun h => Value.compare_eq_left h j)
      (Value.before_trans j k l) hvalues hab hbc

end

/-! ## Lexicographic order -/

theorem compareItems_eq_lt_iff {as bs : List Value} : compareItems as bs = .lt ↔ List.Lex Value.Before as bs := by
  induction as generalizing bs with
  | nil => cases bs <;> simp [compareItems]
  | cons a as ih =>
    cases bs with
    | nil => simp [compareItems]
    | cons b bs =>
      rw [compareItems, Ordering.then_eq_lt, Value.compare_eq_iff, ih, List.cons_lex_cons_iff]
      rfl

theorem compareEntries_eq_lt_iff {as bs : List (Value × Value)} :
    compareEntries as bs = .lt ↔ List.Lex (Prod.Lex Value.Before Value.Before) as bs := by
  induction as generalizing bs with
  | nil => cases bs <;> simp [compareEntries]
  | cons entry as ih =>
    obtain ⟨k, a⟩ := entry
    cases bs with
    | nil => simp [compareEntries]
    | cons entry bs =>
      obtain ⟨l, b⟩ := entry
      rw [compareEntries, Ordering.then_eq_lt, Ordering.then_eq_lt, Value.compare_eq_iff, Value.compare_eq_iff, ih,
        List.cons_lex_cons_iff, Prod.lex_def, Prod.mk.injEq, and_or_left, or_assoc, and_assoc]
      rfl

namespace Value

/-! ## Less or equal -/

variable {a b c : Value}

theorem not_before_self (a : Value) : ¬ a.Before a := by
  intro h
  rw [Before, (compare_eq_iff a a).mpr rfl] at h
  cases h

theorem Before.ne (h : a.Before b) : a ≠ b := by
  rintro rfl
  exact not_before_self a h

theorem isLE_iff : (a.compare b).isLE = true ↔ a.Before b ∨ a = b := by
  rw [Ordering.isLE_iff_eq_lt_or_eq_eq, compare_eq_iff]
  rfl

theorem isLE_total (a b : Value) : ((a.compare b).isLE || (b.compare a).isLE) = true := by
  rw [← compare_swap a b]
  cases a.compare b <;> rfl

theorem isLE_trans (hab : (a.compare b).isLE = true) (hbc : (b.compare c).isLE = true) :
    (a.compare c).isLE = true := by
  rcases isLE_iff.mp hab with hab | rfl
  · rcases isLE_iff.mp hbc with hbc | rfl
    · exact isLE_iff.mpr (.inl (before_trans a b c hab hbc))
    · exact isLE_iff.mpr (.inl hab)
  · exact hbc

theorem isLE_antisymm (hab : (a.compare b).isLE = true) (hba : (b.compare a).isLE = true) : a = b := by
  rcases isLE_iff.mp hab with hab | rfl
  · rcases isLE_iff.mp hba with hba | rfl
    · exact absurd (before_trans a b a hab hba) (not_before_self a)
    · rfl
  · rfl

/-! ## Sorting -/

theorem sort_perm (values : List Value) : (sort values).Perm values := List.mergeSort_perm ..

theorem sort_ascending (values : List Value) : (sort values).Pairwise fun a b => (a.compare b).isLE = true := by
  refine List.pairwise_mergeSort (fun a b c hab hbc => ?_) isLE_total values
  exact isLE_trans hab hbc

/-- Sorting depends only on what there is to sort. -/
theorem sort_eq_of_perm {as bs : List Value} (h : as.Perm bs) : sort as = sort bs := by
  refine List.Perm.eq_of_pairwise (fun _ _ _ _ => isLE_antisymm) (sort_ascending as) (sort_ascending bs) ?_
  exact (sort_perm as).trans (h.trans (sort_perm bs).symm)

/-! ## Dictionaries -/

/-- The keys ascend, so there is one entry for each. -/
def Ascending (entries : List (Value × Value)) : Prop := entries.Pairwise fun a b => a.1.Before b.1

instance (entries : List (Value × Value)) : Decidable (Ascending entries) :=
  inferInstanceAs (Decidable (List.Pairwise _ _))

def insertAll (base entries : List (Value × Value)) : List (Value × Value) :=
  entries.foldl (fun sorted entry => insertEntry entry.1 entry.2 sorted) base

variable {base entries entries' : List (Value × Value)} {entry : Value × Value} {key value : Value}

/-- An entry that is put into a dictionary takes the place of the one with its key. -/
theorem mem_insertEntry (h : Ascending entries) :
    entry ∈ insertEntry key value entries ↔ entry = (key, value) ∨ entry ∈ entries ∧ entry.1 ≠ key := by
  induction entries with
  | nil => simp [insertEntry]
  | cons first rest ih =>
    obtain ⟨k, v⟩ := first
    obtain ⟨hfirst, hrest⟩ := List.pairwise_cons.mp h
    unfold insertEntry
    cases hkey : key.compare k with
    | lt =>
      -- All the keys there are come after the new one.
      have hne : ∀ entry ∈ (k, v) :: rest, entry.1 ≠ key := by
        intro entry hmem heq
        rcases List.mem_cons.mp hmem with rfl | hmem
        · exact Before.ne hkey heq.symm
        · exact (before_trans key k entry.1 hkey (hfirst entry hmem)).ne heq.symm
      rw [List.mem_cons]
      exact or_congr_right ⟨fun hmem => ⟨hmem, hne entry hmem⟩, And.left⟩
    | eq =>
      obtain rfl := (compare_eq_iff key k).mp hkey
      have hne : ∀ entry ∈ rest, entry.1 ≠ key := fun entry hmem => (hfirst entry hmem).ne.symm
      rw [List.mem_cons, List.mem_cons]
      refine or_congr_right ⟨fun hmem => ⟨.inr hmem, hne entry hmem⟩, fun hmem => ?_⟩
      exact hmem.1.resolve_left fun heq => hmem.2 (by rw [heq])
    | gt =>
      have hne : k ≠ key := by
        rintro rfl
        rw [(compare_eq_iff k k).mpr rfl] at hkey
        cases hkey
      rw [List.mem_cons, List.mem_cons, ih hrest]
      constructor
      · rintro (rfl | rfl | ⟨hmem, hentry⟩)
        · exact .inr ⟨.inl rfl, hne⟩
        · exact .inl rfl
        · exact .inr ⟨.inr hmem, hentry⟩
      · rintro (rfl | ⟨rfl | hmem, hentry⟩)
        · exact .inr (.inl rfl)
        · exact .inl rfl
        · exact .inr (.inr ⟨hmem, hentry⟩)

theorem Ascending.insertEntry (h : Ascending entries) (key value : Value) :
    Ascending (insertEntry key value entries) := by
  induction entries with
  | nil => exact List.pairwise_singleton ..
  | cons first rest ih =>
    obtain ⟨k, v⟩ := first
    obtain ⟨hfirst, hrest⟩ := List.pairwise_cons.mp h
    unfold Value.insertEntry
    cases hkey : key.compare k with
    | lt =>
      refine List.pairwise_cons.mpr ⟨fun entry hmem => ?_, h⟩
      rcases List.mem_cons.mp hmem with rfl | hmem
      · exact hkey
      · exact before_trans key k entry.1 hkey (hfirst entry hmem)
    | eq =>
      obtain rfl := (compare_eq_iff key k).mp hkey
      exact List.pairwise_cons.mpr ⟨hfirst, hrest⟩
    | gt =>
      refine List.pairwise_cons.mpr ⟨fun entry hmem => ?_, ih hrest⟩
      rcases (mem_insertEntry hrest).mp hmem with rfl | ⟨hmem, -⟩
      · show k.compare key = .lt
        rw [← compare_swap, hkey]
        rfl
      · exact hfirst entry hmem

theorem Ascending.insertAll (h : Ascending base) (entries : List (Value × Value)) :
    Ascending (insertAll base entries) := by
  induction entries generalizing base with
  | nil => exact h
  | cons entry entries ih => exact ih (h.insertEntry entry.1 entry.2)

/-- Entries with different keys all get in, and leave what has none of their keys. -/
theorem mem_insertAll (h : Ascending base) (distinct : (entries.map Prod.fst).Nodup) :
    entry ∈ insertAll base entries ↔ entry ∈ entries ∨ entry ∈ base ∧ entry.1 ∉ entries.map Prod.fst := by
  induction entries generalizing base with
  | nil => simp [insertAll]
  | cons first entries ih =>
    obtain ⟨hfirst, hrest⟩ := List.nodup_cons.mp distinct
    have hinsert := ih (h.insertEntry first.1 first.2) hrest
    rw [mem_insertEntry h] at hinsert
    show entry ∈ insertAll (Value.insertEntry first.1 first.2 base) entries ↔ _
    rw [hinsert, List.mem_cons, List.map_cons, List.mem_cons, not_or]
    constructor
    · rintro (hmem | ⟨rfl | ⟨hmem, hne⟩, hfresh⟩)
      · exact .inl (.inr hmem)
      · exact .inl (.inl rfl)
      · exact .inr ⟨hmem, hne, hfresh⟩
    · rintro ((rfl | hmem) | ⟨hmem, hne, hfresh⟩)
      · exact .inr ⟨.inl rfl, hfirst⟩
      · exact .inl hmem
      · exact .inr ⟨.inr ⟨hmem, hne⟩, hfresh⟩

theorem Ascending.nodup_keys (h : Ascending entries) : (entries.map Prod.fst).Nodup :=
  List.pairwise_map.mpr (h.imp Before.ne)

theorem nodup_of_keys (distinct : (entries.map Prod.fst).Nodup) : entries.Nodup :=
  List.Pairwise.of_map Prod.fst (fun _ _ hne heq => hne (by rw [heq])) distinct

/-- Dictionaries with the same entries are equal. -/
theorem Ascending.eq_of_perm (h : Ascending entries) (h' : Ascending entries') (hperm : entries.Perm entries') :
    entries = entries' := by
  refine List.Perm.eq_of_pairwise (fun a b _ _ hab hba => ?_) h h' hperm
  exact absurd (before_trans a.1 b.1 a.1 hab hba) (not_before_self a.1)

theorem insertAll_perm (distinct : (entries.map Prod.fst).Nodup) : (insertAll [] entries).Perm entries := by
  have hascending : Ascending (insertAll [] entries) := Ascending.insertAll List.Pairwise.nil entries
  have hnodup := nodup_of_keys hascending.nodup_keys
  refine (List.perm_ext_iff_of_nodup hnodup (nodup_of_keys distinct)).mpr fun entry => ?_
  rw [mem_insertAll List.Pairwise.nil distinct]
  simp

theorem ofEntries_eq_of_perm (h : entries.Perm entries') (distinct : (entries.map Prod.fst).Nodup) :
    ofEntries entries = ofEntries entries' := by
  have distinct' : (entries'.map Prod.fst).Nodup := (h.map Prod.fst).nodup_iff.mp distinct
  refine congrArg Value.dictionary (Ascending.eq_of_perm ?_ ?_ ?_)
  · exact Ascending.insertAll List.Pairwise.nil entries
  · exact Ascending.insertAll List.Pairwise.nil entries'
  · exact (insertAll_perm distinct).trans (h.trans (insertAll_perm distinct').symm)

/-- A dictionary is what comes of putting its own entries into an empty one. -/
theorem Ascending.ofEntries_eq (h : Ascending entries) : ofEntries entries = .dictionary entries :=
  congrArg Value.dictionary ((Ascending.insertAll .nil entries).eq_of_perm h (insertAll_perm h.nodup_keys))

end Value

/-- Values are equal exactly if they compare as equal, and the order is total: reflexive,
    antisymmetric, transitive, and the same from both sides. Integers come before truth values, these
    before arrays, then dictionaries, then the unit value. Arrays are ordered lexicographically by their
    items and dictionaries by their entries, the key before the value. Sorting gives the values in
    ascending order, the same for every order they were in. The dictionaries that can be made are
    those with ascending keys, and entries with different keys make the same one in whatever order they
    are put into it. -/
theorem values_totally_ordered :
    (∀ a b : Value, a.compare b = .eq ↔ a = b) ∧
    (∀ a b : Value, b.compare a = (a.compare b).swap) ∧
    (∀ a : Value, (a.compare a).isLE) ∧
    (∀ a b : Value, (a.compare b).isLE → (b.compare a).isLE → a = b) ∧
    (∀ a b c : Value, (a.compare b).isLE → (b.compare c).isLE → (a.compare c).isLE) ∧
    (∀ a b : Value, (a.compare b).isLE ∨ (b.compare a).isLE) ∧
    [Kind.integer, .boolean, .array, .dictionary, .unit].Pairwise
      (fun k l => ∀ a b : Value, a.kind = k → b.kind = l → a.Before b) ∧
    (∀ as bs, (Value.array as).Before (.array bs) ↔ List.Lex Value.Before as bs) ∧
    (∀ as bs, (Value.dictionary as).Before (.dictionary bs) ↔
      List.Lex (Prod.Lex Value.Before Value.Before) as bs) ∧
    (∀ values, (Value.sort values).Perm values ∧
      (Value.sort values).Pairwise (fun a b => (a.compare b).isLE)) ∧
    (∀ as bs : List Value, as.Perm bs → Value.sort as = Value.sort bs) ∧
    (∀ sorted, Value.Ascending sorted ↔ ∃ entries, Value.ofEntries entries = .dictionary sorted) ∧
    ∀ entries entries', entries.Perm entries' → (entries.map Prod.fst).Nodup →
      Value.ofEntries entries = Value.ofEntries entries' ∧
        ∃ sorted, Value.ofEntries entries = .dictionary sorted ∧ sorted.Perm entries := by
  refine ⟨Value.compare_eq_iff, fun a b => (Value.compare_swap a b).symm, fun a => Value.isLE_iff.mpr (.inr rfl),
    fun _ _ => Value.isLE_antisymm, fun _ _ _ => Value.isLE_trans, fun a b => ?_, ?_,
    fun _ _ => compareItems_eq_lt_iff, fun _ _ => compareEntries_eq_lt_iff,
    fun values => ⟨Value.sort_perm values, Value.sort_ascending values⟩, fun _ _ => Value.sort_eq_of_perm,
    fun sorted => ⟨fun h => ⟨sorted, h.ofEntries_eq⟩, ?_⟩, fun entries entries' hperm distinct => ?_⟩
  · exact (Bool.or_eq_true ..).mp (Value.isLE_total a b)
  · have hkinds : [Kind.integer, .boolean, .array, .dictionary, .unit].Pairwise fun k l => k.rank < l.rank := by decide
    refine hkinds.imp fun hrank a b ha hb => Value.before_of_rank_lt ?_
    rwa [ha, hb]
  · rintro ⟨entries, hentries⟩
    rw [← Value.dictionary.inj hentries]
    exact Value.Ascending.insertAll .nil entries
  · exact ⟨Value.ofEntries_eq_of_perm hperm distinct, _, rfl, Value.insertAll_perm distinct⟩

def Value.keyed : List (Value × Value) :=
  [(.dictionary [(.int 1, .unit)], .bool true), (.array [.int 2], .unit), (.int (-3), .array [])]

theorem values_totally_ordered_keyed :
    Value.keyed.Perm Value.keyed.reverse ∧ (Value.keyed.map Prod.fst).Nodup ∧
      Value.ofEntries Value.keyed = Value.ofEntries Value.keyed.reverse ∧
        Value.ofEntries Value.keyed = .dictionary Value.keyed.reverse := by
  obtain ⟨-, -, -, -, -, -, -, -, -, -, -, -, hbuild⟩ := values_totally_ordered
  have hperm : Value.keyed.Perm Value.keyed.reverse := (List.reverse_perm _).symm
  have distinct : (Value.keyed.map Prod.fst).Nodup := by decide
  exact ⟨hperm, distinct, (hbuild _ _ hperm distinct).1, by decide⟩

end Scriptling
