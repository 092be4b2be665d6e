/-
  Scriptling.Value.Order — the order of values, and dictionaries.

  Values are ordered by kind first, then integers by size, false before true, arrays by their
  first difference and dictionaries by the first difference of their entries; a proper initial
  part comes before the whole.
  - `Value.compare_eq_iff`: two values compare equal exactly when they are equal.
  - `Value.ofEntries` makes a dictionary, `Value.sort` sorts a list of values.
-/

import Scriptling.Value

namespace Scriptling

mutual

def Value.compare : Value → Value → Ordering
  | .int m, .int n => Ord.compare m n
  | .bool a, .bool b => Ord.compare a b
  | .array as, .array bs => compareItems as bs
  | .dictionary as, .dictionary bs => compareEntries as bs
  | a, b => Ord.compare a.kind.rank b.kind.rank

def compareItems : List Value → List Value → Ordering
  | [], [] => .eq
  | [], _ :: _ => .lt
  | _ :: _, [] => .gt
  | a :: as, b :: bs => (a.compare b).then (compareItems as bs)

/-- The order of two lists of entries: by the first difference, the key before the value. -/
def compareEntries : List (Value × Value) → List (Value × Value) → Ordering
  | [], [] => .eq
  | [], _ :: _ => .lt
  | _ :: _, [] => .gt
  | (k, a) :: as, (l, b) :: bs => (k.compare l).then ((a.compare b).then (compareEntries as bs))

end

mutual

theorem Value.compare_eq_iff (a b : Value) : a.compare b = .eq ↔ a = b := by
  cases a <;> cases b <;>
    simp [Value.compare, Value.kind, Kind.rank, compareItems_eq_iff, compareEntries_eq_iff]

theorem compareItems_eq_iff (as bs : List Value) : compareItems as bs = .eq ↔ as = bs := by
  match as, bs with
  | [], [] => simp [compareItems]
  | [], _ :: _ => simp [compareItems]
  | _ :: _, [] => simp [compareItems]
  | a :: as, b :: bs =>
    simp [compareItems, Ordering.then_eq_eq, Value.compare_eq_iff, compareItems_eq_iff]

theorem compareEntries_eq_iff (as bs : List (Value × Value)) :
    compareEntries as bs = .eq ↔ as = bs := by
  match as, bs with
  | [], [] => simp [compareEntries]
  | [], _ :: _ => simp [compareEntries]
  | _ :: _, [] => simp [compareEntries]
  | (k, a) :: as, (l, b) :: bs =>
    simp [compareEntries, Ordering.then_eq_eq, Value.compare_eq_iff, compareEntries_eq_iff, and_assoc]

end

instance : DecidableEq Value := fun a b => decidable_of_iff _ (Value.compare_eq_iff a b)

namespace Value

/-- Puts an entry where its key belongs. An entry with the same key gives way. -/
def insertEntry (key value : Value) : List (Value × Value) → List (Value × Value)
  | [] => [(key, value)]
  | (k, v) :: rest =>
    match key.compare k with
    | .lt => (key, value) :: (k, v) :: rest
    | .eq => (key, value) :: rest
    | .gt => (k, v) :: insertEntry key value rest

/-- The dictionary of some entries. Of entries with the same key the last one counts. -/
def ofEntries (entries : List (Value × Value)) : Value :=
  .dictionary (entries.foldl (fun sorted entry => insertEntry entry.1 entry.2 sorted) [])

def sort (values : List Value) : List Value := values.mergeSort (fun a b => (a.compare b).isLE)

end Value

end Scriptling
