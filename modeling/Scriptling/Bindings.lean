/-
  Scriptling.Bindings — names and what they stand for.

  - `Bindings.find?_insert`: a name stands for what it was bound to last.
-/

namespace Scriptling

structure Bindings (α : Type) where
  entries : List (String × α) := []
  deriving Repr, Inhabited

namespace Bindings

variable {α : Type}

def empty : Bindings α := {}

def findIn (name : String) : List (String × α) → Option α
  | [] => none
  | (x, a) :: rest => if name = x then some a else findIn name rest

def find? (bindings : Bindings α) (name : String) : Option α := findIn name bindings.entries

def contains (bindings : Bindings α) (name : String) : Bool := (bindings.find? name).isSome

def insertInto (name : String) (a : α) : List (String × α) → List (String × α)
  | [] => [(name, a)]
  | (x, b) :: rest => if name = x then (name, a) :: rest else (x, b) :: insertInto name a rest

/-- Binds `name`, in the place of an older binding if there is one. -/
def insert (bindings : Bindings α) (name : String) (a : α) : Bindings α :=
  ⟨insertInto name a bindings.entries⟩

@[simp] theorem find?_empty (name : String) : (empty : Bindings α).find? name = none := rfl

theorem find?_insert (bindings : Bindings α) (name x : String) (a : α) :
    (bindings.insert name a).find? x = if x = name then some a else bindings.find? x := by
  obtain ⟨entries⟩ := bindings
  simp only [find?, insert]
  induction entries with
  | nil => simp [insertInto, findIn]
  | cons entry rest ih =>
    obtain ⟨y, b⟩ := entry
    by_cases hy : name = y
    · subst hy
      by_cases hx : x = name <;> simp [insertInto, findIn, hx]
    · by_cases hx : x = y
      · subst hx
        simp [insertInto, findIn, hy, Ne.symm hy]
      · simp [insertInto, findIn, hy, hx, ih]

@[simp] theorem find?_insert_self (bindings : Bindings α) (name : String) (a : α) :
    (bindings.insert name a).find? name = some a := by simp [find?_insert]

theorem mem_of_find? {bindings : Bindings α} {name : String} {a : α} (h : bindings.find? name = some a) :
    a ∈ bindings.entries.map Prod.snd := by
  unfold find? at h
  generalize bindings.entries = entries at h
  induction entries with
  | nil => cases h
  | cons entry entries ih =>
    unfold findIn at h
    split at h
    · cases h
      exact List.mem_cons_self ..
    · exact List.mem_cons_of_mem _ (ih h)

/-- Binding a name adds nothing but what it is bound to. -/
theorem mem_of_mem_insert {bindings : Bindings α} {name : String} {a b : α}
    (h : b ∈ (bindings.insert name a).entries.map Prod.snd) : b = a ∨ b ∈ bindings.entries.map Prod.snd := by
  unfold insert at h
  generalize bindings.entries = entries at h ⊢
  induction entries with
  | nil => exact .inl (List.mem_singleton.mp h)
  | cons entry entries ih =>
    unfold insertInto at h
    split at h
    · rcases List.mem_cons.mp h with h | h
      · exact .inl h
      · exact .inr (List.mem_cons_of_mem _ h)
    · rcases List.mem_cons.mp h with h | h
      · exact .inr (h ▸ List.mem_cons_self ..)
      · exact (ih h).imp id (List.mem_cons_of_mem _)

end Bindings

end Scriptling
