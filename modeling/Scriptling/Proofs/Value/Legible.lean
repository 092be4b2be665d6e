/-
  Scriptling.Proofs.Value.Legible — printed values can be told apart.

  What is printed for a value has no mark of its kind and none of its length. But its first character
  tells the kind (`Kind.ofFirst?`), and within arrays and dictionaries each value ends where it ends,
  whatever comes after it. Only a number goes on as long as there are digits, and no digit comes after
  a value: a comma, a colon or a closing bracket does.
  - `Legible`: the text is that of one thing only, and it is known where it ends.
  - `legible_row`, `legible_entry`: so it is with items in a row, and with a key and its value.
  - `Value.legible`: so it is with every value, by induction on the values in it.
  - `render_eq_iff`: values that are printed alike are equal.
-/

import Scriptling.Value
import Scriptling.Proofs.Lexeme.Piece

namespace Scriptling

variable {α : Type} {after after' : List Char}

/-! ## Texts that end where they end -/

def EndsNumber (after : List Char) : Prop := ∀ d, after.head? = some d → d.isDigit = false

theorem endsNumber_cons {c : Char} (h : c.isDigit = false) (more : List Char) : EndsNumber (c :: more) := by
  intro d hd
  cases hd
  exact h

/-- Where numbers end, the text of `a` is not that of anything else, also not together with what comes
    after it. -/
def Legible (text : α → List Char) (a : α) : Prop :=
  ∀ b after after', EndsNumber after → EndsNumber after' → text a ++ after = text b ++ after' → a = b ∧ after = after'

/-! ## Rows -/

def row (text : α → List Char) (items : List α) : List Char := [',', ' '].intercalate (items.map text)

/-- What comes after an item of a row: the other items, each after a comma, and then `close`. -/
def rowTail (text : α → List Char) (close : List Char) : List α → List Char
  | [] => close
  | a :: items => ',' :: ' ' :: (text a ++ rowTail text close items)

theorem row_cons (text : α → List Char) (a : α) (items : List α) (close : List Char) :
    row text (a :: items) ++ close = text a ++ rowTail text close items := by
  induction items generalizing a with
  | nil => simp [row, rowTail]
  | cons b items ih =>
    have hrest := ih b
    simp only [row, List.map_cons, List.intercalate_cons_cons, List.append_assoc] at hrest ⊢
    rw [hrest]
    rfl

section Row

variable {text : α → List Char}

theorem endsNumber_rowTail {close : Char} (hdigit : close.isDigit = false) (items : List α) :
    EndsNumber (rowTail text (close :: after) items) := by
  cases items with
  | nil => exact endsNumber_cons hdigit _
  | cons a items => exact endsNumber_cons rfl _

section Close

variable {close : Char} (hdigit : close.isDigit = false) (hcomma : close ≠ ',')
include hdigit hcomma

theorem legible_rowTail {as : List α} (h : ∀ a ∈ as, Legible text a) (bs : List α)
    (heq : rowTail text (close :: after) as = rowTail text (close :: after') bs) : as = bs ∧ after = after' := by
  induction as generalizing bs with
  | nil =>
    cases bs with
    | nil => exact ⟨rfl, (List.cons.inj heq).2⟩
    | cons b bs => exact absurd (List.cons.inj heq).1 hcomma
  | cons a as ih =>
    cases bs with
    | nil => exact absurd (List.cons.inj heq).1.symm hcomma
    | cons b bs =>
      have hitem := (List.cons.inj (List.cons.inj heq).2).2
      obtain ⟨rfl, htail⟩ := h a (List.mem_cons_self ..) b _ _ (endsNumber_rowTail hdigit as)
        (endsNumber_rowTail hdigit bs) hitem
      obtain ⟨rfl, hafter⟩ := ih (fun a ha => h a (List.mem_cons_of_mem _ ha)) bs htail
      exact ⟨rfl, hafter⟩

/-- A row of legible texts is legible up to what closes it, if no text begins with that. -/
theorem legible_row {as : List α} (h : ∀ a ∈ as, Legible text a) (hfirst : ∀ a, ∃ c more, text a = c :: more ∧ c ≠ close)
    (bs : List α) (heq : row text as ++ close :: after = row text bs ++ close :: after') : as = bs ∧ after = after' := by
  cases as with
  | nil =>
    cases bs with
    | nil => exact ⟨rfl, (List.cons.inj heq).2⟩
    | cons b bs =>
      obtain ⟨c, more, hb, hne⟩ := hfirst b
      rw [row_cons, hb] at heq
      exact absurd (List.cons.inj heq).1.symm hne
  | cons a as =>
    cases bs with
    | nil =>
      obtain ⟨c, more, ha, hne⟩ := hfirst a
      rw [row_cons, ha] at heq
      exact absurd (List.cons.inj heq).1 hne
    | cons b bs =>
      rw [row_cons, row_cons] at heq
      obtain ⟨rfl, htail⟩ := h a (List.mem_cons_self ..) b _ _ (endsNumber_rowTail hdigit as)
        (endsNumber_rowTail hdigit bs) heq
      obtain ⟨rfl, hafter⟩ := legible_rowTail hdigit hcomma (fun a ha => h a (List.mem_cons_of_mem _ ha)) bs htail
      exact ⟨rfl, hafter⟩

end Close

end Row

/-! ## Numbers -/

theorem legible_digits (n : Nat) : Legible (Nat.toDigits 10) n := by
  intro m after after' hafter hafter' heq
  have hdigits (n : Nat) : ∀ c ∈ Nat.toDigits 10 n, c.isDigit = true := fun c hc =>
    Nat.isDigit_of_mem_toDigits (by decide) (by decide) hc
  obtain ⟨htake, hdrop⟩ := takeWhile_of_ends (hdigits n) hafter
  obtain ⟨htake', hdrop'⟩ := takeWhile_of_ends (hdigits m) hafter'
  rw [heq] at htake hdrop
  have hvalue := congrArg (fun digits => Nat.ofDigitChars 10 digits 0) (htake.symm.trans htake')
  simp only [Nat.ofDigitChars_ten_toDigits] at hvalue
  exact ⟨hvalue, hdrop.symm.trans hdrop'⟩

theorem toDigits_begins (n : Nat) : ∃ c more, Nat.toDigits 10 n = c :: more ∧ c.isDigit = true := by
  cases hdigits : Nat.toDigits 10 n with
  | nil => exact absurd hdigits Nat.toDigits_ne_nil
  | cons c more =>
    have hc : c ∈ Nat.toDigits 10 n := by
      rw [hdigits]
      exact List.mem_cons_self ..
    exact ⟨c, more, rfl, Nat.isDigit_of_mem_toDigits (by decide) (by decide) hc⟩

theorem toString_ofNat (n : Nat) : (toString (Int.ofNat n)).toList = Nat.toDigits 10 n := by
  rw [Int.toString_eq_repr, Int.repr, Nat.toList_repr]

theorem toString_negSucc (n : Nat) : (toString (Int.negSucc n)).toList = '-' :: Nat.toDigits 10 (n + 1) := by
  rw [Int.toString_eq_repr, Int.repr, String.toList_append, Nat.toList_repr]
  rfl

theorem legible_int (n : Int) : Legible (fun n : Int => (toString n).toList) n := by
  intro m after after' hafter hafter' heq
  -- A sign is no digit, so either both numbers have it or none.
  have hsign {n m : Nat} {after after' : List Char} (heq : Nat.toDigits 10 n ++ after = '-' :: Nat.toDigits 10 m ++ after') :
      False := by
    obtain ⟨c, more, hdigits, hc⟩ := toDigits_begins n
    rw [hdigits] at heq
    obtain ⟨rfl, -⟩ := List.cons.inj heq
    cases hc
  cases n with
  | ofNat n =>
    cases m with
    | ofNat m =>
      simp only [toString_ofNat] at heq
      obtain ⟨rfl, hrest⟩ := legible_digits n m after after' hafter hafter' heq
      exact ⟨rfl, hrest⟩
    | negSucc m =>
      simp only [toString_ofNat, toString_negSucc] at heq
      exact (hsign heq).elim
  | negSucc n =>
    cases m with
    | ofNat m =>
      simp only [toString_ofNat, toString_negSucc] at heq
      exact (hsign heq.symm).elim
    | negSucc m =>
      simp only [toString_negSucc] at heq
      obtain ⟨hnumber, hrest⟩ := legible_digits (n + 1) (m + 1) after after' hafter hafter' (List.cons.inj heq).2
      obtain rfl := Nat.succ.inj hnumber
      exact ⟨rfl, hrest⟩

/-! ## Kinds -/

/-- The kind of the values whose text begins with the character, if there are such values. -/
def Kind.ofFirst? (c : Char) : Option Kind :=
  if c.isDigit then some .integer
  else
    match c with
    | '-' => some .integer
    | 't' | 'f' => some .boolean
    | '[' => some .array
    | '{' => some .dictionary
    | '(' => some .unit
    | _ => none

namespace Value

theorem renderItems_eq_map (items : List Value) : renderItems items = items.map render := by
  induction items with
  | nil => rfl
  | cons v vs ih => rw [renderItems, ih, List.map_cons]

theorem renderEntries_eq_map (entries : List (Value × Value)) :
    renderEntries entries = entries.map fun entry => entry.1.render ++ ": " ++ entry.2.render := by
  induction entries with
  | nil => rfl
  | cons entry rest ih => rw [renderEntries, ih, List.map_cons]

def text (v : Value) : List Char := v.render.toList

def entryText (entry : Value × Value) : List Char := entry.1.text ++ ':' :: ' ' :: entry.2.text

theorem text_array (items : List Value) : (array items).text = '[' :: (row text items ++ [']']) := by
  simp only [text, render, row, renderItems_eq_map, String.toList_append, String.toList_intercalate, List.map_map]
  rfl

theorem text_dictionary (entries : List (Value × Value)) :
    (dictionary entries).text = '{' :: (row entryText entries ++ ['}']) := by
  have hentry : (String.toList ∘ fun entry : Value × Value => entry.1.render ++ ": " ++ entry.2.render) = entryText := by
    funext entry
    simp [entryText, text]
  simp only [text, render, row, renderEntries_eq_map, String.toList_append, String.toList_intercalate, List.map_map,
    hentry]
  rfl

/-- The first character of a printed value tells its kind. -/
theorem text_begins (v : Value) : ∃ c more, v.text = c :: more ∧ Kind.ofFirst? c = some v.kind := by
  cases v with
  | int n =>
    cases n with
    | ofNat n =>
      obtain ⟨c, more, hdigits, hc⟩ := toDigits_begins n
      exact ⟨c, more, (toString_ofNat n).trans hdigits, if_pos hc⟩
    | negSucc n => exact ⟨'-', _, toString_negSucc n, rfl⟩
  | bool b =>
    cases b with
    | false => exact ⟨'f', _, rfl, rfl⟩
    | true => exact ⟨'t', _, rfl, rfl⟩
  | array items => exact ⟨'[', _, text_array items, rfl⟩
  | dictionary entries => exact ⟨'{', _, text_dictionary entries, rfl⟩
  | unit => exact ⟨'(', _, rfl, rfl⟩

theorem kind_eq_of_text {v w : Value} (h : v.text ++ after = w.text ++ after') : v.kind = w.kind := by
  obtain ⟨c, more, hv, hkind⟩ := text_begins v
  obtain ⟨d, more', hw, hkind'⟩ := text_begins w
  rw [hv, hw] at h
  obtain ⟨rfl, -⟩ := List.cons.inj h
  exact Option.some.inj (hkind.symm.trans hkind')

/-- No value begins with a character that begins none. -/
theorem text_first_ne {close : Char} (h : Kind.ofFirst? close = none) (v : Value) :
    ∃ c more, v.text = c :: more ∧ c ≠ close := by
  obtain ⟨c, more, hv, hkind⟩ := text_begins v
  refine ⟨c, more, hv, ?_⟩
  rintro rfl
  rw [h] at hkind
  cases hkind

/-! ## Values -/

theorem legible_entry {k v : Value} (hk : Legible text k) (hv : Legible text v) : Legible entryText (k, v) := by
  rintro ⟨l, w⟩ after after' hafter hafter' heq
  simp only [entryText, List.append_assoc, List.cons_append] at heq
  obtain ⟨rfl, hvalue⟩ := hk l _ _ (endsNumber_cons rfl _) (endsNumber_cons rfl _) heq
  obtain ⟨rfl, hrest⟩ := hv w _ _ hafter hafter' (List.cons.inj (List.cons.inj hvalue).2).2
  exact ⟨rfl, hrest⟩

theorem legible_array {items : List Value} (h : ∀ v ∈ items, Legible text v) : Legible text (array items) := by
  intro w after after' _ _ heq
  have hkind := kind_eq_of_text heq
  cases w with
  | array items' =>
    simp only [text_array, List.cons_append, List.append_assoc, List.nil_append] at heq
    obtain ⟨rfl, hrest⟩ := legible_row rfl (by decide) h (text_first_ne (by decide)) items' (List.cons.inj heq).2
    exact ⟨rfl, hrest⟩
  | int _ | bool _ | dictionary _ | unit => cases hkind

theorem legible_dictionary {entries : List (Value × Value)} (h : ∀ entry ∈ entries, Legible entryText entry) :
    Legible text (dictionary entries) := by
  intro w after after' _ _ heq
  have hkind := kind_eq_of_text heq
  have hfirst (entry : Value × Value) : ∃ c more, entryText entry = c :: more ∧ c ≠ '}' := by
    obtain ⟨c, more, hkey, hne⟩ := text_first_ne (show Kind.ofFirst? '}' = none by decide) entry.1
    exact ⟨c, _, by rw [entryText, hkey]; rfl, hne⟩
  cases w with
  | dictionary entries' =>
    simp only [text_dictionary, List.cons_append, List.append_assoc, List.nil_append] at heq
    obtain ⟨rfl, hrest⟩ := legible_row rfl (by decide) h hfirst entries' (List.cons.inj heq).2
    exact ⟨rfl, hrest⟩
  | int _ | bool _ | array _ | unit => cases hkind

end Value

mutual

theorem Value.legible (v : Value) : Legible Value.text v := by
  match v with
  | .int n =>
    intro w after after' hafter hafter' heq
    have hkind := Value.kind_eq_of_text heq
    cases w with
    | int m =>
      obtain ⟨rfl, hrest⟩ := legible_int n m after after' hafter hafter' heq
      exact ⟨rfl, hrest⟩
    | bool _ | array _ | dictionary _ | unit => cases hkind
  | .bool b =>
    intro w after after' _ _ heq
    have hkind := Value.kind_eq_of_text heq
    cases w with
    | bool b' =>
      cases b <;> cases b'
      · exact ⟨rfl, List.append_cancel_left heq⟩
      · exact absurd (List.cons.inj heq).1 (by decide)
      · exact absurd (List.cons.inj heq).1 (by decide)
      · exact ⟨rfl, List.append_cancel_left heq⟩
    | int _ | array _ | dictionary _ | unit => cases hkind
  | .array items => exact Value.legible_array (items_legible items)
  | .dictionary entries => exact Value.legible_dictionary (entries_legible entries)
  | .unit =>
    intro w after after' _ _ heq
    have hkind := Value.kind_eq_of_text heq
    cases w with
    | unit => exact ⟨rfl, List.append_cancel_left heq⟩
    | int _ | bool _ | array _ | dictionary _ => cases hkind

theorem items_legible (items : List Value) : ∀ v ∈ items, Legible Value.text v := by
  match items with
  | [] => intro v hv; cases hv
  | w :: ws =>
    intro v hv
    rcases List.mem_cons.mp hv with heq | hv
    · rw [heq]
      exact w.legible
    · exact items_legible ws v hv

theorem entries_legible (entries : List (Value × Value)) : ∀ entry ∈ entries, Legible Value.entryText entry := by
  match entries with
  | [] => intro entry hentry; cases hentry
  | (k, v) :: rest =>
    intro entry hentry
    rcases List.mem_cons.mp hentry with heq | hentry
    · rw [heq]
      exact Value.legible_entry k.legible v.legible
    · exact entries_legible rest entry hentry

end

/-- Values are printed alike only if they are equal, of whatever kinds they are and however deep arrays
    and dictionaries are nested in them. -/
theorem render_eq_iff (v w : Value) : v.render = w.render ↔ v = w := by
  refine ⟨fun h => ?_, congrArg Value.render⟩
  have hends : EndsNumber [] := fun _ hd => by cases hd
  have htext : v.text ++ [] = w.text ++ [] := by rw [Value.text, Value.text, h]
  exact (v.legible w [] [] hends hends htext).1

end Scriptling
