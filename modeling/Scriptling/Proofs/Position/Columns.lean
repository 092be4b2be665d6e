/-
  Scriptling.Proofs.Position.Columns — lines and columns, counted.

  The place that characters lead to is said here by counting: the line feeds before it, and the
  characters of its own line. For an offset the line feeds are counted among the bytes before it,
  since it may be inside a character.
  - `Position.afterAll_column`, `Position.afterBytes_line`: the column after some characters, the line
    of some offset.
  - `Position.afterBytes_boundary`: an offset is that of a boundary between characters, or else in the
    first column.
-/

import Scriptling.Position

namespace Scriptling

/-! ## Characters of one byte -/

def Narrow (text : List Char) : Prop := ∀ c ∈ text, c.utf8Size = 1

theorem narrow_of_all {text : List Char} (h : text.all (fun c => c.utf8Size == 1) = true) : Narrow text := by
  intro c hc
  exact eq_of_beq (List.all_eq_true.mp h c hc)

theorem Narrow.append {text more : List Char} (h : Narrow text) (h' : Narrow more) : Narrow (text ++ more) := by
  intro c hc
  rcases List.mem_append.mp hc with hc | hc
  · exact h c hc
  · exact h' c hc

theorem Narrow.byteSize_eq {text : List Char} (h : Narrow text) : byteSize text = text.length := by
  induction text with
  | nil => rfl
  | cons c text ih =>
    have hc := h c (List.mem_cons_self ..)
    have hrest := ih fun d hd => h d (List.mem_cons_of_mem _ hd)
    rw [byteSize_cons, List.length_cons]
    omega

/-! ## Bytes -/

def bytes (text : List Char) : List UInt8 := text.flatMap String.utf8EncodeChar

theorem bytes_cons (c : Char) (text : List Char) : bytes (c :: text) = String.utf8EncodeChar c ++ bytes text := rfl

theorem length_bytes (text : List Char) : (bytes text).length = byteSize text := by
  induction text with
  | nil => rfl
  | cons c text ih => rw [bytes_cons, List.length_append, String.length_utf8EncodeChar, ih, byteSize_cons]

theorem toUTF8_eq (source : String) : source.toUTF8.data.toList = bytes source.toList := by
  have hencode : source.toUTF8 = source.toList.utf8Encode := String.utf8Encode_toList.symm
  rw [hencode, List.utf8Encode, List.data_toByteArray]
  rfl

theorem utf8ByteSize_eq (source : String) : source.utf8ByteSize = byteSize source.toList := by
  rw [← length_bytes, ← toUTF8_eq, Array.length_toList]
  rfl

/-- Only a line feed has the byte of a line feed among its bytes. -/
theorem lineFeed_mem_iff {c : Char} : (10 : UInt8) ∈ String.utf8EncodeChar c ↔ c = '\n' := by
  constructor
  · intro h
    -- All bytes of a character of more than one byte have their highest bit set.
    have high {n : Nat} (hn : 128 ≤ n ∧ n < 256) : (10 : UInt8) ≠ UInt8.ofNat n := by
      intro heq
      have hnat := congrArg UInt8.toNat heq
      rw [UInt8.toNat_ofNat', Nat.mod_eq_of_lt hn.2] at hnat
      have hten : (10 : UInt8).toNat = 10 := rfl
      omega
    unfold String.utf8EncodeChar at h
    dsimp only at h
    split at h
    · rename_i hsmall
      have hnat := congrArg UInt8.toNat (List.mem_singleton.mp h)
      rw [UInt8.toNat_ofNat', Nat.mod_eq_of_lt (by omega)] at hnat
      exact Char.ext (UInt32.toNat_inj.mp hnat.symm)
    · split at h
      · simp only [List.mem_cons, List.not_mem_nil, or_false] at h
        rcases h with h | h <;> exact absurd h (high (by omega))
      · split at h
        · simp only [List.mem_cons, List.not_mem_nil, or_false] at h
          rcases h with h | h | h <;> exact absurd h (high (by omega))
        · simp only [List.mem_cons, List.not_mem_nil, or_false] at h
          rcases h with h | h | h | h <;> exact absurd h (high (by omega))
  · rintro rfl
    decide

/-- How many lines end within the first `offset` bytes of a text. -/
def lineFeedsBefore (text : List Char) (offset : Nat) : Nat := ((bytes text).take offset).count 10

theorem lineFeedsBefore_cons (c : Char) (text : List Char) {offset : Nat} (h : c.utf8Size ≤ offset) :
    lineFeedsBefore (c :: text) offset = (if c = '\n' then 1 else 0) + lineFeedsBefore text (offset - c.utf8Size) := by
  have hchar : (String.utf8EncodeChar c).count 10 = if c = '\n' then 1 else 0 := by
    split
    · rename_i hc
      rw [hc]
      rfl
    · rename_i hc
      exact List.count_eq_zero.mpr fun hmem => hc (lineFeed_mem_iff.mp hmem)
  rw [lineFeedsBefore, bytes_cons, List.take_append, List.count_append, String.length_utf8EncodeChar,
    List.take_of_length_le (by rw [String.length_utf8EncodeChar]; exact h), hchar]
  rfl

/-- There is no line feed inside a character. -/
theorem lineFeedsBefore_inside {c : Char} {offset : Nat} (h : offset < c.utf8Size) (text : List Char) :
    lineFeedsBefore (c :: text) offset = 0 := by
  refine List.count_eq_zero.mpr fun hmem => ?_
  rw [bytes_cons, List.take_append_of_le_length (by rw [String.length_utf8EncodeChar]; omega)] at hmem
  obtain rfl := lineFeed_mem_iff.mp (List.mem_of_mem_take hmem)
  -- A line feed itself has one byte, so no byte of it is before the offset.
  obtain rfl : offset = 0 := by
    have hone : ('\n').utf8Size = 1 := rfl
    omega
  cases hmem

namespace Position

/-! ## After characters -/

def StartsLine (front : List Char) : Prop := front = [] ∨ front.getLast? = some '\n'

/-- Within a line only the column goes on. -/
theorem afterAll_within {line : List Char} (h : '\n' ∉ line) (p : Position) :
    p.afterAll line = ⟨p.line, p.column + line.length⟩ := by
  induction line generalizing p with
  | nil => rfl
  | cons c line ih =>
    obtain ⟨hc, hline⟩ := not_or.mp (mt List.mem_cons.mpr h)
    rw [afterAll_cons, ih hline, advance, if_neg (Ne.symm hc), List.length_cons, Nat.add_comm line.length,
      ← Nat.add_assoc]

theorem StartsLine.column {front : List Char} (h : StartsLine front) : (start.afterAll front).column = 1 := by
  rcases h with rfl | h
  · rfl
  · obtain ⟨lines, rfl⟩ := List.getLast?_eq_some_iff.mp h
    rw [afterAll_append]
    rfl

/-- The characters of the last line are those after the last line feed. -/
theorem exists_lastLine (text : List Char) : ∃ front line, text = front ++ line ∧ StartsLine front ∧ '\n' ∉ line := by
  induction text with
  | nil => exact ⟨[], [], rfl, .inl rfl, List.not_mem_nil⟩
  | cons c text ih =>
    obtain ⟨front, line, rfl, hfront, hline⟩ := ih
    rcases hfront with rfl | hfront
    · by_cases hc : c = '\n'
      · exact ⟨[c], line, rfl, .inr (by rw [hc]; rfl), hline⟩
      · refine ⟨[], c :: line, rfl, .inl rfl, ?_⟩
        rw [List.mem_cons, not_or]
        exact ⟨Ne.symm hc, hline⟩
    · refine ⟨c :: front, line, rfl, .inr ?_, hline⟩
      obtain ⟨lines, rfl⟩ := List.getLast?_eq_some_iff.mp hfront
      exact List.getLast?_eq_some_iff.mpr ⟨c :: lines, rfl⟩

theorem afterAll_column {front line : List Char} (h : StartsLine front) (hline : '\n' ∉ line) :
    (start.afterAll (front ++ line)).column = 1 + line.length := by
  rw [afterAll_append, afterAll_within hline, h.column]

/-! ## After bytes -/

theorem afterBytes_append (p : Position) (before text : List Char) (offset : Nat) :
    p.afterBytes (before ++ text) (byteSize before + offset) = (p.afterAll before).afterBytes text offset := by
  induction before generalizing p with
  | nil => rw [byteSize_nil, Nat.zero_add]; rfl
  | cons c before ih =>
    have hpos := c.utf8Size_pos
    rw [List.cons_append, afterBytes, byteSize_cons, if_neg (by omega), if_neg (by omega), afterAll_cons, ← ih]
    congr 1
    omega

/-- An offset past the end stands for the end. -/
theorem afterBytes_min (p : Position) (text : List Char) (offset : Nat) :
    p.afterBytes text (min offset (byteSize text)) = p.afterBytes text offset := by
  induction text generalizing p offset with
  | nil => rfl
  | cons c text ih =>
    have hpos := c.utf8Size_pos
    rw [byteSize_cons, afterBytes, afterBytes]
    by_cases hzero : offset = 0
    · rw [if_pos (by omega), if_pos hzero]
    by_cases hinside : offset < c.utf8Size
    · rw [if_neg (by omega), if_neg hzero, if_pos (by omega), if_pos hinside]
    · rw [if_neg (by omega), if_neg hzero, if_neg (by omega), if_neg hinside, ← ih _ (offset - c.utf8Size)]
      congr 1
      omega

/-- The line of an offset is told by the bytes before it. -/
theorem afterBytes_line (p : Position) (text : List Char) (offset : Nat) :
    (p.afterBytes text offset).line = p.line + lineFeedsBefore text offset := by
  induction text generalizing p offset with
  | nil =>
    rw [lineFeedsBefore, bytes, List.flatMap_nil, List.take_nil]
    rfl
  | cons c text ih =>
    rw [afterBytes]
    by_cases hinside : offset < c.utf8Size
    · rw [lineFeedsBefore_inside hinside]
      by_cases hzero : offset = 0
      · rw [if_pos hzero]
        rfl
      · rw [if_neg hzero, if_pos hinside]
        rfl
    · have hpos := c.utf8Size_pos
      rw [if_neg (by omega), if_neg hinside, ih, lineFeedsBefore_cons c text (by omega), advance]
      split
      · exact Nat.add_assoc ..
      · rw [Nat.zero_add]

/-- The offset is that of a boundary between characters, or else inside one and so in the first
    column. -/
theorem afterBytes_boundary (p : Position) (text : List Char) {offset : Nat} (h : offset ≤ byteSize text) :
    (∃ before after, text = before ++ after ∧ byteSize before = offset) ∨ (p.afterBytes text offset).column = 1 := by
  induction text generalizing p offset with
  | nil => exact .inl ⟨[], [], rfl, (Nat.le_zero.mp h).symm⟩
  | cons c text ih =>
    rw [afterBytes]
    by_cases hzero : offset = 0
    · exact .inl ⟨[], _, rfl, hzero.symm⟩
    rw [if_neg hzero]
    by_cases hinside : offset < c.utf8Size
    · rw [if_pos hinside]
      exact .inr rfl
    rw [if_neg hinside]
    rw [byteSize_cons] at h
    rcases ih (p.advance c) (show offset - c.utf8Size ≤ byteSize text by omega) with ⟨before, after, rfl, hbefore⟩ | hfirst
    · exact .inl ⟨c :: before, after, rfl, by rw [byteSize_cons]; omega⟩
    · exact .inr hfirst

end Position

end Scriptling
