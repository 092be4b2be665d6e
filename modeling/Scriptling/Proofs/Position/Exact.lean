/-
  Scriptling.Proofs.Position.Exact — positions are found exactly, by reading and by searching.

  The lines of an index are those that begin after the line feeds of its text, in order. The search
  finds the last of them that begins at or before an offset, and from there the column is the distance
  in bytes or the number of characters.
  - `LineIndex.exists_line`: the line of an offset among the lines of a text, by induction on the text.
    Both ways to the column lead to the position that reading the whole text leads to.
  - `LineIndex.search_eq`: the search finds it.
  - `Position.ofOffset_lt`: positions grow from each boundary between characters to the next.
  - `positions_exact`: what the position of an offset is, and that lexemes stand at different ones.
-/

import Scriptling.LineIndex
import Scriptling.Proofs.Grammar.Place
import Scriptling.Proofs.Position.Columns

namespace Scriptling

/-! ## The lines of a text -/

namespace LineIndex

def laterLines (offset : Nat) : List Char → List Line
  | [] => []
  | c :: text =>
    if c = '\n' then ⟨offset + 1, text⟩ :: laterLines (offset + 1) text
    else laterLines (offset + c.utf8Size) text

theorem toList_linesFrom (lines : Array Line) (offset : Nat) (text : List Char) :
    (linesFrom lines offset text).toList = lines.toList ++ laterLines offset text := by
  induction text generalizing lines offset with
  | nil => simp [linesFrom, laterLines]
  | cons c text ih =>
    rw [linesFrom, laterLines]
    split
    · rw [ih]
      simp
    · exact ih lines _

theorem lt_of_mem_laterLines {offset : Nat} {text : List Char} {line : Line} (h : line ∈ laterLines offset text) :
    offset < line.start := by
  induction text generalizing offset with
  | nil => cases h
  | cons c text ih =>
    have hpos := c.utf8Size_pos
    rw [laterLines] at h
    split at h
    · rcases List.mem_cons.mp h with rfl | h
      · exact Nat.lt_succ_self offset
      · have := ih h
        omega
    · have := ih h
      omega

/-- Within the first character no line begins. -/
theorem le_of_mem_laterLines {offset : Nat} {c : Char} {text : List Char} {line : Line}
    (h : line ∈ laterLines offset (c :: text)) : offset + c.utf8Size ≤ line.start := by
  rw [laterLines] at h
  split at h
  · rename_i hc
    have hone : c.utf8Size = 1 := by rw [hc]; rfl
    rcases List.mem_cons.mp h with rfl | h
    · exact Nat.le_of_eq (by rw [hone])
    · have := lt_of_mem_laterLines h
      omega
  · exact Nat.le_of_lt (lt_of_mem_laterLines h)

/-! ## The line of an offset -/

/-- Among the lines, `line` is the last one that begins at or before the offset. -/
structure IsLineOf (lines : List Line) (offset : Nat) (earlier : List Line) (line : Line) (later : List Line) : Prop where
  eq : lines = earlier ++ line :: later
  earlier_le : ∀ l ∈ earlier, l.start ≤ offset
  line_le : line.start ≤ offset
  later_gt : ∀ l ∈ later, offset < l.start

/-- Before a line feed is reached, the column is the distance in bytes, if each character has one. -/
theorem column_of_narrow {seen text : List Char} (hseen : '\n' ∉ seen) (hnarrow : Narrow (seen ++ text)) (number : Nat) :
    Position.afterBytes ⟨number, 1⟩ (seen ++ text) (byteSize seen) = ⟨number, byteSize seen + 1⟩ := by
  have hsize := Narrow.byteSize_eq fun c hc => hnarrow c (List.mem_append_left text hc)
  rw [Position.afterBytes_byteSize, Position.afterAll_within hseen, hsize, Nat.add_comm]

/-- After a line feed the next line is counted from its beginning. -/
theorem afterBytes_lineFeed {seen : List Char} (hseen : '\n' ∉ seen) (text : List Char) (number offset : Nat) :
    Position.afterBytes ⟨number, 1⟩ (seen ++ '\n' :: text) (byteSize seen + 1 + offset) =
      Position.afterBytes ⟨number + 1, 1⟩ text offset := by
  have hread := Position.afterBytes_append ⟨number, 1⟩ (seen ++ ['\n']) text offset
  rw [Position.afterAll_append, Position.afterAll_within hseen, byteSize_append, List.append_assoc] at hread
  exact hread

/-- In a text of which `seen` has been read since the line `current` began, the line of an offset is the
    current one or one that begins later. Both ways to the column lead to the position of the offset. -/
theorem exists_line (current : Line) (seen : List Char) {text : List Char} (hcurrent : current.text = seen ++ text)
    (hseen : '\n' ∉ seen) {offset : Nat} (hoffset : current.start + byteSize seen ≤ offset) (number : Nat) :
    ∃ earlier line later,
      IsLineOf (current :: laterLines (current.start + byteSize seen) text) offset earlier line later ∧
      Position.afterBytes ⟨number + earlier.length, 1⟩ line.text (offset - line.start) =
        Position.afterBytes ⟨number, 1⟩ current.text (offset - current.start) ∧
      (Narrow current.text → offset ≤ current.start + byteSize current.text →
        (⟨number + earlier.length, offset - line.start + 1⟩ : Position) =
          Position.afterBytes ⟨number, 1⟩ current.text (offset - current.start)) := by
  -- What is left of the text goes down, as characters are seen or a line begins.
  induction text generalizing current seen number with
  | nil =>
    refine ⟨[], current, [], ⟨rfl, by simp, by omega, by simp⟩, rfl, fun hnarrow hend => ?_⟩
    rw [hcurrent] at hnarrow hend ⊢
    rw [List.append_nil] at hend
    obtain rfl : offset = current.start + byteSize seen := by omega
    rw [Nat.add_sub_cancel_left, column_of_narrow hseen hnarrow]
    rfl
  | cons c text ih =>
    by_cases hinside : offset < current.start + byteSize seen + c.utf8Size
    · -- The offset is at the first character or inside it.
      refine ⟨[], current, _, ⟨rfl, by simp, by omega, fun l hl => ?_⟩, rfl, fun hnarrow _ => ?_⟩
      · have := le_of_mem_laterLines hl
        omega
      · rw [hcurrent] at hnarrow ⊢
        have hone := hnarrow c (by simp)
        obtain rfl : offset = current.start + byteSize seen := by omega
        rw [Nat.add_sub_cancel_left, column_of_narrow hseen hnarrow]
        rfl
    · by_cases hc : c = '\n'
      · -- A line begins, and it is the current one for what comes after.
        subst hc
        have hone : ('\n').utf8Size = 1 := rfl
        obtain ⟨k, rfl⟩ := Nat.exists_eq_add_of_le (show current.start + byteSize seen + 1 ≤ offset by omega)
        obtain ⟨earlier, line, later, hline, hcount, hdistance⟩ :=
          ih ⟨current.start + byteSize seen + 1, text⟩ [] rfl List.not_mem_nil
            (by simp only [byteSize_nil]; omega) (number + 1)
        have hread : Position.afterBytes ⟨number, 1⟩ current.text (current.start + byteSize seen + 1 + k - current.start) =
            Position.afterBytes ⟨number + 1, 1⟩ text k := by
          rw [hcurrent, ← afterBytes_lineFeed hseen]
          congr 1
          omega
        rw [Nat.add_sub_cancel_left] at hcount hdistance
        have hnumber : number + (current :: earlier).length = number + 1 + earlier.length := by
          rw [List.length_cons]
          omega
        refine ⟨current :: earlier, line, later, ⟨?_, ?_, hline.line_le, hline.later_gt⟩, ?_, fun hnarrow hend => ?_⟩
        · rw [laterLines, if_pos rfl, List.cons_append, ← hline.eq]
          rfl
        · exact List.forall_mem_cons.mpr ⟨by omega, hline.earlier_le⟩
        · rw [hread, hnumber, hcount]
        · rw [hcurrent] at hnarrow hend
          simp only [byteSize_append, byteSize_cons] at hend
          rw [hread, hnumber]
          exact hdistance (fun c hc => hnarrow c (by simp [hc])) (by simp only; omega)
      · obtain ⟨earlier, line, later, hline, hanswer⟩ :=
          ih current (seen ++ [c]) (by simp [hcurrent]) (by simp [hseen, Ne.symm hc])
            (by simp only [byteSize_append, byteSize_cons, byteSize_nil]; omega) number
        refine ⟨earlier, line, later, ?_, hanswer⟩
        rw [laterLines, if_neg hc, Nat.add_assoc]
        simpa using hline

/-! ## Searching -/

/-- The search finds how many lines begin at or before the offset, if they are all in front. -/
theorem search_eq {index : LineIndex} {offset count : Nat} (h : ∀ k, index.beginsBy offset k = decide (k < count))
    {low high : Nat} (hlow : low ≤ count) (hhigh : count ≤ high) : index.search offset low high = count := by
  fun_induction index.search offset low high with
  | case1 low high hlt middle hbegins ih =>
    rw [h, decide_eq_true_eq] at hbegins
    exact ih hbegins hhigh
  | case2 low high hlt middle hbegins ih =>
    rw [h, decide_eq_true_eq] at hbegins
    exact ih hlow (Nat.not_lt.mp hbegins)
  | case3 low high hge => omega

section Searched

variable {index : LineIndex} {offset : Nat} {earlier later : List Line} {line : Line}
  (h : IsLineOf index.lines.toList offset earlier line later)
include h

theorem IsLineOf.beginsBy_eq (k : Nat) : index.beginsBy offset k = decide (k < earlier.length + 1) := by
  rw [beginsBy, ← Array.getElem?_toList, h.eq]
  by_cases hearlier : k < earlier.length
  · rw [List.getElem?_append_left hearlier, List.getElem?_eq_getElem hearlier, Option.any_some]
    have hle := h.earlier_le _ (List.getElem_mem hearlier)
    exact decide_eq_decide.mpr ⟨fun _ => by omega, fun _ => hle⟩
  · rw [List.getElem?_append_right (Nat.not_lt.mp hearlier)]
    cases hk : k - earlier.length with
    | zero =>
      rw [List.getElem?_cons_zero, Option.any_some]
      exact decide_eq_decide.mpr ⟨fun _ => by omega, fun _ => h.line_le⟩
    | succ j =>
      rw [List.getElem?_cons_succ, decide_eq_false (by omega : ¬ k < earlier.length + 1)]
      cases hlater : later[j]? with
      | none => rfl
      | some l =>
        have hgt := h.later_gt l (List.mem_of_getElem? hlater)
        exact decide_eq_false (by omega)

/-- The line of an offset is found by searching all lines. -/
theorem IsLineOf.search_eq : index.search offset 0 index.lines.size = earlier.length + 1 := by
  refine LineIndex.search_eq h.beginsBy_eq (Nat.zero_le _) ?_
  have hlength := congrArg List.length h.eq
  simp only [Array.length_toList, List.length_append, List.length_cons] at hlength
  omega

theorem IsLineOf.getElem?_eq : index.lines[earlier.length]? = some line := by
  rw [← Array.getElem?_toList, h.eq]
  simp

end Searched

theorem IsLineOf.position_eq (index : LineIndex) {offset : Nat} {earlier later : List Line} {line : Line}
    (h : IsLineOf index.lines.toList (min offset index.size) earlier line later) :
    index.position offset =
      if index.ascii then ⟨1 + earlier.length, min offset index.size - line.start + 1⟩
      else Position.afterBytes ⟨1 + earlier.length, 1⟩ line.text (min offset index.size - line.start) := by
  simp only [position]
  rw [h.search_eq, Nat.add_sub_cancel, h.getElem?_eq, Option.getD_some, Nat.add_comm]

/-- Both ways to the column give the position that reading the text gives, the distance in bytes where
    all characters have one. -/
theorem position_eq (source : String) (ascii : Bool) (hascii : ascii = true → Narrow source.toList) (offset : Nat) :
    { ofText source with ascii }.position offset = Position.ofOffset source offset := by
  obtain ⟨earlier, line, later, hline, hcount, hdistance⟩ :=
    exists_line ⟨0, source.toList⟩ [] rfl List.not_mem_nil
      (Nat.zero_le (min offset (byteSize source.toList))) 1
  have hlines : (ofText source).lines.toList = ⟨0, source.toList⟩ :: laterLines 0 source.toList := by
    rw [ofText, toList_linesFrom]
    rfl
  have hfound : IsLineOf (ofText source).lines.toList (min offset (byteSize source.toList)) earlier line later :=
    hlines ▸ hline
  have hread : Position.afterBytes ⟨1, 1⟩ source.toList (min offset (byteSize source.toList)) =
      Position.ofOffset source offset := Position.afterBytes_min _ _ _
  refine (IsLineOf.position_eq { ofText source with ascii } hfound).trans (Eq.trans ?_ hread)
  cases ascii with
  | true => exact hdistance (hascii rfl) (Nat.le_trans (Nat.min_le_right _ _) (Nat.le_add_left _ _))
  | false => exact hcount

end LineIndex

/-! ## Boundaries -/

/-- The offset is that of a boundary between characters, the end included. -/
def IsBoundary (source : String) (offset : Nat) : Prop :=
  ∃ before after, source.toList = before ++ after ∧ byteSize before = offset

theorem isBoundary_iff {source : String} {offset : Nat} :
    IsBoundary source offset ↔
      ∃ k ∈ List.range (source.toList.length + 1), byteSize (source.toList.take k) = offset := by
  constructor
  · rintro ⟨before, after, hsource, hsize⟩
    refine ⟨before.length, ?_, by rw [hsource, List.take_left, hsize]⟩
    rw [List.mem_range, hsource, List.length_append]
    omega
  · rintro ⟨k, -, hsize⟩
    exact ⟨_, _, (List.take_append_drop k _).symm, hsize⟩

instance (source : String) (offset : Nat) : Decidable (IsBoundary source offset) := decidable_of_iff' _ isBoundary_iff

def IsAscii (source : String) : Prop := ∀ c ∈ source.toList, c.toNat < 128

instance (source : String) : Decidable (IsAscii source) :=
  List.decidableBAll (fun c : Char => c.toNat < 128) source.toList

theorem IsAscii.narrow {source : String} (h : IsAscii source) : Narrow source.toList := by
  intro c hc
  have hlt := h c hc
  refine Char.utf8Size_eq_one_iff.mpr (UInt32.le_iff_toNat_le.mpr ?_)
  exact Nat.le_of_lt_succ hlt

theorem Narrow.isBoundary {source : String} (h : Narrow source.toList) {offset : Nat}
    (hle : offset ≤ byteSize source.toList) : IsBoundary source offset := by
  refine ⟨source.toList.take offset, source.toList.drop offset, (List.take_append_drop _ _).symm, ?_⟩
  have hnarrow : Narrow (source.toList.take offset) := fun c hc => h c (List.mem_of_mem_take hc)
  rw [h.byteSize_eq] at hle
  rw [hnarrow.byteSize_eq, List.length_take]
  omega

namespace Position

/-- The later of two boundaries is at the greater position. -/
theorem ofOffset_lt {source : String} {offset offset' : Nat} (h : IsBoundary source offset)
    (h' : IsBoundary source offset') (hlt : offset < offset') : ofOffset source offset < ofOffset source offset' := by
  obtain ⟨before, after, hsource, rfl⟩ := h
  obtain ⟨before', after', hsource', rfl⟩ := h'
  rw [ofOffset_byteSize hsource, ofOffset_byteSize hsource']
  obtain ⟨mid, rfl, -⟩ | ⟨mid, rfl, -⟩ := List.append_eq_append_iff.mp (hsource.symm.trans hsource')
  · have hne : mid ≠ [] := by
      rintro rfl
      simp at hlt
    rw [afterAll_append]
    exact lt_afterAll _ hne
  · rw [byteSize_append] at hlt
    omega

end Position

/-! ## Lexemes -/

def Lexemes.offsets (source : String) (lexemes : Lexemes) : List Nat :=
  lexemes.list.map Lexeme.start ++ [source.utf8ByteSize]

theorem Lexeme.scan_offsets {source : String} {lexemes : Lexemes} (h : scan source = .ok lexemes) :
    (∀ offset ∈ lexemes.offsets source, IsBoundary source offset) ∧ (lexemes.offsets source).Pairwise (· < ·) := by
  obtain ⟨hseg, -⟩ := scan_eq_ok_iff.mp h
  have hlexeme (x : Lexeme) (hx : x ∈ lexemes.list) : IsBoundary source x.start ∧ x.start < x.stop ∧
      x.stop ≤ source.utf8ByteSize := by
    obtain ⟨text, after, hstands, hs, -⟩ := hseg.stands rfl hx
    obtain ⟨before, hsource, hstart, -⟩ := hstands.split
    rw [List.append_assoc] at hsource
    rw [utf8ByteSize_eq]
    exact ⟨⟨before, text ++ after, hsource, hstart⟩, hstands.start_lt hs.ne_nil, hstands.stop_le⟩
  constructor
  · intro offset hmem
    rcases List.mem_append.mp hmem with hmem | hmem
    · obtain ⟨x, hx, rfl⟩ := List.mem_map.mp hmem
      exact (hlexeme x hx).1
    · rw [List.mem_singleton.mp hmem, utf8ByteSize_eq]
      exact ⟨source.toList, [], (List.append_nil _).symm, rfl⟩
  · refine List.pairwise_append.mpr ⟨?_, List.pairwise_singleton .., ?_⟩
    · refine List.pairwise_map.mpr (hseg.ordered.2.imp_of_mem fun {x y} hx _ hle => ?_)
      exact Nat.lt_of_lt_of_le (hlexeme x hx).2.1 hle
    · intro start hmem size hsize
      obtain ⟨x, hx, rfl⟩ := List.mem_map.mp hmem
      rw [List.mem_singleton.mp hsize]
      exact Nat.lt_of_lt_of_le (hlexeme x hx).2.1 (hlexeme x hx).2.2

theorem Lexeme.scan_positions {source : String} {lexemes : Lexemes} (h : scan source = .ok lexemes) :
    lexemes.list.map Lexeme.position ++ [lexemes.stop] =
      (lexemes.offsets source).map (Position.ofOffset source) := by
  obtain ⟨hseg, hstop⟩ := scan_eq_ok_iff.mp h
  rw [Lexemes.offsets, List.map_append, List.map_map, hstop, ← utf8ByteSize_eq]
  congr 1
  refine List.map_congr_left fun x hx => ?_
  obtain ⟨text, after, hstands, -⟩ := hseg.stands rfl hx
  exact hstands.place

/-- Let `o` be the offset, or the length of the text in bytes if that is less. The line is counted by
    the line feeds among the bytes before `o`. At a boundary between characters, and so everywhere in an
    ASCII text, the column is counted by the characters after the last line feed before `o`, and inside a
    character it is the first one. Searching an index of the text gives the same position, in an
    ASCII text on either way to the column. Positions grow from boundary to boundary, so all lexemes of a
    text, and its end, are at different ones. -/
theorem positions_exact (source : String) :
    (∀ offset o, o = min offset source.utf8ByteSize →
      (Position.ofOffset source offset).line = 1 + (source.toUTF8.data.toList.take o).count 10 ∧
      (IsBoundary source o ∨ IsAscii source → ∃ before line after, source.toList = before ++ line ++ after ∧
        byteSize (before ++ line) = o ∧ Position.StartsLine before ∧ '\n' ∉ line ∧
          (Position.ofOffset source offset).column = 1 + line.length) ∧
      (¬ (IsBoundary source o ∨ IsAscii source) → (Position.ofOffset source offset).column = 1) ∧
      (LineIndex.ofText source).position offset = Position.ofOffset source offset ∧
      (IsAscii source → ∀ ascii,
        { LineIndex.ofText source with ascii }.position offset = Position.ofOffset source offset)) ∧
    (∀ o o', IsBoundary source o → IsBoundary source o' → o < o' →
      Position.ofOffset source o < Position.ofOffset source o') ∧
    ∀ lexemes, Lexeme.scan source = .ok lexemes →
      lexemes.list.map Lexeme.position ++ [lexemes.stop] =
        (lexemes.list.map Lexeme.start ++ [source.utf8ByteSize]).map (Position.ofOffset source) ∧
      (lexemes.list.map Lexeme.position ++ [lexemes.stop]).Pairwise (· < ·) ∧
      (lexemes.list.map Lexeme.position ++ [lexemes.stop]).Nodup := by
  refine ⟨fun offset o ho => ?_, fun o o' => Position.ofOffset_lt, fun lexemes hscan => ?_⟩
  · have hclamp : Position.ofOffset source offset = Position.start.afterBytes source.toList o := by
      rw [ho, utf8ByteSize_eq, Position.afterBytes_min]
      rfl
    have hle : o ≤ byteSize source.toList := by
      rw [← utf8ByteSize_eq]
      omega
    have hboundary : IsBoundary source o ∨ IsAscii source → IsBoundary source o := by
      rintro (h | h)
      · exact h
      · exact h.narrow.isBoundary hle
    refine ⟨?_, fun h => ?_, fun h => ?_, ?_, fun h ascii => ?_⟩
    · rw [hclamp, Position.afterBytes_line, toUTF8_eq]
      rfl
    · obtain ⟨text, after, hsource, hsize⟩ := hboundary h
      obtain ⟨before, line, rfl, hstarts, hline⟩ := Position.exists_lastLine text
      refine ⟨before, line, after, hsource, hsize, hstarts, hline, ?_⟩
      rw [hclamp, ← hsize, hsource, Position.afterBytes_byteSize]
      exact Position.afterAll_column hstarts hline
    · rw [hclamp]
      exact (Position.afterBytes_boundary _ _ hle).resolve_left fun hb => h (.inl hb)
    · exact LineIndex.position_eq source _ narrow_of_all offset
    · exact LineIndex.position_eq source ascii (fun _ => h.narrow) offset
  · obtain ⟨hboundary, hordered⟩ := Lexeme.scan_offsets hscan
    have hsorted : ((lexemes.offsets source).map (Position.ofOffset source)).Pairwise (· < ·) :=
      List.pairwise_map.mpr (hordered.imp_of_mem fun hx hy hlt =>
        Position.ofOffset_lt (hboundary _ hx) (hboundary _ hy) hlt)
    rw [Lexeme.scan_positions hscan]
    refine ⟨rfl, hsorted, hsorted.imp ?_⟩
    rintro p _ hlt rfl
    exact Position.lt_irrefl p hlt

def commentedNames : String := "//é\nx y"

theorem positions_exact_commentedNames :
    (¬ (IsBoundary commentedNames 3 ∨ IsAscii commentedNames) ∧ (Position.ofOffset commentedNames 3).column = 1) ∧
    (IsBoundary commentedNames 8 ∧ ∃ before line after, commentedNames.toList = before ++ line ++ after ∧
      byteSize (before ++ line) = 8 ∧ Position.StartsLine before ∧ '\n' ∉ line ∧
        (Position.ofOffset commentedNames 9).column = 1 + line.length) ∧
    (IsBoundary commentedNames 5 ∧ Position.ofOffset commentedNames 5 < Position.ofOffset commentedNames 8) ∧
    (∃ lexemes, Lexeme.scan commentedNames = .ok lexemes ∧
      (lexemes.list.map Lexeme.position ++ [lexemes.stop]).Nodup) ∧
    (IsAscii "x\ny" ∧ { LineIndex.ofText "x\ny" with ascii := false }.position 3 = Position.ofOffset "x\ny" 3) := by
  have hinside : ¬ (IsBoundary commentedNames 3 ∨ IsAscii commentedNames) := by decide +kernel
  have hname : IsBoundary commentedNames 5 := by decide +kernel
  have hend : IsBoundary commentedNames 8 := by decide +kernel
  have hascii : IsAscii "x\ny" := by decide +kernel
  obtain ⟨hcount, hgrows, hlexemes⟩ := positions_exact commentedNames
  obtain ⟨lexemes, hscan⟩ := scan_of_isOk (by decide +kernel : (Lexeme.scan commentedNames).isOk = true)
  refine ⟨⟨hinside, (hcount 3 3 (by decide +kernel)).2.2.1 hinside⟩,
    ⟨hend, (hcount 9 8 (by decide +kernel)).2.1 (.inl hend)⟩, ⟨hname, hgrows 5 8 hname hend (by decide)⟩,
    ⟨lexemes, hscan, (hlexemes lexemes hscan).2.2⟩, hascii, ?_⟩
  exact ((positions_exact "x\ny").1 3 3 (by decide +kernel)).2.2.2.2 hascii false

end Scriptling
