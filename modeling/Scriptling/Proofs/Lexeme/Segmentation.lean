/-
  Scriptling.Proofs.Lexeme.Segmentation — a scan cuts a text at its longest tokens.

  A text is `Segmented` into lexemes if it is made, from front to back, of blanks, comments and
  tokens, each of them a piece where it stands. A scan finds the lexemes that a text is segmented
  into, or the first place where nothing is a piece but a fault.
  - `Segmented.scanFrom_eq`: scanning follows the pieces. `exists_segmented`: the pieces lead to
    the end of the text or to a fault.
  - `Segmented.stands`, `Segmented.ordered`: each lexeme stands where its offsets say, and they do
    not overlap.
  - `Lexeme.scan_exact`: a scan against both.
-/

import Scriptling.Proofs.Lexeme.Piece
import Scriptling.Proofs.Position.Columns

namespace Scriptling

/-! ## Places -/

/-- The place of an offset is where the characters before it lead. -/
theorem Position.afterBytes_byteSize (p : Position) (before after : List Char) :
    p.afterBytes (before ++ after) (byteSize before) = p.afterAll before := by
  have happend := p.afterBytes_append before after 0
  rw [Nat.add_zero] at happend
  rw [happend]
  cases after <;> rfl

theorem Position.ofOffset_byteSize {source : String} {before after : List Char}
    (h : source.toList = before ++ after) : ofOffset source (byteSize before) = start.afterAll before := by
  rw [ofOffset, h, afterBytes_byteSize]

theorem byteSize_pos {text : List Char} (h : text ≠ []) : 0 < byteSize text := by
  cases text with
  | nil => exact absurd rfl h
  | cons c text =>
    have := c.utf8Size_pos
    rw [byteSize_cons]
    omega

/-! ## Segmented texts -/

def Lexeme.placed (before text : List Char) (token : Token) : Lexeme :=
  ⟨token, byteSize before, byteSize (before ++ text), Position.start.afterAll before⟩

/-- With `before` behind it, the text is made of blanks, comments and tokens up to `rest`, and its
    tokens are the lexemes. -/
inductive Segmented (rest : List Char) : List Char → List Char → List Lexeme → Prop
  | stop {before : List Char} : Segmented rest before rest []
  | blank {before text after : List Char} {lexemes : List Lexeme} : IsPiece .blank text after →
      Segmented rest (before ++ text) after lexemes → Segmented rest before (text ++ after) lexemes
  | token {before text after : List Char} {t : Token} {lexemes : List Lexeme} : IsPiece (.token t) text after →
      Segmented rest (before ++ text) after lexemes →
      Segmented rest before (text ++ after) (.placed before text t :: lexemes)

def Faulty (fault : SyntaxFault) (text : List Char) : Prop :=
  ∃ front after, text = front ++ after ∧ IsPiece (.fault fault) front after

theorem IsPiece.ne_nil {kind : PieceKind} {text after : List Char} (h : IsPiece kind text after) : text ≠ [] := by
  cases h with
  | blank _ | invalid _ => simp
  | comment hc _ =>
    obtain ⟨more, rfl, -⟩ := hc
    simp
  | token hs _ => exact hs.ne_nil
  | tooLarge hd _ _ => exact hd.1

/-- From any place, the pieces of a text lead to its end or to a fault. -/
theorem exists_segmented (before text : List Char) :
    ∃ rest lexemes, Segmented rest before text lexemes ∧ (rest = [] ∨ ∃ fault, Faulty fault rest) := by
  -- Each piece takes at least one character of the text.
  induction hn : text.length using Nat.strongRecOn generalizing before text with
  | ind n ih =>
    cases text with
    | nil => exact ⟨[], [], .stop, .inl rfl⟩
    | cons c tail =>
      have hlt := Piece.next_rest_length_lt c tail
      obtain ⟨hcut, hpiece⟩ := Piece.next_eq_iff.mp (rfl : Piece.next c tail = _)
      generalize Piece.next c tail = piece at hlt hcut hpiece
      obtain ⟨rest, lexemes, hseg, hend⟩ := ih _ (hn ▸ hlt) (before ++ piece.text) piece.rest rfl
      rw [hcut]
      cases hkind : piece.kind with
      | blank => exact ⟨rest, lexemes, .blank (hkind ▸ hpiece) hseg, hend⟩
      | token t => exact ⟨rest, _, .token (hkind ▸ hpiece) hseg, hend⟩
      | fault fault => exact ⟨_, [], .stop, .inr ⟨fault, _, _, rfl, hkind ▸ hpiece⟩⟩

namespace Lexeme

/-! ## Scanning -/

/-- One step of a scan, at the piece `text`. -/
theorem scanFrom_piece {kind : PieceKind} {text after : List Char} (found : List Lexeme) (before : List Char) :
    IsPiece kind text after →
    scanFrom found (byteSize before) (Position.start.afterAll before) (text ++ after) =
      match kind with
      | .blank => scanFrom found (byteSize (before ++ text)) (Position.start.afterAll (before ++ text)) after
      | .token t =>
        scanFrom (placed before text t :: found) (byteSize (before ++ text))
          (Position.start.afterAll (before ++ text)) after
      | .fault fault => .error ⟨fault, Position.start.afterAll before⟩ := by
  intro h
  cases text with
  | nil => exact absurd rfl h.ne_nil
  | cons c text =>
    have hnext : Piece.next c (text ++ after) = ⟨kind, c :: text, after⟩ := Piece.next_eq_of_isPiece h rfl
    rw [List.cons_append, scanFrom, hnext]
    cases kind <;> simp [placed]

end Lexeme

/-- A scan goes over the pieces of a text and takes its lexemes. -/
theorem Segmented.scanFrom_eq {rest before text : List Char} {lexemes : List Lexeme}
    (h : Segmented rest before text lexemes) (found : List Lexeme) :
    ∃ front, text = front ++ rest ∧
      Lexeme.scanFrom found (byteSize before) (Position.start.afterAll before) text =
        Lexeme.scanFrom (lexemes.reverse ++ found) (byteSize (before ++ front))
          (Position.start.afterAll (before ++ front)) rest := by
  induction h generalizing found with
  | stop => exact ⟨[], rfl, by simp⟩
  | @blank before text after lexemes hp _ ih =>
    obtain ⟨front, rfl, hscan⟩ := ih found
    refine ⟨text ++ front, by simp, ?_⟩
    refine (Lexeme.scanFrom_piece found before hp).trans (hscan.trans ?_)
    rw [List.append_assoc]
  | @token before text after t lexemes hp _ ih =>
    obtain ⟨front, rfl, hscan⟩ := ih (.placed before text t :: found)
    refine ⟨text ++ front, by simp, ?_⟩
    refine (Lexeme.scanFrom_piece found before hp).trans (hscan.trans ?_)
    rw [List.append_assoc, List.reverse_cons, List.append_assoc, List.singleton_append]

namespace Lexeme

/-- A text that is segmented up to its end is scanned. -/
theorem scan_eq_ok {source : String} {lexemes : List Lexeme} (h : Segmented [] [] source.toList lexemes) :
    scan source = .ok ⟨lexemes, Position.ofOffset source (byteSize source.toList)⟩ := by
  obtain ⟨front, hsource, hscan⟩ := h.scanFrom_eq []
  rw [List.append_nil] at hsource
  rw [Position.ofOffset_byteSize (List.append_nil _).symm]
  rw [List.nil_append, ← hsource] at hscan
  refine hscan.trans ?_
  simp [scanFrom]

/-- A text that is segmented up to a fault is not scanned, and the fault is reported. -/
theorem scan_eq_error {source : String} {rest before : List Char} {lexemes : List Lexeme} {fault : SyntaxFault}
    (h : Segmented rest [] source.toList lexemes) (hsource : source.toList = before ++ rest)
    (hfault : Faulty fault rest) : scan source = .error ⟨fault, Position.ofOffset source (byteSize before)⟩ := by
  obtain ⟨front, hfront, hscan⟩ := h.scanFrom_eq []
  obtain rfl : front = before := List.append_cancel_right (hfront.symm.trans hsource)
  obtain ⟨text, after, rfl, hpiece⟩ := hfault
  rw [Position.ofOffset_byteSize hsource]
  refine hscan.trans ?_
  rw [List.nil_append, scanFrom_piece _ front hpiece]

end Lexeme

/-! ## Where lexemes stand -/

/-- The lexeme is spelled `text` where its offsets say, and `after` comes behind it. -/
structure StandsAs (source : String) (x : Lexeme) (text after : List Char) : Prop where
  split : ∃ before, source.toList = before ++ text ++ after ∧ byteSize before = x.start ∧
    byteSize (before ++ text) = x.stop
  place : x.position = Position.ofOffset source x.start

theorem standsAs_placed {source : String} {before text after : List Char} (t : Token)
    (h : source.toList = before ++ (text ++ after)) : StandsAs source (.placed before text t) text after :=
  ⟨⟨before, by rw [h, List.append_assoc], rfl, rfl⟩, (Position.ofOffset_byteSize h).symm⟩

theorem StandsAs.stop_le {source : String} {x : Lexeme} {text after : List Char} (h : StandsAs source x text after) :
    x.stop ≤ byteSize source.toList := by
  obtain ⟨before, hsource, -, hstop⟩ := h.split
  rw [hsource, byteSize_append, hstop]
  omega

theorem StandsAs.start_lt {source : String} {x : Lexeme} {text after : List Char} (h : StandsAs source x text after)
    (hne : text ≠ []) : x.start < x.stop := by
  obtain ⟨before, -, hstart, hstop⟩ := h.split
  have hpos := byteSize_pos hne
  rw [byteSize_append] at hstop
  omega

/-- Each lexeme of a segmented text stands where its offsets say and is the longest token there. -/
theorem Segmented.stands {source : String} {rest before text : List Char} {lexemes : List Lexeme}
    (h : Segmented rest before text lexemes) (hsource : source.toList = before ++ text) {x : Lexeme}
    (hx : x ∈ lexemes) : ∃ text after, StandsAs source x text after ∧ Spells text x.token ∧ Longest text after := by
  induction h with
  | stop => cases hx
  | blank _ _ ih => exact ih (by rw [hsource, List.append_assoc]) hx
  | @token before text after t lexemes hp _ ih =>
    rcases List.mem_cons.mp hx with rfl | hx
    · cases hp with
      | token hs hlong => exact ⟨text, after, standsAs_placed t hsource, hs, hlong⟩
    · exact ih (by rw [hsource, List.append_assoc]) hx

/-- The lexemes of a segmented text come one after another. -/
theorem Segmented.ordered {rest before text : List Char} {lexemes : List Lexeme}
    (h : Segmented rest before text lexemes) :
    (∀ x ∈ lexemes, byteSize before ≤ x.start) ∧ lexemes.Pairwise (fun x y => x.stop ≤ y.start) := by
  induction h with
  | stop => simp
  | blank _ _ ih =>
    refine ⟨fun x hx => ?_, ih.2⟩
    have := ih.1 x hx
    rw [byteSize_append] at this
    omega
  | @token before text after t lexemes _ _ ih =>
    refine ⟨fun x hx => ?_, List.pairwise_cons.mpr ⟨fun y hy => ih.1 y hy, ih.2⟩⟩
    rcases List.mem_cons.mp hx with rfl | hx
    · exact Nat.le_refl _
    · have := ih.1 x hx
      rw [byteSize_append] at this
      omega

/-! ## Scans -/

/-- A fault is digits that denote too large a number, or a character that begins nothing. -/
theorem faulty_iff {fault : SyntaxFault} {text : List Char} :
    Faulty fault text ↔
      (∃ digits after, text = digits ++ after ∧ IsDigits digits ∧
          (∀ d, after.head? = some d → d.isDigit = false) ∧ maxInteger < decimal digits ∧
          fault = .literalTooLarge (String.ofList digits)) ∨
        (∃ c after, text = c :: after ∧ Unmatched text ∧ fault = .invalidCharacter (String.singleton c)) := by
  constructor
  · rintro ⟨front, after, rfl, hpiece⟩
    cases hpiece with
    | tooLarge hd hend hlarge => exact .inl ⟨front, after, rfl, hd, hend, hlarge, rfl⟩
    | invalid hno => exact .inr ⟨_, after, rfl, hno, rfl⟩
  · rintro (⟨digits, after, rfl, hd, hend, hlarge, rfl⟩ | ⟨c, after, rfl, hno, rfl⟩)
    · exact ⟨digits, after, rfl, .tooLarge hd hend hlarge⟩
    · exact ⟨[c], after, rfl, .invalid hno⟩

namespace Lexeme

/-- A scan ends in one of two ways, and the pieces of the text say in which. -/
theorem scan_cases (source : String) :
    (∃ lexemes, Segmented [] [] source.toList lexemes ∧
      scan source = .ok ⟨lexemes, Position.ofOffset source (byteSize source.toList)⟩) ∨
    (∃ before rest lexemes fault, source.toList = before ++ rest ∧ Segmented rest [] source.toList lexemes ∧
      Faulty fault rest ∧ scan source = .error ⟨fault, Position.ofOffset source (byteSize before)⟩) := by
  obtain ⟨rest, lexemes, hseg, rfl | ⟨fault, hfault⟩⟩ := exists_segmented [] source.toList
  · exact .inl ⟨lexemes, hseg, scan_eq_ok hseg⟩
  · obtain ⟨before, hsource, -⟩ := hseg.scanFrom_eq []
    exact .inr ⟨before, rest, lexemes, fault, hsource, hseg, hfault, scan_eq_error hseg hsource hfault⟩

theorem scan_eq_ok_iff {source : String} {lexemes : Lexemes} :
    scan source = .ok lexemes ↔
      Segmented [] [] source.toList lexemes.list ∧
        lexemes.stop = Position.ofOffset source (byteSize source.toList) := by
  constructor
  · intro h
    rcases scan_cases source with ⟨found, hseg, hscan⟩ | ⟨_, _, _, _, _, _, _, hscan⟩
    · obtain rfl := Except.ok.inj (h.symm.trans hscan)
      exact ⟨hseg, rfl⟩
    · cases h.symm.trans hscan
  · rintro ⟨hseg, hstop⟩
    rw [scan_eq_ok hseg, ← hstop]

theorem scan_eq_error_iff {source : String} {e : SyntaxError} :
    scan source = .error e ↔
      ∃ before rest lexemes, source.toList = before ++ rest ∧ Segmented rest [] source.toList lexemes ∧
        e.position = Position.ofOffset source (byteSize before) ∧ Faulty e.fault rest := by
  constructor
  · intro h
    rcases scan_cases source with ⟨_, _, hscan⟩ | ⟨before, rest, lexemes, fault, hsource, hseg, hfault, hscan⟩
    · cases h.symm.trans hscan
    · obtain rfl := Except.error.inj (h.symm.trans hscan)
      exact ⟨before, rest, lexemes, hsource, hseg, rfl, hfault⟩
  · rintro ⟨before, rest, lexemes, hsource, hseg, hposition, hfault⟩
    rw [scan_eq_error hseg hsource hfault, ← hposition]

end Lexeme

theorem scan_of_isOk {source : String} (h : (Lexeme.scan source).isOk = true) :
    ∃ lexemes, Lexeme.scan source = .ok lexemes := by
  cases hs : Lexeme.scan source with
  | error e =>
    rw [hs] at h
    cases h
  | ok lexemes => exact ⟨lexemes, rfl⟩

/-- A scan succeeds exactly with the lexemes that the whole text is segmented into, and the scanned
    lexemes are the longest tokens where they stand, one after another. It fails exactly if the text
    is segmented up to a place where digits denote too large a number or nothing begins. -/
theorem Lexeme.scan_exact (source : String) :
    (∀ lexemes, scan source = .ok lexemes ↔
      Segmented [] [] source.toList lexemes.list ∧
        lexemes.stop = Position.ofOffset source (byteSize source.toList)) ∧
    (∀ lexemes, scan source = .ok lexemes →
      lexemes.list.Pairwise (fun x y => x.stop ≤ y.start) ∧
      ∀ x ∈ lexemes.list, x.start < x.stop ∧ x.stop ≤ byteSize source.toList ∧
        ∃ text after, StandsAs source x text after ∧ Spells text x.token ∧ Longest text after) ∧
    (∀ e, scan source = .error e ↔
      ∃ before rest lexemes, source.toList = before ++ rest ∧ Segmented rest [] source.toList lexemes ∧
        e.position = Position.ofOffset source (byteSize before) ∧
        ((∃ digits after, rest = digits ++ after ∧ IsDigits digits ∧
            (∀ d, after.head? = some d → d.isDigit = false) ∧ maxInteger < decimal digits ∧
            e.fault = .literalTooLarge (String.ofList digits)) ∨
          (∃ c after, rest = c :: after ∧ Unmatched rest ∧ e.fault = .invalidCharacter (String.singleton c)))) := by
  refine ⟨fun lexemes => scan_eq_ok_iff, fun lexemes h => ?_, fun e => ?_⟩
  · obtain ⟨hseg, -⟩ := scan_eq_ok_iff.mp h
    refine ⟨hseg.ordered.2, fun x hx => ?_⟩
    obtain ⟨text, after, hstands, hs, hlong⟩ := hseg.stands rfl hx
    exact ⟨hstands.start_lt hs.ne_nil, hstands.stop_le, text, after, hstands, hs, hlong⟩
  · simp only [scan_eq_error_iff, faulty_iff]

end Scriptling
