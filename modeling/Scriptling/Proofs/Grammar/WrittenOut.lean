/-
  Scriptling.Proofs.Grammar.WrittenOut — a `for` is parsed as the loop that it abbreviates.

  The counted loop can be written with a `while`, and whatever expressions and line it is made of, the
  two texts are parsed as the same tree. An expression in parentheses is one operand, so that the
  comparison before it does not reach into it; and a line ends where it does in either text, since
  what follows it is not an `else`.
  - `ScansAs.line`: a text that can be scanned may stand before the end of a line in another one.
  - `Grammar.isText_for`, `Grammar.isText_while`: what the tokens of the two texts spell.
  - `for_parsed_as_written_out`: what the two texts are parsed as.
-/

import Scriptling.Proofs.Grammar.Viable
import Scriptling.Proofs.Value.RoundTrip

namespace Scriptling

/-! ## Texts put together -/

namespace ScansAs

variable {after text : List Char} {ts : List Token} (h : ScansAs after text ts)
include h

theorem blank (c : Char) (hc : isBlank c = true) : ScansAs after (c :: text) ts :=
  (scansAs_blank hc).append h

/-- A mark that nothing else begins with may stand before any text. -/
theorem sign (c : Char) {t : Token} (hsingle : singleToken? c = some t) (hpair : pairToken? c = none)
    (hslash : c ≠ '/') : ScansAs after (c :: text) (t :: ts) :=
  (scansAs_sign hsingle hpair hslash).append h

/-- Any token may stand before a blank. -/
theorem spaced (t : Token) (ht : t.Writable) (c : Char) (hc : isBlank c = true) :
    ScansAs after (t.spelling.toList ++ c :: text) (t :: ts) :=
  (IsPiece.token ht.spells (longest_of_blank ht.spells hc)).scansAs.append (h.blank c hc)

/-- A whole text may stand before the end of a line. -/
theorem line {source : String} {lexemes : Lexemes} (hscan : Lexeme.scan source = .ok lexemes) :
    ScansAs after (source.toList ++ '\n' :: text) (tokens lexemes.list ++ ts) := by
  have hsource : ScansAs ('\n' :: text ++ after) source.toList (tokens lexemes.list) := by
    intro before
    obtain ⟨hseg, -⟩ := Lexeme.scan_eq_ok_iff.mp hscan
    exact (hseg.before_line (text ++ after)).elsewhere before
  exact hsource.append (h.blank '\n' rfl)

end ScansAs

/-- A text that scans as some tokens up to its end has these tokens. -/
theorem ScansAs.scan {source : String} {ts : List Token} (h : ScansAs [] source.toList ts) :
    ∃ lexemes, Lexeme.scan source = .ok lexemes ∧ tokens lexemes.list = ts := by
  obtain ⟨lexemes, hseg, htokens⟩ := h []
  rw [List.append_nil] at hseg
  exact ⟨_, Lexeme.scan_eq_ok hseg, htokens⟩

theorem scansAs_of_scan {source : String} {lexemes : Lexemes} (hscan : Lexeme.scan source = .ok lexemes) :
    ScansAs [] source.toList (tokens lexemes.list) := by
  intro before
  obtain ⟨hseg, -⟩ := Lexeme.scan_eq_ok_iff.mp hscan
  rw [List.append_nil]
  exact hseg.elsewhere before

/-! ## The two loops as tokens -/

namespace Grammar

variable {i : String} {ts us vs : List Token} {first bound body : Expr}

def forTokens (i : String) (ts us vs : List Token) : List Token :=
  .keyword .for_ :: .mark .openParen :: .identifier i :: .keyword .in_ :: ts ++
    .keyword .to_ :: us ++ .mark .closeParen :: vs

def countingTokens (i : String) : List Token :=
  [.identifier i, .mark .assign, .identifier i, .operator .add, .integer 1, .mark .semicolon]

def whileTokens (i : String) (us vs : List Token) : List Token :=
  .keyword .while_ :: (.mark .openParen :: (.identifier i :: .operator .less ::
    (.mark .openParen :: us ++ [.mark .closeParen])) ++ [.mark .closeParen]) ++
      (.mark .openBrace :: (vs ++ countingTokens i) ++ [.mark .closeBrace])

/-- `{ i = ts; while (i < (us)) { vs i = i + 1; } }` -/
def writtenOutTokens (i : String) (ts us vs : List Token) : List Token :=
  .mark .openBrace :: ((.identifier i :: .mark .assign :: ts ++ [.mark .semicolon]) ++ whileTokens i us vs) ++
    [.mark .closeBrace]

theorem IsSequence.single {next : Option Token} (h : IsLine next vs body) : IsSequence IsLine next vs [body] := by
  rw [← List.append_nil vs]
  exact .cons h .nil

theorem isText_single (h : IsLine none vs body) : IsText vs [body] :=
  ⟨List.cons_ne_nil _ _, .single h⟩

theorem IsText.isLine (h : IsText vs [body]) : IsLine none vs body := by
  obtain ⟨-, hs⟩ := h
  cases hs with
  | cons hline hnil =>
    cases hnil
    simpa [after] using hline

theorem isText_for (hfirst : IsExpr ts first) (hbound : IsExpr us bound) (hbody : IsLine none vs body) :
    IsText (forTokens i ts us vs) [countedLoop i first bound body] :=
  isText_single (.forIn hfirst hbound hbody)

/-- The bound in its parentheses is compared as a whole. -/
theorem isExpr_test (hbound : IsExpr us bound) :
    IsExpr (.identifier i :: .operator .less :: (.mark .openParen :: us ++ [.mark .closeParen]))
      (.binary .less (.var i) bound) :=
  (IsPrimary.var i).isExpr_binary (.group hbound) .less

theorem isLine_counting {next : Option Token} :
    IsLine next (countingTokens i) (.assign i (.binary .add (.var i) (.int 1))) :=
  .assign ((IsPrimary.var i).isExpr_binary (.integer 1) .add)

theorem isLine_while {next : Option Token} (hbound : IsExpr us bound) (hbody : IsLine none vs body) :
    IsLine next (whileTokens i us vs)
      (.whileDo (.binary .less (.var i) bound)
        (.block [body, .assign i (.binary .add (.var i) (.int 1))])) := by
  -- No `else` comes after the body here, and none did where it was parsed.
  have hlines : IsSequence IsLine (some (.mark .closeBrace)) (vs ++ countingTokens i)
      [body, .assign i (.binary .add (.var i) (.int 1))] :=
    isLine_resumes.cons (by simp) hbody (.single isLine_counting)
  exact .whileDo (.parens (isExpr_test hbound)) (.block (.braces hlines))

theorem isText_while (hfirst : IsExpr ts first) (hbound : IsExpr us bound) (hbody : IsLine none vs body) :
    IsText (writtenOutTokens i ts us vs) [countedLoop i first bound body] := by
  have hlines : IsSequence IsLine (some (.mark .closeBrace))
      ((.identifier i :: .mark .assign :: ts ++ [.mark .semicolon]) ++ whileTokens i us vs) _ :=
    .cons (.assign hfirst) (.single (isLine_while hbound hbody))
  exact isText_single (.block (.braces hlines))

end Grammar

/-! ## The two loops as texts -/

/-- `for (i in first to bound) body`, with the ends of lines around the parts. -/
def forText (i first bound body : String) : String :=
  String.join ["for (", i, " in\n", first, "\nto\n", bound, "\n)\n", body]

/-- `{ i = first; while (i < (bound)) { body i = i + 1; } }`, with the ends of lines around the parts. -/
def whileText (i first bound body : String) : String :=
  String.join
    ["\x7b ", i, " =\n", first, "\n; while (", i, " < (\n", bound, "\n)) \x7b\n", body, "\n", i, " = ", i,
      " + 1; \x7d \x7d"]

theorem scansAs_counting {i : String} (hi : Nameable i) {after text : List Char} {us : List Token}
    (h : ScansAs after text us) :
    ScansAs after ((i ++ " = " ++ i ++ " + 1;").toList ++ text) (Grammar.countingTokens i ++ us) := by
  have hone := (scansAs_integer (n := 1) (endsWord_cons rfl) (by decide)).append (h.sign ';' rfl rfl (by decide))
  have hsum := (hone.spaced (.operator .add) trivial ' ' rfl).spaced (.identifier i) hi ' ' rfl
  have hassign := (hsum.spaced (.mark .assign) trivial ' ' rfl).spaced (.identifier i) hi ' ' rfl
  have hdigits : Nat.toDigits 10 1 = ['1'] := rfl
  simpa [Grammar.countingTokens, Token.spelling, Operator.symbol, Mark.spelling, hdigits] using hassign

section Texts

variable {i F T B : String} {fs ts bs : Lexemes} (hi : Nameable i) (hF : Lexeme.scan F = .ok fs)
  (hT : Lexeme.scan T = .ok ts) (hB : Lexeme.scan B = .ok bs)
include hi hF hT hB

theorem scan_forText : ∃ lexemes, Lexeme.scan (forText i F T B) = .ok lexemes ∧
    tokens lexemes.list = Grammar.forTokens i (tokens fs.list) (tokens ts.list) (tokens bs.list) := by
  have hbody := ((scansAs_of_scan hB).blank '\n' rfl).sign ')' rfl rfl (by decide)
  have hbound := (hbody.line hT).spaced (.keyword .to_) trivial '\n' rfl
  have hfirst := (hbound.line hF).spaced (.keyword .in_) trivial '\n' rfl
  have hcounter := (hfirst.spaced (.identifier i) hi ' ' rfl).sign '(' rfl rfl (by decide)
  have hfor := hcounter.spaced (.keyword .for_) trivial ' ' rfl
  refine ScansAs.scan ?_
  simpa [forText, Grammar.forTokens, Token.spelling, Keyword.spelling] using hfor

theorem scan_whileText : ∃ lexemes, Lexeme.scan (whileText i F T B) = .ok lexemes ∧
    tokens lexemes.list = Grammar.writtenOutTokens i (tokens fs.list) (tokens ts.list) (tokens bs.list) := by
  have hclose : ScansAs [] [' ', '}', ' ', '}'] [.mark .closeBrace, .mark .closeBrace] :=
    (((ScansAs.nil.sign '}' rfl rfl (by decide)).blank ' ' rfl).sign '}' rfl rfl (by decide)).blank ' ' rfl
  have hcounting := scansAs_counting hi hclose
  have hbody := ((hcounting.line hB).blank '\n' rfl).sign '{' rfl rfl (by decide)
  have hbound := ((hbody.blank ' ' rfl).sign ')' rfl rfl (by decide)).sign ')' rfl rfl (by decide)
  have hgroup := ((hbound.line hT).blank '\n' rfl).sign '(' rfl rfl (by decide)
  have htest := (hgroup.spaced (.operator .less) trivial ' ' rfl).spaced (.identifier i) hi ' ' rfl
  have hwhile := (htest.sign '(' rfl rfl (by decide)).spaced (.keyword .while_) trivial ' ' rfl
  have hfirst := ((hwhile.blank ' ' rfl).sign ';' rfl rfl (by decide)).line hF
  have hassign := (hfirst.spaced (.mark .assign) trivial '\n' rfl).spaced (.identifier i) hi ' ' rfl
  have hblock := (hassign.blank ' ' rfl).sign '{' rfl rfl (by decide)
  refine ScansAs.scan ?_
  simpa [whileText, Grammar.writtenOutTokens, Grammar.whileTokens, Grammar.countingTokens, Token.spelling,
    Keyword.spelling, Operator.symbol, Mark.spelling] using hblock

end Texts

/-- Whatever texts `F` and `T` are of expressions and `B` of one line, `for (i in F to T) B` is parsed as
    one line, and as the same tree as `{ i = F; while (i < (T)) { B i = i + 1; } }`: the counted loop over
    what the three are parsed as. -/
theorem for_parsed_as_written_out {i F T B : String} {first bound body : Expr} (hi : Nameable i)
    (hF : Expr.parse F = .ok first) (hT : Expr.parse T = .ok bound) (hB : Expr.parseLines B = .ok [body]) :
    Expr.parseLines (forText i F T B) = .ok [Grammar.countedLoop i first bound body] ∧
      Expr.parseLines (whileText i F T B) = .ok [Grammar.countedLoop i first bound body] := by
  obtain ⟨fs, hscanF, hfirst⟩ := Rule.scan_of_read (fun _ _ _ => Grammar.wholeExpr_ok_iff) hF
  obtain ⟨ts, hscanT, hbound⟩ := Rule.scan_of_read (fun _ _ _ => Grammar.wholeExpr_ok_iff) hT
  obtain ⟨bs, hscanB, htext⟩ := Rule.scan_of_read (fun _ _ _ => Grammar.wholeLines_ok_iff) hB
  have hbody := htext.isLine
  obtain ⟨lexemes, hscan, htokens⟩ := scan_forText hi hscanF hscanT hscanB
  obtain ⟨lexemes', hscan', htokens'⟩ := scan_whileText hi hscanF hscanT hscanB
  refine ⟨(Rule.read_eq_ok_iff hscan).mpr (Grammar.wholeLines_ok_iff.mpr ?_),
    (Rule.read_eq_ok_iff hscan').mpr (Grammar.wholeLines_ok_iff.mpr ?_)⟩
  · rw [htokens]
    exact Grammar.isText_for hfirst hbound hbody
  · rw [htokens']
    exact Grammar.isText_while hfirst hbound hbody

def openEndedLine : String := "if (b) for (j in i to 3) x = j; // else"

def openEndedLoop : Expr :=
  Grammar.countedLoop "i" (.int 0) (.binary .less (.var "n") (.int 3))
    (.ifThen (.var "b") (Grammar.countedLoop "j" (.var "i") (.int 3) (.assign "x" (.var "j"))))

theorem for_parsed_as_written_out_openEnded :
    Expr.parseLines (forText "i" "0 // ;" "n < 3 // )" openEndedLine) = .ok [openEndedLoop] ∧
      Expr.parseLines (whileText "i" "0 // ;" "n < 3 // )" openEndedLine) = .ok [openEndedLoop] := by
  have hi : Nameable "i" :=
    ⟨⟨'i', [], rfl, by decide, List.all_eq_true.mp (by decide)⟩, fun k => by cases k <;> decide⟩
  exact for_parsed_as_written_out hi (eq_ok_of_toOption (by decide +kernel)) (eq_ok_of_toOption (by decide +kernel))
    (eq_ok_of_toOption (by decide +kernel))

end Scriptling
