/-
  Scriptling.Proofs.Session.Relaid — the layout of a text does not matter.

  Texts with the same tokens are parsed as the same, or rejected for the same fault, wherever in the
  text that is. What is parsed alike is run alike: value, fault, printed text and all that the
  session keeps.
-/

import Scriptling.Proofs.Lexeme.Sheet
import Scriptling.Proofs.Grammar.Steady
import Scriptling.Session

namespace Scriptling

/-! ## Answers without places -/

/-- What went wrong, but not where in the text. -/
def Failure.cause : Failure → SyntaxFault ⊕ Fault
  | rejected error => .inl error.fault
  | stopped fault => .inr fault

def Answer.unplaced (answer : Answer) : Except (SyntaxFault ⊕ Fault) Value × Session :=
  (answer.1.mapError Failure.cause, answer.2)

/-- Either text may stand for the other: they have the same trees or the same syntax fault, and
    running one in a session gives the same answer as running the other. -/
structure Interchangeable (source source' : String) : Prop where
  expr : (Expr.parse source).mapError SyntaxError.fault = (Expr.parse source').mapError SyntaxError.fault
  lines : (Expr.parseLines source).mapError SyntaxError.fault =
    (Expr.parseLines source').mapError SyntaxError.fault
  program : (Program.parse source).mapError SyntaxError.fault = (Program.parse source').mapError SyntaxError.fault
  runExpr : ∀ fuel session,
    (Session.runText Expr.parse (Session.runExpr fuel) source session).map Answer.unplaced =
      (Session.runText Expr.parse (Session.runExpr fuel) source' session).map Answer.unplaced
  runLines : ∀ fuel session,
    (Session.runText Expr.parseLines (Session.runLines fuel) source session).map Answer.unplaced =
      (Session.runText Expr.parseLines (Session.runLines fuel) source' session).map Answer.unplaced
  runProgram : ∀ fuel session,
    (Session.runText Program.parse (Session.runProgram fuel) source session).map Answer.unplaced =
      (Session.runText Program.parse (Session.runProgram fuel) source' session).map Answer.unplaced

/-- What is parsed alike is run alike. -/
theorem Session.runText_unplaced {α : Type} {parse : String → Except SyntaxError α} {source source' : String}
    (h : (parse source).mapError SyntaxError.fault = (parse source').mapError SyntaxError.fault)
    (run : α → Run Session Value) (session : Session) :
    (runText parse run source session).map Answer.unplaced =
      (runText parse run source' session).map Answer.unplaced := by
  unfold runText
  generalize parse source = parsed, parse source' = parsed' at h
  cases parsed with
  | ok a =>
    cases parsed' with
    | ok a' =>
      obtain rfl : a = a' := Except.ok.inj h
      rfl
    | error e' => cases h
  | error e =>
    cases parsed' with
    | ok a' => cases h
    | error e' =>
      have hcause : (Failure.rejected e).cause = (Failure.rejected e').cause := congrArg Sum.inl (Except.error.inj h)
      show some (Except.error (Failure.rejected e).cause, session) =
        some (Except.error (Failure.rejected e').cause, session)
      rw [hcause]

/-! ## Sheets -/

/-- A rule that goes by the tokens alone reads alike what has the same tokens. -/
theorem Sheet.read_eq {α : Type} {rule : Nat → Rule α} (h : ∀ n, (rule n).Steady) {a b : Sheet}
    (htokens : a.tokens = b.tokens) :
    (Rule.read rule a.text).mapError SyntaxError.fault = (Rule.read rule b.text).mapError SyntaxError.fault :=
  Rule.read_steady h a.scan_text b.scan_text (by rw [a.tokens_lexemes, htokens, b.tokens_lexemes])

/-- Tokens survive any layout: a scan of the text gives the tokens that were put down, each where its
    spelling was put. So texts that differ in their layout and in leading zeros only are
    interchangeable. -/
theorem Sheet.layout_immaterial :
    (∀ sheet : Sheet, Scriptling.tokens sheet.lexemes = sheet.tokens ∧
      Lexeme.scan sheet.text =
        .ok ⟨sheet.lexemes, Position.ofOffset sheet.text (byteSize sheet.text.toList)⟩) ∧
    ∀ a b : Sheet, a.tokens = b.tokens → Interchangeable a.text b.text := by
  refine ⟨fun sheet => ⟨sheet.tokens_lexemes, sheet.scan_text⟩, fun a b htokens => ?_⟩
  have hexpr := read_eq Grammar.steady_wholeExpr htokens
  have hlines := read_eq Grammar.steady_wholeLines htokens
  have hprogram := read_eq Grammar.steady_wholeProgram htokens
  exact {
    expr := hexpr
    lines := hlines
    program := hprogram
    runExpr := fun _ => Session.runText_unplaced hexpr _
    runLines := fun _ => Session.runText_unplaced hlines _
    runProgram := fun _ => Session.runText_unplaced hprogram _ }

def Sheet.quotient : Sheet :=
  ⟨[],
    .cons ⟨.integer 7, 0, show 7 ≤ maxInteger by decide⟩ ⟨' ', by decide, []⟩
      (.cons ⟨.operator .divide, 0, trivial⟩ ⟨' ', by decide, []⟩
        (.last ⟨.integer 2, 0, show 2 ≤ maxInteger by decide⟩))⟩

def Sheet.spreadQuotient : Sheet :=
  ⟨[.comment ['é', '½'] (by decide)],
    .cons ⟨.integer 7, 2, show 7 ≤ maxInteger by decide⟩ ⟨'\t', by decide, []⟩
      (.cons ⟨.operator .divide, 0, trivial⟩
        ⟨' ', by decide, [.comment ['b', 'y', '\r'] (by decide), .blank '\n' (by decide)]⟩
        (.cons ⟨.integer 2, 1, show 2 ≤ maxInteger by decide⟩ ⟨' ', by decide, []⟩ .empty))⟩

theorem Sheet.layout_immaterial_quotient :
    quotient.text = "7 / 2" ∧ spreadQuotient.text = "//é½\n007\t/ //by\r\n\n02 " ∧
      quotient.tokens = spreadQuotient.tokens ∧ Interchangeable quotient.text spreadQuotient.text :=
  ⟨by decide, by decide, by decide, layout_immaterial.2 quotient spreadQuotient (by decide)⟩

end Scriptling
