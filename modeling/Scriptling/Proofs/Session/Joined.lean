/-
  Scriptling.Proofs.Session.Joined — texts that are joined.

  Two texts of lines, with the end of a line between them, are a text of the lines of the one and
  then of the other, and so are two programs: what is complete stays so whatever comes after it, as
  long as that does not begin with `else`, and no line does. So running the joined text is running
  the one and, if that succeeds, the other (`texts_compose`).
-/

import Scriptling.Proofs.Lexeme.Joined
import Scriptling.Proofs.Grammar.Viable
import Scriptling.Session

namespace Scriptling

/-! ## Sequences -/

/-- A sequence of what does not begin with `else` may come after another one. -/
theorem Rule.Resumes.append {γ : Type} {D : Option Token → List Token → γ → Prop} (hD : Resumes D)
    {next next' : Option Token} (hnext : next ≠ some (.keyword .else_)) {ts us : List Token} {as bs : List γ}
    (h : Grammar.IsSequence D next' ts as) (h' : Grammar.IsSequence D next us bs) :
    Grammar.IsSequence D next (ts ++ us) (as ++ bs) := by
  induction h with
  | nil => exact h'
  | cons hd _ ih =>
    rw [List.append_assoc]
    exact hD.cons hnext hd ih

namespace Grammar

theorem IsText.append {ts us : List Token} {as bs : List Expr} (h : IsText ts as) (h' : IsText us bs) :
    IsText (ts ++ us) (as ++ bs) := by
  obtain ⟨hne, hs⟩ := h
  exact ⟨List.append_ne_nil_of_left_ne_nil hne _, isLine_resumes.append (by simp) hs h'.2⟩

theorem IsProgram.append {ts us : List Token} {as bs : Program} (h : IsProgram ts as) (h' : IsProgram us bs) :
    IsProgram (ts ++ us) (as ++ bs) :=
  definition_resumes.append (by simp) h h'

end Grammar

/-- A joined text is read as what its parts are read as, one after the other. -/
theorem Rule.read_joined {γ : Type} {rule : Nat → Rule (List γ)} {D : List Token → List γ → Prop}
    (accepts : ∀ stop input as, (∃ rest, rule input.length stop input = .ok as rest) ↔ D (tokens input) as)
    (happend : ∀ ts us as bs, D ts as → D us bs → D (ts ++ us) (as ++ bs)) {a b : String} {as bs : List γ}
    (ha : Rule.read rule a = .ok as) (hb : Rule.read rule b = .ok bs) : Rule.read rule (joined a b) = .ok (as ++ bs) := by
  obtain ⟨lexemesA, hscanA, hdA⟩ := Rule.scan_of_read accepts ha
  obtain ⟨lexemesB, hscanB, hdB⟩ := Rule.scan_of_read accepts hb
  obtain ⟨lexemes, hscan, htokens⟩ := Lexeme.scan_joined hscanA hscanB
  refine (Rule.read_eq_ok_iff hscan).mpr ((accepts _ _ _).mpr ?_)
  rw [htokens]
  exact happend _ _ _ _ hdA hdB

theorem parseLines_joined {a b : String} {as bs : List Expr} (ha : Expr.parseLines a = .ok as)
    (hb : Expr.parseLines b = .ok bs) : Expr.parseLines (joined a b) = .ok (as ++ bs) :=
  Rule.read_joined (fun _ _ _ => Grammar.wholeLines_ok_iff) (fun _ _ _ _ => Grammar.IsText.append) ha hb

theorem parse_joined {a b : String} {as bs : Program} (ha : Program.parse a = .ok as) (hb : Program.parse b = .ok bs) :
    Program.parse (joined a b) = .ok (as ++ bs) :=
  Rule.read_joined (fun _ _ _ => Grammar.wholeProgram_ok_iff) (fun _ _ _ _ => Grammar.IsProgram.append) ha hb

/-! ## Running -/

namespace Session

/-- Lines one after another: the value is that of the last, whatever came before. -/
theorem runLines_append (fuel : Nat) (as : List Expr) {bs : List Expr} (hbs : bs ≠ []) :
    runLines fuel (as ++ bs) = (do let _ ← runLines fuel as; runLines fuel bs) := by
  cases bs with
  | nil => exact absurd rfl hbs
  -- The first line of `bs` drops the value it is given.
  | cons line bs => exact List.foldlM_append

/-- Runs the lines of a text in the session that an answer leaves, if it is a value. -/
def thenLines (fuel : Nat) (source : String) : Option Answer → Option Answer
  | some (.ok _, session) => runText Expr.parseLines (runLines fuel) source session
  | stopped => stopped

end Session

theorem ne_nil_of_parseLines {source : String} {lines : List Expr} (h : Expr.parseLines source = .ok lines) :
    lines ≠ [] := by
  obtain ⟨lexemes, -, hd⟩ := Rule.scan_of_read (fun _ _ _ => Grammar.wholeLines_ok_iff) h
  exact hd.1

/-- The lines of a text `a`, a line feed and a text `b` are those of `a` and then those of `b`, and so
    are the definitions of a program. From any session, running the lines of the joined text gives
    the same value or fault, and leaves the same session with the same printed, as running those of
    `a` and then, if there was no fault, those of `b`. -/
theorem texts_compose (a b : String) :
    (∀ as bs, Expr.parseLines a = .ok as → Expr.parseLines b = .ok bs →
      Expr.parseLines (a ++ "\n" ++ b) = .ok (as ++ bs) ∧
        ∀ fuel session,
          Session.runText Expr.parseLines (Session.runLines fuel) (a ++ "\n" ++ b) session =
            Session.thenLines fuel b (Session.runText Expr.parseLines (Session.runLines fuel) a session)) ∧
    ∀ as bs, Program.parse a = .ok as → Program.parse b = .ok bs →
      Program.parse (a ++ "\n" ++ b) = .ok (as ++ bs) := by
  refine ⟨fun as bs ha hb => ?_, fun as bs ha hb => parse_joined ha hb⟩
  have hlines : Expr.parseLines (a ++ "\n" ++ b) = .ok (as ++ bs) := parseLines_joined ha hb
  refine ⟨hlines, fun fuel session => ?_⟩
  unfold Session.runText
  rw [hlines, ha]
  dsimp only
  rw [Session.runLines_append fuel as (ne_nil_of_parseLines hb), Run.bind_apply]
  cases Session.runLines fuel as session with
  | done v session' =>
    unfold Session.thenLines Session.runText
    rw [hb]
  | fault e session' => rfl
  | unfinished => rfl

/-- The first text ends in an `if` that could go on, and in a comment that only the end of a line ends. -/
theorem texts_compose_openEnded : ∃ a b la lb,
    a = "x = 1; if (x < 2) \x7b println(x); \x7d // else" ∧ b = "(x + 1); while (false) \x7b \x7d" ∧
      Expr.parseLines a = .ok la ∧ Expr.parseLines b = .ok lb ∧ la.length = 2 ∧ lb.length = 2 ∧
        Expr.parseLines (a ++ "\n" ++ b) = .ok (la ++ lb) ∧
          ∀ fuel session,
            Session.runText Expr.parseLines (Session.runLines fuel) (a ++ "\n" ++ b) session =
              Session.thenLines fuel b (Session.runText Expr.parseLines (Session.runLines fuel) a session) := by
  let la : List Expr :=
    [.assign "x" (.int 1), .ifThen (.binary .less (.var "x") (.int 2)) (.block [.println (.var "x")])]
  let lb : List Expr := [.binary .add (.var "x") (.int 1), .whileDo (.bool false) (.block [])]
  have ha : Expr.parseLines "x = 1; if (x < 2) \x7b println(x); \x7d // else" = .ok la :=
    eq_ok_of_toOption (by decide +kernel)
  have hb : Expr.parseLines "(x + 1); while (false) \x7b \x7d" = .ok lb := eq_ok_of_toOption (by decide +kernel)
  exact ⟨_, _, la, lb, rfl, rfl, ha, hb, rfl, rfl, (texts_compose _ _).1 la lb ha hb⟩

end Scriptling
