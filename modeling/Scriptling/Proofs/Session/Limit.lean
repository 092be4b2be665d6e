/-
  Scriptling.Proofs.Session.Limit — a limit on the sink only cuts what is printed.

  A program that comes to its end on a sink without a limit comes to an end with one: the same, if
  all that it prints fits, and else the fault that the sink is full, with as much printed as there is
  room for (`runSource_limited`).
-/

import Scriptling.Proofs.Eval.Limit
import Scriptling.Proofs.Grammar.Exact
import Scriptling.Proofs.Session.Operation

namespace Scriptling

open Run Run.Curtailment

/-- What is kept of a text of one-byte characters that is longer than the limit: as many bytes. -/
theorem Sink.upTo_bytes {limit : Nat} {sink : Sink} (hnarrow : Narrow sink.text.toList)
    (hlimit : limit < sink.text.length) :
    byteSize (sink.upTo limit).text.toList = limit ∧ ∃ rest, sink.text = (sink.upTo limit).text ++ rest := by
  have htext : (sink.upTo limit).text.toList = sink.text.toList.take limit := String.toList_ofList
  refine ⟨?_, String.ofList (sink.text.toList.drop limit), ?_⟩
  · have hkept : Narrow (sink.text.toList.take limit) := fun c hc => hnarrow c (List.mem_of_mem_take hc)
    rw [htext, hkept.byteSize_eq, List.length_take, String.length_toList]
    omega
  · rw [← String.toList_inj, String.toList_append, htext, String.toList_ofList, List.take_append_drop]

namespace Session

def curtailment (limit : Nat) : Curtailment Session Session where
  Same session session' :=
    session'.functions = session.functions ∧
      (Machine.curtailment limit Frames.global).Same session.machine session'.machine
  Over session session' := (Machine.curtailment limit Frames.global).Over session.machine session'.machine
  Moves session session' := session.machine.Prints session'.machine
  refl session := session.machine.prints_refl
  trans _ _ _ := Sink.Prints.trans
  stays := (Machine.curtailment limit Frames.global).stays

variable {limit : Nat}

theorem evaluating_cut {α : Type} {evaluation : Functions → Eval α}
    (h : ∀ functions, Eval.CutBy limit Frames.global (evaluation functions)) :
    (curtailment limit).Cuts (evaluating evaluation) (evaluating evaluation) := by
  refine ⟨fun session session' hends => ?_, fun session session' hs => ?_⟩
  · obtain ⟨m, hevaluation, rfl⟩ := endsIn_evaluating.mp hends
    exact (h session.functions).1 _ _ hevaluation
  · obtain ⟨functions, m⟩ := session
    obtain ⟨functions', m'⟩ := session'
    obtain ⟨rfl, hm⟩ : functions' = functions ∧ _ := hs
    have hcut := (h functions').2 m m' hm
    unfold evaluating
    dsimp only
    generalize evaluation functions' m = x, evaluation functions' m' = y at hcut
    cases hcut with
    | done a h => exact .done a ⟨rfl, h⟩
    | fault e h => exact .fault e ⟨rfl, h⟩
    | unfinished y => exact .unfinished _
    | full hends hover =>
      rcases hends with ⟨a, rfl⟩ | ⟨e, rfl⟩
      · exact .full (.inl ⟨a, rfl⟩) hover
      · exact .full (.inr ⟨e, rfl⟩) hover

theorem define_cut (fuel : Nat) (definition : Definition) :
    (curtailment limit).Cuts (define fuel definition) (define fuel definition) := by
  cases definition with
  | global name e =>
    refine evaluating_cut fun functions => (eval_curtailed functions fuel Frames.global e).bind fun v => ?_
    refine Eval.changeFrames_cut fun frames htop => ?_
    refine ⟨_, if_pos htop.live, htop.1.bind Frames.global name v, ?_⟩
    rw [Frames.depth_bind]
    exact htop.2
  | function f =>
    refine ⟨fun session session' hends => ?_, fun session session' hs => ?_⟩
    · unfold define addFunction at hends
      dsimp only at hends
      split at hends
      · obtain rfl := Outcome.endsIn_fault.mp hends
        exact session.machine.prints_refl
      · obtain rfl := Outcome.endsIn_done.mp hends
        exact session.machine.prints_refl
    · obtain ⟨hfunctions, hm⟩ := hs
      unfold define addFunction
      dsimp only
      rw [hfunctions]
      split
      · exact .fault _ ⟨hfunctions, hm⟩
      · exact .done () ⟨rfl, hm⟩

theorem callMain_cut (fuel : Nat) : (curtailment limit).Cuts (callMain fuel) (callMain fuel) := by
  refine evaluating_cut fun functions => ?_
  cases functions.find? "main" with
  | none => exact cuts_raise _ _
  | some main => exact invoke_cut (fun frame => eval_curtailed functions fuel frame main.body) []

theorem runProgram_cut (fuel : Nat) (program : Program) :
    (curtailment limit).Cuts (runProgram fuel program) (runProgram fuel program) := by
  have hdefinitions : (curtailment limit).Cuts (program.forM (define fuel)) (program.forM (define fuel)) :=
    Congruence.forM (K := congruence (curtailment limit)) fun definition _ => define_cut fuel definition
  exact hdefinitions.bind fun _ => callMain_cut fuel

/-- An empty sink with a limit goes with an empty one without. -/
theorem start_same (limit : Nat) : (curtailment limit).Same (start .unlimited) (start (.limited limit)) := by
  have hsink : Sink.limited limit = Sink.unlimited.upTo limit := by
    show (⟨"", some limit⟩ : Sink) = ⟨String.ofList (List.take limit []), some (limit - 0)⟩
    rw [List.take_nil, Nat.sub_zero]
  refine ⟨rfl, by decide, rfl, Nat.zero_le _, ?_⟩
  show ({ sink := Sink.limited limit } : Machine) = { sink := Sink.unlimited.upTo limit }
  rw [hsink]

/-- Nothing is lost as long as all that is printed fits. -/
theorem printed_of_same {session session' : Session} (h : (curtailment limit).Same session session') :
    session'.printed = session.printed ∧ session.printed.length ≤ limit := by
  obtain ⟨-, -, -, hlimit, hm⟩ := h
  refine ⟨?_, hlimit⟩
  unfold printed
  rw [hm]
  exact Sink.upTo_text hlimit

/-- The answer to a text on a sink with a limit, against that without one. -/
theorem runText_cut {α : Type} {parse : String → Except SyntaxError α} {run : α → Run Session Value}
    (hrun : ∀ a, (curtailment limit).Cuts (run a) (run a)) {source : String} {answer : Answer}
    (h : runText parse run source (start .unlimited) = some answer) :
    ∃ answer', runText parse run source (start (.limited limit)) = some answer' ∧
      (byteSize answer.2.printed.toList ≤ limit → answer'.1 = answer.1 ∧ answer'.2.printed = answer.2.printed) ∧
      (limit < byteSize answer.2.printed.toList →
        answer'.1 = .error (.stopped .sinkFull) ∧ byteSize answer'.2.printed.toList = limit ∧
          ∃ rest, answer.2.printed = answer'.2.printed ++ rest) := by
  unfold runText at h ⊢
  cases hparse : parse source with
  | error e =>
    rw [hparse] at h
    cases h
    exact ⟨_, rfl, fun _ => ⟨rfl, rfl⟩, fun h => absurd h (Nat.not_lt_zero _)⟩
  | ok a =>
    rw [hparse] at h
    dsimp only at h ⊢
    obtain ⟨hprints, hcut⟩ := hrun a
    have hends := hcut _ _ (start_same limit)
    have hbytes (session : Session) (h : (run a (start .unlimited)).EndsIn session) :
        Narrow session.printed.toList ∧ byteSize session.printed.toList = session.printed.length := by
      obtain ⟨added, heq, hadded⟩ := (hprints _ _ h).text_eq
      have hprinted : session.printed = added := heq.trans (String.empty_append ..)
      rw [hprinted]
      exact ⟨hadded, hadded.byteSize_eq.trans String.length_toList⟩
    generalize run a (start .unlimited) = x, run a (start (.limited limit)) = y at h hends hbytes
    cases hends with
    | done v hsame =>
      cases h
      obtain ⟨hprinted, hlimit⟩ := printed_of_same hsame
      obtain ⟨-, hsize⟩ := hbytes _ (.inl ⟨v, rfl⟩)
      have hfits := Nat.le_trans (Nat.le_of_eq hsize) hlimit
      exact ⟨_, rfl, fun _ => ⟨rfl, hprinted⟩, fun h => absurd hfits (Nat.not_le.mpr h)⟩
    | fault e hsame =>
      cases h
      obtain ⟨hprinted, hlimit⟩ := printed_of_same hsame
      obtain ⟨-, hsize⟩ := hbytes _ (.inr ⟨e, rfl⟩)
      have hfits := Nat.le_trans (Nat.le_of_eq hsize) hlimit
      exact ⟨_, rfl, fun _ => ⟨rfl, hprinted⟩, fun h => absurd hfits (Nat.not_le.mpr h)⟩
    | @full _ session session' hends hover =>
      have hsession : answer.2 = session := by
        rcases hends with ⟨v, rfl⟩ | ⟨e, rfl⟩ <;> cases h <;> rfl
      rw [hsession]
      obtain ⟨-, -, hlimit, hsink⟩ := hover
      obtain ⟨hnarrow, hsize⟩ := hbytes session hends
      obtain ⟨hkept, hrest⟩ := Sink.upTo_bytes hnarrow hlimit
      rw [← hsink] at hkept hrest
      have hlonger : limit < session.printed.length := hlimit
      exact ⟨_, rfl, fun h => by omega, fun _ => ⟨rfl, hkept, hrest⟩⟩
    | unfinished y => cases h

end Session

/-- Let a text that is run as a program come to an end, with all that it prints kept. On a sink that
    takes `limit` bytes it comes to an end as well: the same with the same printed, if that has no
    more bytes, and else the fault that the sink is full with the first `limit` bytes printed.
    From any machine, an evaluation does nothing to the sink but write lines, so text is only added;
    and a `println` that succeeds adds the value as it is printed, with one line feed, to what was
    printed when its argument had been evaluated. -/
theorem runSource_limited :
    (∀ (source : String) (limit fuel : Nat) (answer : Except Failure Value) (session : Session),
      runSource fuel source .unlimited = some (answer, session) →
        ∃ answer' session', runSource fuel source (.limited limit) = some (answer', session') ∧
          (byteSize session.printed.toList ≤ limit → answer' = answer ∧ session'.printed = session.printed) ∧
          (limit < byteSize session.printed.toList →
            answer' = .error (.stopped .sinkFull) ∧ byteSize session'.printed.toList = limit ∧
              ∃ rest, session.printed = session'.printed ++ rest)) ∧
    (∀ functions fuel frame e m m', (eval functions fuel frame e m).EndsIn m' →
      m.sink.Prints m'.sink ∧ ∃ added, m'.sink.text = m.sink.text ++ added) ∧
    (∀ functions fuel frame e m v m', eval functions fuel frame (.println e) m = .done v m' →
      ∃ less m₁, fuel = less + 1 ∧ eval functions less frame e m = .done v m₁ ∧ m'.frames = m₁.frames ∧
        m'.sink.text = m₁.sink.text ++ (v.render ++ "\n")) := by
  refine ⟨fun source limit fuel answer session hrun => ?_, fun functions fuel frame e m m' hends => ?_,
    fun functions fuel frame e m v m' heval => ?_⟩
  · obtain ⟨⟨answer', session'⟩, hrun', hfits, hcut⟩ :=
      Session.runText_cut (fun program => Session.runProgram_cut fuel program) hrun
    exact ⟨answer', session', hrun', hfits, hcut⟩
  · have hprints := eval_prints functions fuel frame e m m' hends
    obtain ⟨added, heq, -⟩ := hprints.text_eq
    exact ⟨hprints, added, heq⟩
  · cases fuel with
    | zero => cases heval
    | succ less =>
      obtain ⟨m₁, h, hframes, htext⟩ := eval_println heval
      exact ⟨less, m₁, rfl, h, hframes, htext⟩

def failingPrinter : Function :=
  ⟨"main", [], .block [.println (.int 12), .println (.array [.int 3, .bool true]),
    .binary .divide (.int 4) (.int 0)]⟩

theorem runSource_limited_failingPrinter : ∃ source session session',
    Program.parse source = .ok [.function failingPrinter] ∧
      runSource 9 source .unlimited = some (.error (.stopped .divisionByZero), session) ∧
        session.printed = "12\n[3, true]\n" ∧
          runSource 9 source (.limited 5) = some (.error (.stopped .sinkFull), session') ∧
            byteSize session'.printed.toList = 5 ∧ ∃ rest, session.printed = session'.printed ++ rest := by
  let source := "define main() \x7b println(12); println([3, true]); 4 / 0; \x7d"
  let session : Session :=
    ⟨Bindings.empty.insert "main" failingPrinter, { sink := ⟨"12\n[3, true]\n", none⟩ }⟩
  have hparse : Program.parse source = .ok [.function failingPrinter] := eq_ok_of_toOption (by decide +kernel)
  have hrun : runSource 9 source .unlimited = some (.error (.stopped .divisionByZero), session) := by
    unfold runSource Session.runText
    rw [hparse]
    rfl
  obtain ⟨answer', session', hrun', -, hcut⟩ := runSource_limited.1 source 5 9 _ _ hrun
  obtain ⟨rfl, hbytes, hrest⟩ := hcut (by decide)
  exact ⟨source, session, session', hparse, hrun, rfl, hrun', hbytes, hrest⟩

end Scriptling
