/-
  Scriptling.Proofs.Eval.Counting — a counted loop runs exactly its range.

  A counted loop evaluates its body for each integer from the first up to the bound, which it does not
  reach. The body may do what it likes, as long as it leaves the counter alone and does not change what
  the bound evaluates to. Counting on to the next integer does not overflow, since that is at most the
  bound.
  - `LoopSpace`: what the loop relies on, on every machine of a set that it does not leave.
  - `LoopSpace.round`, `LoopSpace.rounds`: one round, and by induction on what is left of the range all
    of them.
  - `Frames.owning`: the frame that owns a name, or would come to, stays the same through every
    evaluation. So the counter is left where it was before the loop.
  - `counted_loop_runs_range`: the loop as a whole.
-/

import Scriptling.Grammar.Line
import Scriptling.Proofs.Eval.Invariant
import Scriptling.Proofs.Eval.Rounds
import Scriptling.Proofs.Frames.Tree

namespace Scriptling

open Run

/-! ## The owner of a name -/

namespace Frames

variable {frames frames' : Frames} {frame k : Nat} {x : String}

theorem nearest_congr (h : ∀ j ≤ k, frames'.Binds j x ↔ frames.Binds j x) : frames'.nearest x k = frames.nearest x k := by
  induction k with
  | zero => simp only [nearest, h 0 (Nat.le_refl 0)]
  | succ k ih => simp only [nearest, h (k + 1) (Nat.le_refl _), ih fun j hj => h j (Nat.le_succ_of_le hj)]

/-- In a stack, assigning a name from a frame above does not change where frame `k` would assign it. -/
theorem nearest_assigned (hlive : frame < frames.depth) (hk : k ≤ frame) (y : String) (v : Value) :
    ((frames.assigned frame y v).nearest x k).getD k = (frames.nearest x k).getD k := by
  by_cases hnew : frames.nearest y frame = none ∧ y = x
  · obtain ⟨hnone, rfl⟩ := hnew
    have hunbound : ∀ j ≤ frame, ¬ frames.Binds j y := by
      intro j hj hb
      have hsome := (nearest_isSome_iff frames y frame).mpr ⟨j, hj, hb⟩
      rw [hnone] at hsome
      cases hsome
    have hbefore : frames.nearest y k = none := by
      cases hfound : frames.nearest y k with
      | none => rfl
      | some owner =>
        obtain ⟨hle, hb⟩ := nearest_eq_some hfound
        exact absurd hb (hunbound owner (Nat.le_trans hle hk))
    -- Now only the frame itself binds the name, and frame `k` sees that only if it is the same.
    rw [hbefore]
    cases hfound : (frames.assigned frame y v).nearest y k with
    | none => rfl
    | some owner =>
      obtain ⟨hle, hb⟩ := nearest_eq_some hfound
      rcases binds_assigned hlive hb with hb | ⟨rfl, -⟩
      · exact absurd hb (hunbound owner (Nat.le_trans hle hk))
      · exact Nat.le_antisymm hle hk
  · rw [nearest_congr fun j hj => ?_]
    constructor
    · intro hb
      rcases (binds_bind (owner_live hlive y) y x v j).mp hb with ⟨rfl, rfl⟩ | hb
      · cases hfound : frames.nearest x frame with
        | none => exact absurd ⟨hfound, rfl⟩ hnew
        | some owner => exact (nearest_eq_some hfound).2
      · exact hb
    · exact fun hb => hb.assigned hlive y v

/-- Frame `k` is live, and would assign the name in frame `o`. -/
def owning (k : Nat) (x : String) (o : Nat) : Invariant where
  Holds _ frame frames := frames.OnTop frame ∧ k ≤ frame ∧ (frames.nearest x k).getD k = o
  onTop h := h.1
  assign := by
    intro _ frame frames h y v
    obtain ⟨htop, hk, howner⟩ := h
    exact ⟨htop.assigned y v, hk, (nearest_assigned htop.live hk y v).trans howner⟩
  enter := by
    intro _ frame frames h _ entries
    obtain ⟨htop, hk, howner⟩ := h
    have hlive (j : Nat) (hj : j ≤ k) : j < frames.depth :=
      Nat.lt_of_le_of_lt (Nat.le_trans hj hk) htop.live
    refine ⟨htop.enter entries, Nat.le_succ_of_le hk, ?_⟩
    rw [nearest_congr fun j hj => binds_enter (hlive j hj) frame entries x]
    exact howner
  leave := by
    intro _ frame before frames frames' hbefore h hpop
    obtain ⟨htop', hown⟩ := h.1.of_pop hpop
    refine ⟨htop', hbefore.2.1, ?_⟩
    rw [nearest_congr fun j hj => binds_congr (hown j (Nat.le_trans hj hbefore.2.1)) x]
    exact h.2.2

theorem OnTop.target_eq (h : frames.OnTop frame) (x : String) :
    frames.target frame x = (frames.nearest x frame).getD frame := by
  rw [target, h.1.owner?_eq h.live]

end Frames

variable {functions : Functions} {frame : Nat} {i : String} {first bound body : Expr} {a b n : Int}
  {m m₁ m' : Machine} {v : Value}

/-- Evaluating an expression does not change where a name would be assigned. -/
theorem Evaluates.target_eq {e : Expr} (h : Evaluates functions frame e m v m') (htop : m.frames.OnTop frame)
    (x : String) : m'.frames.target frame x = m.frames.target frame x := by
  obtain ⟨N, hN⟩ := h
  have hagree := (Frames.owning frame x (m.frames.target frame x)).eval_agree functions N 0 frame e
  have hends := hagree.of_done ⟨htop, Nat.le_refl frame, (htop.target_eq x).symm⟩ (hN N (Nat.le_refl N))
  rw [hends.1.target_eq x]
  exact hends.2.2

/-! ## Rounds -/

def Expr.counterTest (i : String) (bound : Expr) : Expr := .binary .less (.var i) bound

def Expr.counterRound (i : String) (body : Expr) : Expr :=
  .block [body, .assign i (.binary .add (.var i) (.int 1))]

/-- Counting on below a 64-bit integer gives one again. -/
theorem isWord_succ (hb : isWord b = true) (hn : isWord n = true) (hlt : n < b) : isWord (n + 1) = true := by
  simp only [isWord, Bool.and_eq_true, decide_eq_true_eq] at hb hn ⊢
  omega

/-- On the machines of `S` the bound has the value `b` and changes nothing, and the body ends with a
    value and leaves alone what the counter `i` reads and which frame owns it. The body and
    assigning integers to the counter do not lead out of `S`. -/
structure LoopSpace (functions : Functions) (frame : Nat) (i : String) (bound body : Expr) (b : Int)
    (S : Machine → Prop) : Prop where
  stacked : ∀ m, S m → m.frames.IsStack ∧ frame < m.frames.depth
  assigned : ∀ m, S m → ∀ n, isWord n = true → ∀ after, m.frames.assign frame i (.int n) = .ok after →
    S { m with frames := after }
  closed : ∀ m, S m → ∀ v m', Evaluates functions frame body m v m' → S m'
  bound : ∀ m, S m → Evaluates functions frame bound m (.int b) m
  body : ∀ m, S m → ∃ v m', Evaluates functions frame body m v m' ∧
    m'.frames.read? frame i = m.frames.read? frame i ∧ m'.frames.owner? frame i = m.frames.owner? frame i

namespace LoopSpace

variable {S : Machine → Prop} {o : Nat} (space : LoopSpace functions frame i bound body b S)
include space

theorem test (hm : S m) (hread : m.frames.read? frame i = some (.int n)) :
    Evaluates functions frame (.counterTest i bound) m (.bool (n < b)) m :=
  (Evaluates.var hread).binary (space.bound m hm) rfl

/-- One round counts on by one, and the counter stays where it is. -/
theorem round (hb : isWord b = true) (hn : isWord n = true) (hlt : n < b) (hm : S m)
    (hread : m.frames.read? frame i = some (.int n)) (howner : m.frames.owner? frame i = some o) :
    ∃ v m', Evaluates functions frame (.counterRound i body) m v m' ∧ S m' ∧
      m'.frames.read? frame i = some (.int (n + 1)) ∧ m'.frames.owner? frame i = some o := by
  obtain ⟨v, m₁, hbody, hread', howner'⟩ := space.body m hm
  have hm₁ := space.closed m hm v m₁ hbody
  have hlive := (space.stacked m₁ hm₁).2
  have hnext := isWord_succ hb hn hlt
  have hsum : Operator.add.apply (.int n) (.int 1) = .ok (.int (n + 1)) := if_pos hnext
  have htarget : m₁.frames.target frame i = o := by rw [Frames.target, howner', howner]; rfl
  have hassign := Frames.assign_eq hlive i (.int (n + 1))
  have hcount : Evaluates functions frame (.assign i (.binary .add (.var i) (.int 1))) m₁ (.int (n + 1)) _ :=
    ((Evaluates.var (hread'.trans hread)).binary (.int 1) hsum).assign hassign
  refine ⟨_, _, hbody.block_pair hcount, space.assigned m₁ hm₁ (n + 1) hnext _ hassign,
    Frames.read?_assigned hlive i _, ?_⟩
  rw [Frames.owner?_assigned hlive i, htarget]

/-- From the integer `n` on, there is a round for each integer up to the bound. -/
theorem rounds (hb : isWord b = true) (hn : isWord n = true) (hm : S m)
    (hread : m.frames.read? frame i = some (.int n)) (howner : m.frames.owner? frame i = some o) :
    ∃ visits m', Rounds functions frame (.counterTest i bound) (.counterRound i body) m visits m' ∧
      visits.map (fun s => s.frames.read? frame i) =
        (List.range (b - n).toNat).map (fun j => some (.int (n + j))) ∧
      (∀ s ∈ visits, S s) ∧ m'.frames.read? frame i = some (.int (max n b)) ∧
        m'.frames.owner? frame i = some o := by
  -- The induction is on how much of the range is left, which need not fit into 64 bits.
  generalize hleft : (b - n).toNat = left
  induction left generalizing n m with
  | zero =>
    have hdone : ¬ n < b := by omega
    have htest := space.test hm hread
    rw [decide_eq_false hdone] at htest
    refine ⟨[], m, .stop htest, rfl, fun s hs => absurd hs List.not_mem_nil, ?_, howner⟩
    rw [hread, Int.max_eq_left (by omega)]
  | succ left ih =>
    have hlt : n < b := by omega
    have htest := space.test hm hread
    rw [decide_eq_true hlt] at htest
    obtain ⟨v, m₁, hround, hm₁, hread₁, howner₁⟩ := space.round hb hn hlt hm hread howner
    obtain ⟨visits, m', hrounds, hvisits, hS, hlast, hplace⟩ := ih (isWord_succ hb hn hlt) hm₁ hread₁ howner₁ (by omega)
    refine ⟨m :: visits, m', .round htest hround hrounds, ?_, List.forall_mem_cons.mpr ⟨hm, hS⟩, ?_, hplace⟩
    · rw [List.map_cons, hvisits, hread, List.range_succ_eq_map, List.map_cons, List.map_map]
      congr 1
      · simp
      · refine List.map_congr_left fun j _ => ?_
        simp only [Function.comp]
        congr 2
        omega
    · rw [hlast, Int.max_eq_right (by omega), Int.max_eq_right (by omega)]

end LoopSpace

/-! ## The whole loop -/

/-- Where the first value of the counter is `a` and that of the bound stays `b`, a counted loop ends with
    `true`, and with no amount of fuel in another way, as far as it ends. Its body is entered once for
    each integer from `a` up to `b`, which the counter then reads, and in the end the counter reads the
    greater one of `a` and `b`, in the frame that owned it before, or else in the frame of the loop.
    Neither `b` nor the length of the range matters. -/
theorem counted_loop_runs_range {functions : Functions} {frame : Nat} {i : String} {first bound body : Expr}
    {a b : Int} (ha : isWord a = true) (hb : isWord b = true) {S : Machine → Prop}
    (space : LoopSpace functions frame i bound body b S) {m m₁ : Machine}
    (hfirst : Evaluates functions frame first m (.int a) m₁) {entered : Frames}
    (hassign : m₁.frames.assign frame i (.int a) = .ok entered) (hentered : S { m₁ with frames := entered }) :
    ∃ m' visits o,
      Evaluates functions frame (Grammar.countedLoop i first bound body) m (.bool true) m' ∧
      (∀ fuel, eval functions fuel frame (Grammar.countedLoop i first bound body) m = .unfinished ∨
        eval functions fuel frame (Grammar.countedLoop i first bound body) m = .done (.bool true) m') ∧
      (∀ visits' m'', Rounds functions frame (.counterTest i bound) (.counterRound i body)
        { m₁ with frames := entered } visits' m'' ↔ visits' = visits ∧ m'' = m') ∧
      (visits.length : Int) = max 0 (b - a) ∧
      visits.map (fun s => s.frames.read? frame i) =
        (List.range (b - a).toNat).map (fun j => some (.int (a + j))) ∧
      (∀ s ∈ visits, S s) ∧
      o = (m₁.frames.owner? frame i).getD frame ∧
      (m.frames.OnTop frame → o = (m.frames.owner? frame i).getD frame) ∧
      m'.frames.owner? frame i = some o ∧ m'.frames.get? o i = some (.int (max a b)) ∧
      m'.frames.read? frame i = some (.int (max a b)) := by
  obtain rfl := Frames.eq_of_assign hassign
  have hlive : frame < m₁.frames.depth := by simpa using (space.stacked _ hentered).2
  obtain ⟨visits, m', hrounds, hvisits, hS, hlast, howner⟩ :=
    space.rounds hb ha hentered (Frames.read?_assigned hlive i _) (Frames.owner?_assigned hlive i _)
  have hloop : Evaluates functions frame (Grammar.countedLoop i first bound body) m (.bool true) m' :=
    (hfirst.assign hassign).block_pair (evaluates_whileDo_iff.mpr ⟨rfl, visits, hrounds⟩)
  refine ⟨m', visits, m₁.frames.target frame i, hloop, hloop.eval_cases, fun visits' m'' => ⟨?_, ?_⟩, ?_, hvisits, hS,
    rfl, fun htop => hfirst.target_eq htop i, howner, ?_, hlast⟩
  · exact fun hrounds' => hrounds'.unique hrounds
  · rintro ⟨rfl, rfl⟩
    exact hrounds
  · have hlength := congrArg List.length hvisits
    simp only [List.length_map, List.length_range] at hlength
    omega
  · rwa [Frames.read?, howner] at hlast

def Expr.countAll : Expr :=
  Grammar.countedLoop "i" (.int (-9223372036854775808)) (.int 9223372036854775807) (.assign "last" (.var "i"))

def Machine.Counts (m : Machine) : Prop := m.frames.OnTop 0 ∧ (m.frames.read? 0 "i").isSome

theorem Machine.Counts.space :
    LoopSpace {} 0 "i" (.int 9223372036854775807) (.assign "last" (.var "i")) 9223372036854775807 Machine.Counts := by
  have hbody {m : Machine} (hm : m.Counts) : ∃ v, m.frames.read? 0 "i" = some v ∧
      Evaluates {} 0 (.assign "last" (.var "i")) m v
        { m with frames := m.frames.bind (m.frames.target 0 "last") "last" v } := by
    obtain ⟨v, hv⟩ := Option.isSome_iff_exists.mp hm.2
    exact ⟨v, hv, (Evaluates.var hv).assign (Frames.assign_eq hm.1.live "last" v)⟩
  have hother {m : Machine} (v : Value) :
      ¬ ("i" = "last" ∧ (m.frames.bind (m.frames.target 0 "last") "last" v).owner? 0 "last" =
        some (m.frames.target 0 "last")) := fun h => absurd h.1 (by decide)
  have hbind {m : Machine} (hm : m.Counts) (o : Nat) (x : String) (v : Value) : (m.frames.bind o x v).OnTop 0 :=
    ⟨hm.1.1.bind o x v, by simpa using hm.1.2⟩
  refine ⟨fun m hm => ⟨hm.1.1, hm.1.live⟩, fun m hm n _ after hassign => ?_, fun m hm v m' heval => ?_,
    fun m _ => .int _, fun m hm => ?_⟩
  · obtain rfl := Frames.eq_of_assign hassign
    refine ⟨hbind hm _ _ _, ?_⟩
    rw [Frames.read?_assigned hm.1.live "i"]
    rfl
  · obtain ⟨w, hw, hbody⟩ := hbody hm
    obtain ⟨rfl, rfl⟩ := heval.unique hbody
    refine ⟨hbind hm _ _ _, ?_⟩
    rw [Frames.read?_bind (Frames.target_live hm.1.live "last"), if_neg (hother v)]
    exact hm.2
  · obtain ⟨w, hw, hbody⟩ := hbody hm
    have hlast := Frames.target_live hm.1.live "last"
    refine ⟨w, _, hbody, ?_, Frames.owner?_bind hlast "last" w 0 "i" (hother w)⟩
    rw [Frames.read?_bind hlast, if_neg (hother w)]

/-- The range is longer than any 64-bit integer, and the counter ends at the greatest one. -/
theorem counted_loop_runs_range_countAll : ∃ m' visits,
    Evaluates {} 0 Expr.countAll {} (.bool true) m' ∧
      Rounds {} 0 (.counterTest "i" (.int 9223372036854775807)) (.counterRound "i" (.assign "last" (.var "i")))
        { frames := Frames.initial.bind 0 "i" (.int (-9223372036854775808)) } visits m' ∧
      visits.length = 18446744073709551615 ∧ m'.frames.get? 0 "i" = some (.int 9223372036854775807) := by
  have hfirst : Evaluates {} 0 (.int (-9223372036854775808)) {} (.int (-9223372036854775808)) {} := .int _
  have hentered : Machine.Counts { frames := Frames.initial.bind 0 "i" (.int (-9223372036854775808)) } :=
    ⟨by decide, rfl⟩
  obtain ⟨m', visits, o, hloop, -, hrounds, hlength, -, -, ho, -, -, hlast, -⟩ :=
    counted_loop_runs_range (by decide) (by decide) Machine.Counts.space hfirst rfl hentered
  obtain rfl : o = 0 := ho
  exact ⟨m', visits, hloop, (hrounds visits m').mpr ⟨rfl, rfl⟩, by omega, hlast⟩

end Scriptling
