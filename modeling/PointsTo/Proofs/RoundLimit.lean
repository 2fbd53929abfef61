import PointsTo.Proofs.LeastSolution

/-!
# How many rounds a run needs, and the limit on them

A state determines how many of the rounds to come will change something: `Solver.roundsLeft`.  Each
round that does so takes one from it and adds one to the rounds counted, and the round that confirms
the fixed point does neither.  So the sum of the two stays the same however far a solver is taken,
and so does the state in which it ends (`Solver.last`).

The outcome of a run depends on these numbers alone (`Solver.run_eq`).  There are two consequences.

* From the start, the limit is exact: a run gives the solution that it gives without a limit if that
  takes at most so many rounds, and fails otherwise.
* The limit is looked at after a round that changes something, and only by a run.  A solver that was
  taken to its last changing round by hand has no such round left, so that its run succeeds whatever
  the limit is.
-/

set_option autoImplicit false

namespace PointsTo

namespace Solver

/-! ## The rounds to come -/

/-- How many of the rounds to come change the environment. -/
def roundsLeft (s : Solver) : Nat :=
  if h : s.round.atFixedPoint = true then 0 else s.round.roundsLeft + 1
termination_by s.room
decreasing_by exact room_round_lt (Bool.eq_false_iff.mpr h)

theorem roundsLeft_of_changed {s : Solver} (h : s.round.atFixedPoint = false) :
    s.roundsLeft = s.round.roundsLeft + 1 := by
  rw [roundsLeft, dif_neg (by simp [h])]

/-- A round reaches the fixed point exactly if no change is left. -/
theorem atFixedPoint_round_iff {s : Solver} :
    s.round.atFixedPoint = true ↔ s.roundsLeft = 0 := by
  cases h : s.round.atFixedPoint with
  | true => simp [roundsLeft, h]
  | false => simp [roundsLeft_of_changed h]

theorem roundsLeft_of_atFixedPoint {s : Solver} (h : s.atFixedPoint = true) : s.roundsLeft = 0 := by
  rw [← atFixedPoint_round_iff, round_of_atFixedPoint h]
  exact h

/-- Each round takes one from the rounds left, until there is none. -/
theorem roundsLeft_round (s : Solver) : s.round.roundsLeft = s.roundsLeft - 1 := by
  cases h : s.round.atFixedPoint with
  | true => rw [roundsLeft_of_atFixedPoint h, atFixedPoint_round_iff.mp h]
  | false => rw [roundsLeft_of_changed h, Nat.add_sub_cancel]

/-- What a round takes from the rounds left it adds to those counted. -/
theorem rounds_add_roundsLeft_round (s : Solver) :
    s.round.rounds + s.round.roundsLeft = s.rounds + s.roundsLeft := by
  cases h : s.round.atFixedPoint with
  | true =>
    rw [rounds_round_of_atFixedPoint h, roundsLeft_of_atFixedPoint h, atFixedPoint_round_iff.mp h]
  | false =>
    rw [rounds_round_of_changed h, roundsLeft_of_changed h]
    omega

theorem roundsLeft_iterate (s : Solver) (k : Nat) :
    (Solver.round^[k] s).roundsLeft = s.roundsLeft - k := by
  induction k with
  | zero => rfl
  | succ k ih => rw [Function.iterate_succ_apply', roundsLeft_round, ih, Nat.sub_sub]

theorem rounds_add_roundsLeft_iterate (s : Solver) (k : Nat) :
    (Solver.round^[k] s).rounds + (Solver.round^[k] s).roundsLeft = s.rounds + s.roundsLeft :=
  Function.Iterate.rec
    (fun t : Solver ↦ t.rounds + t.roundsLeft = s.rounds + s.roundsLeft) rfl
    (fun t h ↦ (rounds_add_roundsLeft_round t).trans h) k

/-- The rounds that change something come first, and the one after them confirms the fixed point. -/
theorem atFixedPoint_iterate_iff {s : Solver} (h : s.atFixedPoint = false) (k : Nat) :
    (Solver.round^[k] s).atFixedPoint = true ↔ s.roundsLeft < k := by
  cases k with
  | zero => simp [h]
  | succ k =>
    rw [Function.iterate_succ_apply', atFixedPoint_round_iff, roundsLeft_iterate]
    omega

/-! ## Rounds that change something add facts -/

/-- **The rounds to come that change something are those that add a fact.** -/
theorem size_iterate_lt_iff (s : Solver) (k : Nat) :
    (Solver.round^[k] s).environment.size < (Solver.round^[k + 1] s).environment.size ↔
      k < s.roundsLeft := by
  have hleft := roundsLeft_iterate s k
  rw [Function.iterate_succ_apply']
  cases h : (Solver.round^[k] s).round.atFixedPoint with
  | true =>
    have h0 := atFixedPoint_round_iff.mp h
    have hle := Environment.size_le_of_le (round_le_of_atFixedPoint h)
    omega
  | false =>
    have hpos := roundsLeft_of_changed h
    have hlt := size_lt_size_round h
    omega

/-- No change is left exactly if the next round moves nothing. -/
theorem roundsLeft_le_iff (s : Solver) (k : Nat) :
    s.roundsLeft ≤ k ↔ ∀ t, (Solver.round^[k + 1] s).environment.pointsTo t =
      (Solver.round^[k] s).environment.pointsTo t := by
  have hle : (Solver.round^[k] s).environment ≤ (Solver.round^[k + 1] s).environment := by
    rw [Function.iterate_succ_apply']
    exact le_round _
  rw [← Nat.not_lt, ← size_iterate_lt_iff, Environment.size_lt_iff_lt_of_le hle, lt_iff_le_not_ge,
    Environment.forall_pointsTo_eq_iff]
  simp only [hle, true_and, not_not, and_true]

/-- **A solver has found every derivable fact as soon as no change is left**, and not before. -/
theorem forall_mem_iterate_iff (p : Program) (o : Options) (k : Nat) :
    (∀ t l, Derives p.instructions t l →
      l ∈ (Solver.round^[k] (start p o)).environment.pointsTo t) ↔
      (start p o).roundsLeft ≤ k := by
  constructor
  · intro h
    by_contra hk
    have hlt := ((start p o).size_iterate_lt_iff k).mpr (Nat.lt_of_not_le hk)
    have hle : (Solver.round^[k + 1] (start p o)).environment ≤
        (Solver.round^[k] (start p o)).environment :=
      fun t l hl ↦ h t l (derives_of_mem_iterate p o (k + 1) hl)
    exact absurd hlt (Nat.not_lt.mpr (Environment.size_le_of_le hle))
  · intro hk t l hd
    have hleft : (Solver.round^[k] (start p o)).roundsLeft = 0 := by
      rw [roundsLeft_iterate]
      omega
    have hfixed := atFixedPoint_round_iff.mpr hleft
    have hnext := mem_iterate_iff_derives p o (k + 1) (s := t) (l := l)
    rw [Function.iterate_succ_apply'] at hnext
    exact round_le_of_atFixedPoint hfixed t l ((hnext hfixed).mpr hd)

/-! ## Where a run ends -/

/-- The state in which a run ends if no limit stops it. -/
def last (s : Solver) : Solver := Solver.round^[s.roundsLeft + 1] s

/-- A round is a step on the way to the same end. -/
theorem last_round (s : Solver) : s.round.last = s.last := by
  cases h : s.round.atFixedPoint with
  | true =>
    rw [last, last, roundsLeft_of_atFixedPoint h, atFixedPoint_round_iff.mp h]
    exact round_of_atFixedPoint h
  | false =>
    rw [last, last, roundsLeft_of_changed h]
    exact (Function.iterate_succ_apply ..).symm

theorem last_iterate (s : Solver) (k : Nat) : (Solver.round^[k] s).last = s.last :=
  Function.Iterate.rec (fun t : Solver ↦ t.last = s.last) rfl
    (fun t h ↦ (last_round t).trans h) k

theorem atFixedPoint_last (s : Solver) : s.last.atFixedPoint = true := by
  rw [last, Function.iterate_succ_apply', atFixedPoint_round_iff, roundsLeft_iterate, Nat.sub_self]

/-- After the round that confirms the fixed point, nothing happens any more. -/
theorem iterate_eq_last {s : Solver} {k : Nat} (h : s.roundsLeft < k) :
    Solver.round^[k] s = s.last := by
  obtain ⟨n, rfl⟩ := Nat.exists_eq_add_of_lt h
  rw [show s.roundsLeft + n + 1 = n + (s.roundsLeft + 1) by omega, Function.iterate_add_apply]
  exact Function.iterate_fixed (round_of_atFixedPoint s.atFixedPoint_last) n

theorem rounds_last (s : Solver) : s.last.rounds = s.rounds + s.roundsLeft := by
  have hsum := rounds_add_roundsLeft_iterate s (s.roundsLeft + 1)
  have hleft := roundsLeft_of_atFixedPoint s.atFixedPoint_last
  rw [last] at hleft ⊢
  omega

/-- **The outcome of a run from any state.**  The limit counts if there is a change left, and it
counts the rounds made before the run as well. -/
theorem run_eq (s : Solver) :
    s.run = match s.options.maxRounds with
      | none => .ok s.last.solution
      | some n => if s.roundsLeft = 0 ∨ s.last.rounds ≤ n then .ok s.last.solution
          else .error (.roundLimitExceeded n) := by
  fun_induction run s with
  | case1 s hfixed =>
    have h0 := atFixedPoint_round_iff.mp hfixed
    have hlast : s.last = s.round := by rw [last, h0]; rfl
    rw [hlast]
    cases s.options.maxRounds with
    | none => rfl
    | some n => simp only [h0, true_or, if_true]
  | case2 s hfixed limit hlimit =>
    -- the count has passed the limit, and it does not go down again
    have hchanged := Bool.eq_false_iff.mpr hfixed
    rw [exceededLimit, options_round, Option.filter_eq_some_iff, decide_eq_true_iff] at hlimit
    obtain ⟨hlimit, hlt⟩ := hlimit
    have hsum := rounds_last s.round
    have hpos := roundsLeft_of_changed hchanged
    rw [last_round] at hsum
    rw [hlimit]
    dsimp only
    rw [if_neg (by omega)]
  | case3 s hfixed hlimit ih =>
    have hchanged := Bool.eq_false_iff.mpr hfixed
    rw [ih, last_round, options_round]
    cases hmax : s.options.maxRounds with
    | none => rfl
    | some n =>
      rw [exceededLimit, options_round, hmax, Option.filter_some] at hlimit
      have hle : ¬ n < s.round.rounds := by simpa using hlimit
      have hsum := rounds_last s.round
      have hpos := roundsLeft_of_changed hchanged
      rw [last_round] at hsum
      dsimp only
      -- with no change left after this round, the count is at the limit at most
      exact if_congr (by omega) rfl rfl

/-! ## What rounds do not see -/

section Semiconj

variable {φ : Solver → Solver}

/-- A change of state that commutes with rounds and keeps the fixed point leaves as many of them. -/
theorem roundsLeft_of_semiconj (hround : Function.Semiconj φ round round)
    (hfixed : ∀ s, (φ s).atFixedPoint = s.atFixedPoint) (s : Solver) :
    (φ s).roundsLeft = s.roundsLeft := by
  fun_induction roundsLeft s with
  | case1 s h =>
    rw [← atFixedPoint_round_iff, ← hround s, hfixed]
    exact h
  | case2 s h ih =>
    have hchanged : (φ s).round.atFixedPoint = false := by
      rw [← hround s, hfixed]
      exact Bool.eq_false_iff.mpr h
    rw [roundsLeft_of_changed hchanged, ← hround s, ih]

/-- So the run ends where it ended before, up to that change. -/
theorem last_of_semiconj (hround : Function.Semiconj φ round round)
    (hfixed : ∀ s, (φ s).atFixedPoint = s.atFixedPoint) (s : Solver) :
    (φ s).last = φ s.last := by
  rw [last, last, roundsLeft_of_semiconj hround hfixed]
  exact (hround.iterate_right _ s).symm

end Semiconj

/-- The same state under another limit. -/
def withLimit (s : Solver) (limit : Option Nat) : Solver :=
  { s with options := { s.options with maxRounds := limit } }

theorem round_withLimit (s : Solver) (limit : Option Nat) :
    (s.withLimit limit).round = s.round.withLimit limit := by
  cases h : s.atFixedPoint with
  | true => rw [round_of_atFixedPoint h, round_of_atFixedPoint (s := s.withLimit limit) h]
  | false => simp only [round, withLimit, h]; rfl

theorem roundsLeft_withLimit (s : Solver) (limit : Option Nat) :
    (s.withLimit limit).roundsLeft = s.roundsLeft :=
  roundsLeft_of_semiconj (φ := fun t ↦ t.withLimit limit)
    (fun t ↦ (round_withLimit t limit).symm) (fun _ ↦ rfl) s

theorem last_withLimit (s : Solver) (limit : Option Nat) :
    (s.withLimit limit).last = s.last.withLimit limit :=
  last_of_semiconj (φ := fun t ↦ t.withLimit limit)
    (fun t ↦ (round_withLimit t limit).symm) (fun _ ↦ rfl) s

/-! ## From the start -/

theorem rounds_last_start (p : Program) (o : Options) :
    (start p o).last.rounds = (start p o).roundsLeft := by
  rw [rounds_last]
  exact Nat.zero_add _

/-- The outcome of a run after some rounds made by hand. -/
theorem run_iterate_start (p : Program) (o : Options) (k : Nat) :
    (Solver.round^[k] (start p o)).run = match o.maxRounds with
      | none => .ok (start p o).last.solution
      | some n => if (start p o).last.rounds ≤ n ∨ (start p o).last.rounds ≤ k
          then .ok (start p o).last.solution else .error (.roundLimitExceeded n) := by
  have hrounds := rounds_last_start p o
  have hleft := (start p o).roundsLeft_iterate k
  rw [run_eq, last_iterate, options_iterate_round]
  change (match o.maxRounds with | none => _ | some n => _) = _
  cases o.maxRounds with
  | none => rfl
  | some n => exact if_congr (by omega) rfl rfl

end Solver

theorem Program.solve_of_unlimited (p : Program) {o : Options} (h : o.maxRounds = none) :
    p.solve o = .ok (Solver.start p o).last.solution := by
  have hrun := Solver.run_eq (Solver.start p o)
  rwa [show (Solver.start p o).options.maxRounds = none from h] at hrun

/-- **The limit is exact.**  With a limit the analysis gives the solution that it gives without one,
if that takes at most so many rounds, and fails otherwise.  What a solution counts are the rounds
that add a fact: they come first, and the fixed point is confirmed by one round more. -/
theorem Program.solve_limit (p : Program) (keep : Bool) :
    ∃ sol, p.solve { maxRounds := none, keepDerived := keep } = .ok sol ∧
      (∀ n, p.solve { maxRounds := some n, keepDerived := keep } =
        if sol.rounds ≤ n then .ok sol else .error (.roundLimitExceeded n)) ∧
      ∀ k, let s := Solver.start p { maxRounds := none, keepDerived := keep }
        ((Solver.round^[k] s).environment.size < (Solver.round^[k + 1] s).environment.size ↔
          k < sol.rounds) ∧
        ((Solver.round^[k] s).atFixedPoint = true ↔ sol.rounds < k) := by
  let s := Solver.start p { maxRounds := none, keepDerived := keep }
  have hrounds : s.last.rounds = s.roundsLeft := Solver.rounds_last_start p _
  refine ⟨s.last.solution, p.solve_of_unlimited rfl, ?_, ?_⟩
  · intro n
    have hrun := Solver.run_eq (s.withLimit (some n))
    rw [Solver.last_withLimit, Solver.roundsLeft_withLimit] at hrun
    refine hrun.trans (if_congr ?_ rfl rfl)
    change s.roundsLeft = 0 ∨ s.last.rounds ≤ n ↔ s.last.rounds ≤ n
    omega
  · intro k
    change (_ ↔ k < s.last.rounds) ∧ (_ ↔ s.last.rounds < k)
    rw [hrounds]
    exact ⟨s.size_iterate_lt_iff k, Solver.atFixedPoint_iterate_iff rfl k⟩

/-- **Rounds made by hand before a run.**  They count against the limit like those of the run, but
nothing checks the limit once the last change is made: after as many rounds as the solution takes, a
run gives the solution, where a run from the start would fail.  In all other cases the outcome is
that of a run from the start. -/
theorem Program.run_after_rounds (p : Program) (o : Options) :
    ∃ sol, p.solve { o with maxRounds := none } = .ok sol ∧ ∀ k,
      ((Solver.round^[k] (Solver.start p o)).run = match o.maxRounds with
        | none => .ok sol
        | some n => if sol.rounds ≤ n ∨ sol.rounds ≤ k then .ok sol
            else .error (.roundLimitExceeded n)) ∧
      ((Solver.round^[k] (Solver.start p o)).run = p.solve o ↔
        ∀ n, o.maxRounds = some n → n < sol.rounds → k < sol.rounds) := by
  have hsolve : p.solve { o with maxRounds := none } =
      .ok (Solver.start p o).last.solution := by
    have hlast := congrArg Solver.solution ((Solver.start p o).last_withLimit none)
    exact (p.solve_of_unlimited rfl).trans (congrArg Except.ok hlast)
  refine ⟨_, hsolve, fun k ↦ ⟨Solver.run_iterate_start p o k, ?_⟩⟩
  change _ = (Solver.round^[0] (Solver.start p o)).run ↔ ∀ n, o.maxRounds = some n →
    n < (Solver.start p o).last.rounds → k < (Solver.start p o).last.rounds
  rw [Solver.run_iterate_start p o k, Solver.run_iterate_start p o 0]
  generalize (Solver.start p o).last.rounds = r
  cases o.maxRounds with
  | none => simp
  | some n =>
    simp only [Option.some.injEq, forall_eq']
    by_cases hn : r ≤ n
    · rw [if_pos (.inl hn), if_pos (.inl hn)]
      exact ⟨fun _ h ↦ by omega, fun _ ↦ rfl⟩
    · -- a run from the start fails, and a later one does unless nothing is left to change
      rw [if_neg (show ¬ (r ≤ n ∨ r ≤ 0) by omega)]
      by_cases hk : r ≤ k
      · rw [if_pos (.inr hk)]
        exact ⟨fun h ↦ (by cases h), fun h ↦ absurd (h (by omega)) (by omega)⟩
      · rw [if_neg (by omega)]
        exact ⟨fun _ _ ↦ by omega, fun _ ↦ rfl⟩

/-- A solver that is taken past its limit by hand gives a solution, though its program needs more
rounds than the limit allows. -/
theorem Program.run_after_round_ignores_limit :
    let p : Program := ⟨[.alloca "a", .move "b" "a"]⟩
    let o : Options := { maxRounds := some 0 }
    p.solve o = .error (.roundLimitExceeded 0) ∧
      Solution.rounds <$> (Solver.round^[1] (Solver.start p o)).run = .ok 1 := by
  decide +kernel

end PointsTo
