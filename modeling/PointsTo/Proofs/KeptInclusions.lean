import PointsTo.Proofs.Entries
import PointsTo.Proofs.RoundLimit

/-!
# Starting rounds with more inclusions

A round can start with the store inclusions of the round before (`Options.keepDerived`), or leave
them to be derived again.  Two solvers that differ in this only take different ways: they evaluate
different inclusions, and so derive different ones from then on.

* They end with the same result, in every field but the count of rounds.  The facts and the entries
  at the fixed point are determined by the program, and the inclusions on record by the facts.
* After equally many rounds, the one that keeps them is never behind (`Solver.Behind`).  A pass over
  more inclusions need not lead further: these may come in another order, and an inclusion that is
  evaluated early misses what a later one adds to its source.  But inclusions of stores do not feed
  each other, and neither do inclusions of loads, so that a pass over them moves only what is there
  when it starts (`Inclusion.Flat`).

So the one that keeps its inclusions never takes more rounds, and it can take fewer.
-/

set_option autoImplicit false

namespace PointsTo

namespace Solver

open Inclusion

/-! ## The same result -/

theorem last_start_settled (p : Program) (o : Options) : (start p o).last.Settled :=
  settled_iterate p o _ (atFixedPoint_last _)

theorem program_last (s : Solver) : s.last.program = s.program := program_iterate_round s _

theorem mem_last_start_iff (p : Program) (o : Options) {t : Storage} :
    t ∈ (start p o).last.environment ↔ HasEntry p.instructions t :=
  mem_iterate_iff_hasEntry p o _ (atFixedPoint_last _)

theorem mem_pointsTo_last_start_iff (p : Program) (o : Options) {t : Storage} {l : Location} :
    l ∈ (start p o).last.environment.pointsTo t ↔ Derives p.instructions t l :=
  mem_iterate_iff_derives p o _ (atFixedPoint_last _)

/-- **The final environment depends on the program only**, entries included. -/
theorem environment_last_start (p : Program) (o o' : Options) :
    (start p o).last.environment = (start p o').last.environment := by
  refine Environment.eq_of_mem_iff_of_pointsTo_eq (fun t ↦ ?_) fun t ↦ ?_
  · rw [mem_last_start_iff, mem_last_start_iff]
  · refine Std.ExtTreeSet.ext_mem fun l ↦ ?_
    rw [mem_pointsTo_last_start_iff, mem_pointsTo_last_start_iff]

/-- **So does all of the solution but its count of rounds.** -/
theorem solution_last_start (p : Program) (o o' : Options) :
    (start p o).last.solution =
      { (start p o').last.solution with rounds := (start p o).last.rounds } := by
  have henv := environment_last_start p o o'
  have h := last_start_settled p o
  have h' := last_start_settled p o'
  simp only [solution, locations, moves, h.stores, h.loads, h'.stores, h'.loads, program_last, henv]
  rfl

/-! ## Never behind -/

/-- The one state has found no more than the other, and its load inclusions are among those of the
other. -/
structure Behind (s t : Solver) : Prop where
  /-- The facts. -/
  environment : s.environment ≤ t.environment
  /-- The inclusions of loads. -/
  loads : s.loads ⊆ t.loads
  /-- The inclusions of loads do not feed each other. -/
  flat : Flat s.loads

section Behind

variable {s t : Solver}

/-- A round that starts without store inclusions, pass by pass. -/
theorem Behind.knownPass (h : Behind s t) (hprogram : s.program = t.program)
    (hkeep : s.options.keepDerived = false) :
    s.nextRound.knownPass.environment ≤ t.nextRound.knownPass.environment := by
  have hmoves : s.moves = t.moves := by rw [moves, moves, hprogram]
  change (propagate s.known s.environment).environment ≤
    (propagate t.known t.environment).environment
  rw [known, known, hkeep, hmoves]
  simp only [Bool.false_eq_true, if_false, List.append_nil, environment_propagate_append]
  refine h.flat.propagate_le h.loads ?_
  exact le_trans (propagate_mono t.moves h.environment) (le_propagate _ _)

/-- **One round.**  The one state finds no more than the other, and derives no other inclusions of
loads. -/
theorem Behind.nextRound (h : Behind s t) (hprogram : s.program = t.program)
    (hkeep : s.options.keepDerived = false) :
    s.nextRound.environment ≤ t.nextRound.environment ∧ s.nextRound.loads ⊆ t.nextRound.loads := by
  have hknown := h.knownPass hprogram hkeep
  have hstores : s.nextRound.stores ⊆ t.nextRound.stores := by
    change ofStores s.program.instructions s.nextRound.knownPass.environment ⊆
      ofStores t.program.instructions t.nextRound.knownPass.environment
    rw [hprogram]
    exact ofStores_mono _ hknown
  have hstore : s.nextRound.storePass.environment ≤ t.nextRound.storePass.environment := by
    refine (flat_ofStores _ _).propagate_le hstores ?_
    change s.nextRound.knownPass.environment.materializeAll _ ≤
      t.nextRound.knownPass.environment.materializeAll _
    rw [hprogram]
    exact Environment.materializeAll_mono hknown _
  have hloads : s.nextRound.loads ⊆ t.nextRound.loads := by
    change ofLoads s.program.instructions s.nextRound.storePass.environment ⊆
      ofLoads t.program.instructions t.nextRound.storePass.environment
    rw [hprogram]
    exact ofLoads_mono _ hstore
  have hload : s.nextRound.loadPass.environment ≤ t.nextRound.loadPass.environment := by
    refine (flat_ofLoads _ _).propagate_le hloads ?_
    change s.nextRound.storePass.environment.materializeAll _ ≤
      t.nextRound.storePass.environment.materializeAll _
    rw [hprogram]
    exact Environment.materializeAll_mono hstore _
  exact ⟨(flat_ofLoads _ _).propagate_le hloads hload, hloads⟩

theorem Behind.round (h : Behind s t) (hprogram : s.program = t.program)
    (hkeep : s.options.keepDerived = false) (hs : s.atFixedPoint = false)
    (ht : t.atFixedPoint = false) : Behind s.round t.round := by
  obtain ⟨henv, hloads⟩ := h.nextRound hprogram hkeep
  rw [Solver.round, Solver.round, hs, ht]
  exact ⟨henv, hloads, flat_ofLoads _ _⟩

end Behind

/-- The one state has found no more than the other, after any number of rounds.  The induction
carries `Behind` along for as long as neither is at its fixed point: after that the inclusions on
record no longer matter. -/
theorem behind_iterate (p : Program) {o : Options} (o' : Options) (hkeep : o.keepDerived = false)
    (k : Nat) :
    (Solver.round^[k] (start p o)).environment ≤ (Solver.round^[k] (start p o')).environment ∧
      ((Solver.round^[k] (start p o)).atFixedPoint = false →
        (Solver.round^[k] (start p o')).atFixedPoint = false →
        Behind (Solver.round^[k] (start p o)) (Solver.round^[k] (start p o'))) := by
  induction k with
  | zero =>
    have hle : (start p o).environment ≤ (start p o').environment := le_refl _
    exact ⟨hle, fun _ _ ↦ ⟨hle, List.nil_subset _, fun i hi ↦ by cases hi⟩⟩
  | succ k ih =>
    obtain ⟨hle, hbehind⟩ := ih
    have hprogram : (Solver.round^[k] (start p o)).program =
        (Solver.round^[k] (start p o')).program := by
      rw [program_iterate_round, program_iterate_round]
      rfl
    have hkeep : (Solver.round^[k] (start p o)).options.keepDerived = false := by
      rw [options_iterate_round]
      exact hkeep
    rw [Function.iterate_succ_apply', Function.iterate_succ_apply']
    cases ht : (Solver.round^[k] (start p o')).atFixedPoint with
    | true =>
      rw [round_of_atFixedPoint ht, ht]
      refine ⟨fun u l hl ↦ ?_, fun _ h ↦ by cases h⟩
      -- the other has found everything already
      rw [← Function.iterate_succ_apply' Solver.round] at hl
      exact (mem_iterate_iff_derives p o' k ht).mpr (derives_of_mem_iterate p o (k + 1) hl)
    | false =>
      cases hs : (Solver.round^[k] (start p o)).atFixedPoint with
      | true =>
        rw [round_of_atFixedPoint hs, hs]
        exact ⟨le_trans hle (le_round _), fun h ↦ by cases h⟩
      | false =>
        have hround := (hbehind hs ht).round hprogram hkeep hs ht
        exact ⟨hround.environment, fun _ _ ↦ hround⟩

/-- **Keeping the inclusions leaves no more rounds to make.**  When the solver that drops them has
found everything, so has the other. -/
theorem roundsLeft_le_of_dropped (p : Program) {o : Options} (o' : Options)
    (hkeep : o.keepDerived = false) : (start p o').roundsLeft ≤ (start p o).roundsLeft := by
  rw [← forall_mem_iterate_iff]
  intro t l hd
  refine (behind_iterate p o' hkeep _).1 t l ?_
  exact (forall_mem_iterate_iff p o _).mpr (Nat.le_refl _) t l hd

end Solver

/-- **The inclusions that a round starts with never change the result**, except for the count of
rounds. -/
theorem Program.solve_keepDerived (p : Program) :
    ∃ kept dropped, p.solve { maxRounds := none, keepDerived := true } = .ok kept ∧
      p.solve { maxRounds := none, keepDerived := false } = .ok dropped ∧
      kept.environment = dropped.environment ∧ kept.locations = dropped.locations ∧
      kept.moves = dropped.moves ∧ kept.derived = dropped.derived ∧
      kept = { dropped with rounds := kept.rounds } := by
  have heq := Solver.solution_last_start p { maxRounds := none, keepDerived := true }
    { maxRounds := none, keepDerived := false }
  have henv := congrArg Solution.environment heq
  have hlocations := congrArg Solution.locations heq
  have hmoves := congrArg Solution.moves heq
  have hderived := congrArg Solution.derived heq
  exact ⟨_, _, p.solve_of_unlimited rfl, p.solve_of_unlimited rfl, henv, hlocations, hmoves,
    hderived, heq⟩

/-- **Keeping store inclusions never slows the analysis down.**  After equally many rounds, a solver
that drops them has found no more than one that keeps them, and it takes at least as many rounds. -/
theorem Program.keepDerived_ahead (p : Program) (o : Options) :
    (∀ k, (Solver.round^[k] (Solver.start p { o with keepDerived := false })).environment ≤
      (Solver.round^[k] (Solver.start p { o with keepDerived := true })).environment) ∧
    ∃ kept dropped, p.solve { maxRounds := none, keepDerived := true } = .ok kept ∧
      p.solve { maxRounds := none, keepDerived := false } = .ok dropped ∧
      kept.rounds ≤ dropped.rounds := by
  refine ⟨fun k ↦ (Solver.behind_iterate p _ rfl k).1, _, _, p.solve_of_unlimited rfl,
    p.solve_of_unlimited rfl, ?_⟩
  change (Solver.start p _).last.rounds ≤ (Solver.start p _).last.rounds
  rw [Solver.rounds_last_start, Solver.rounds_last_start]
  exact Solver.roundsLeft_le_of_dropped p _ rfl

-- `*c = a; c = *c; *a = b; a = *a`: what the kept inclusions save is the third round
example :
    let p : Program := ⟨[.alloca "a", .alloca "b", .alloca "c", .store "c" "a", .load "c" "c",
      .store "a" "b", .load "a" "a"]⟩
    Solution.rounds <$> p.solve { keepDerived := true } = .ok 2 ∧
      Solution.rounds <$> p.solve { keepDerived := false } = .ok 3 := by decide +kernel

end PointsTo
