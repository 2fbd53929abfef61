import Mathlib.Order.Bounds.Defs
import PointsTo.Proofs.Rounds

/-!
# The analysis finds the least solution

Two arguments meet here.  No round adds a fact that is not derivable, whatever inclusions it starts
with: to have only derivable facts, and only inclusions that lead from derivable facts to derivable
facts, is `Solver.Stable`.  And the state in which a run ends satisfies the rules, because the
inclusions that its environment derives are on record and hold.  Together they say that the
environment at the end consists of the derivable facts, no fewer and no more.

The store inclusions that a round may start with (`Options.keepDerived`) play no part in either
argument, so the result does not depend on them.
-/

set_option autoImplicit false

namespace PointsTo

namespace Solver

open Inclusion

/-! ## No round adds an underivable fact -/

/-- Derivable facts, and inclusions that preserve them, hold each other up. -/
theorem stable_derives (is : List Instruction) :
    Stable is (fun e ↦ ∀ s l, l ∈ e.pointsTo s → Derives is s l)
      (fun i ↦ ∀ l, Derives is i.src l → Derives is i.dst l) where
  pass _ _ hj he := forall_of_mem_propagate hj he
  storeEntries e he s l hl := he s l (by rwa [Environment.pointsTo_materializeAll] at hl)
  loadEntries e he s l hl := he s l (by rwa [Environment.pointsTo_materializeAll] at hl)
  stores e he i hi l hl := by
    obtain ⟨reference, src, k, hstore, hk, rfl⟩ := mem_ofStores.mp hi
    exact .store hstore (he _ k hk) hl
  loads e he i hi l hl := by
    obtain ⟨dst, reference, k, hload, hk, rfl⟩ := mem_ofLoads.mp hi
    exact .load hload (he _ k hk) hl

theorem derives_of_mem_seed {is : List Instruction} {s : Storage} {l : Location}
    (h : l ∈ (Environment.seed is {}).1.pointsTo s) : Derives is s l := by
  obtain ⟨i, name, hi, rfl, rfl⟩ := Environment.mem_pointsTo_seed.mp h
  rw [Nat.zero_add]
  exact .alloca hi

/-- **In every state that a program reaches, all facts are derivable.** -/
theorem derives_of_mem_iterate (p : Program) (o : Options) (k : Nat) {s : Storage} {l : Location}
    (h : l ∈ (Solver.round^[k] (start p o)).environment.pointsTo s) :
    Derives p.instructions s l := by
  have hstart : (start p o).Has (fun e ↦ ∀ s l, l ∈ e.pointsTo s → Derives p.instructions s l)
      (fun i ↦ ∀ l, Derives p.instructions i.src l → Derives p.instructions i.dst l) := by
    refine ⟨fun s l ↦ derives_of_mem_seed, ?_⟩
    intro i hi l hl
    -- only the moves are on record before the first round
    rw [recorded, start, List.append_nil, List.append_nil] at hi
    obtain ⟨dst, src, hmove, rfl⟩ := mem_ofMoves.mp hi
    exact .move hmove hl
  exact ((stable_derives p.instructions).iterate hstart k).environment s l h

/-! ## A settled state satisfies the rules -/

theorem Settled.satisfies {s : Solver} (h : s.Settled)
    (hseed : (Environment.seed s.program.instructions {}).1 ≤ s.environment) :
    Satisfies s.program.instructions s.environment where
  alloca _ _ hi := hseed _ _ (Environment.mem_pointsTo_seed_of_getElem? hi)
  move _ _ hi := h.holds _ (mem_recorded_of_move hi)
  load _ _ hi _ hk := h.holds _ (h.mem_recorded_of_load hi hk)
  store _ _ hi _ hk := h.holds _ (h.mem_recorded_of_store hi hk)

theorem satisfies_iterate (p : Program) (o : Options) (k : Nat)
    (h : (Solver.round^[k] (start p o)).atFixedPoint = true) :
    Satisfies p.instructions (Solver.round^[k] (start p o)).environment := by
  have hprogram : (Solver.round^[k] (start p o)).program = p := program_iterate_round _ k
  have hsat := (settled_iterate p o k h).satisfies
  rw [hprogram] at hsat
  exact hsat (le_iterate_round (start p o) k)

/-- **At the fixed point the facts are the derivable ones.** -/
theorem mem_iterate_iff_derives (p : Program) (o : Options) (k : Nat)
    (h : (Solver.round^[k] (start p o)).atFixedPoint = true) {s : Storage} {l : Location} :
    l ∈ (Solver.round^[k] (start p o)).environment.pointsTo s ↔ Derives p.instructions s l :=
  ⟨derives_of_mem_iterate p o k, (satisfies_iterate p o k h).mem_of_derives⟩

end Solver

/-! ## The result -/

/-- **Without a limit, a program is solved by a settled state**, and its facts are the derivable
ones. -/
theorem Program.exists_settled (p : Program) {o : Options} (h : o.maxRounds = none) :
    ∃ s : Solver, p.solve o = .ok s.solution ∧ s.program = p ∧ s.Settled ∧
      Satisfies p.instructions s.environment ∧
      ∀ t l, l ∈ s.environment.pointsTo t ↔ Derives p.instructions t l := by
  obtain ⟨k, hfixed, hrun⟩ := Solver.run_of_unlimited (s := Solver.start p o) h
  exact ⟨_, hrun, Solver.program_iterate_round _ k, Solver.settled_iterate p o k hfixed,
    Solver.satisfies_iterate p o k hfixed, fun _ _ ↦ Solver.mem_iterate_iff_derives p o k hfixed⟩

/-- **The analysis finds the least solution of the rules**, with either choice of the inclusions
that a round starts with. -/
theorem Program.solve_least (p : Program) (keep : Bool) :
    ∃ sol, p.solve { maxRounds := none, keepDerived := keep } = .ok sol ∧
      (∀ s l, l ∈ sol.environment.pointsTo s ↔ Derives p.instructions s l) ∧
      IsLeast {e | Satisfies p.instructions e} sol.environment := by
  obtain ⟨s, hsolve, -, -, hsat, hfacts⟩ :=
    p.exists_settled (o := { maxRounds := none, keepDerived := keep }) rfl
  refine ⟨s.solution, hsolve, hfacts, hsat, ?_⟩
  intro e he t l hl
  exact he.mem_of_derives ((hfacts t l).mp hl)

end PointsTo
