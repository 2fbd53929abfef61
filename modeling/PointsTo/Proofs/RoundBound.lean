import Mathlib.Data.List.Defs
import Mathlib.Data.List.ProdSigma
import PointsTo.Proofs.LeastSolution

/-!
# How many rounds there can be

A round that changes something adds at least one fact, so the rounds counted in a state are at most
the facts it has gained since the start (`Solver.rounds_add_le_size`).  And the facts are bounded by
what the program mentions: each is about one of its variables or locations and about one of its
locations (`Solver.size_iterate_le`).

To say that a run comes to an end, `Solver.runWithin` is the same loop cut off after a number of
rounds.  It has no measure to recurse on but that number, and it gives nothing if the loop is still
going on.  With the number of rounds that the bound allows, and one more to confirm the fixed point,
it always gives what `Solver.run` gives.
-/

set_option autoImplicit false

namespace PointsTo

namespace Solver

/-! ## Rounds against facts -/

/-- What a round adds to the count of rounds it adds to the facts as well. -/
theorem rounds_round_add_size_le (s : Solver) :
    s.round.rounds + s.environment.size ≤ s.rounds + s.round.environment.size := by
  cases hr : s.round.atFixedPoint with
  | false =>
    have hlt := size_lt_size_round hr
    rw [rounds_round_of_changed hr]
    omega
  | true =>
    have hle := Environment.size_le_of_le s.le_round
    rw [rounds_round_of_atFixedPoint hr]
    omega

/-- **The rounds counted are at most the facts gained.** -/
theorem rounds_add_le_size (p : Program) (o : Options) (k : Nat) :
    (Solver.round^[k] (start p o)).rounds + (allocations p.instructions).length ≤
      (Solver.round^[k] (start p o)).environment.size := by
  induction k with
  | zero =>
    have hseed := Environment.size_seed p.instructions {}
    change 0 + _ ≤ (Environment.seed p.instructions {}).1.size
    omega
  | succ k ih =>
    rw [Function.iterate_succ_apply']
    have hround := rounds_round_add_size_le (Solver.round^[k] (start p o))
    omega

/-- **The facts are bounded by what the program mentions.** -/
theorem size_iterate_le (p : Program) (o : Options) (k : Nat) :
    (Solver.round^[k] (start p o)).environment.size ≤ (allocations p.instructions).length *
      ((mentioned p.instructions).length + (allocations p.instructions).length) := by
  have hsub : (Solver.round^[k] (start p o)).environment.facts ⊆
      storages p.instructions ×ˢ
        (List.range (allocations p.instructions).length).map Location.mk := by
    rintro ⟨s, l⟩ hf
    have hd := derives_of_mem_iterate p o k (Environment.mem_facts.mp hf)
    refine List.mem_product.mpr ⟨hd.storage_mem, ?_⟩
    exact List.mem_map.mpr ⟨l.index, List.mem_range.mpr hd.location_lt, rfl⟩
  have hlen := (Environment.nodup_facts _).length_le_of_subset hsub
  rwa [Environment.length_facts, List.length_product, List.length_map, List.length_range,
    length_storages, Nat.mul_comm] at hlen

/-! ## The loop, cut off -/

/-- The outcome of running the solver if that takes at most `n` rounds. -/
def runWithin : Nat → Solver → Option (Except Error Solution)
  | 0, _ => none
  | n + 1, s =>
    if s.round.atFixedPoint then some (.ok s.round.solution)
    else
      match s.round.exceededLimit with
      | some limit => some (.error (.roundLimitExceeded limit))
      | none => s.round.runWithin n

/-- Where no state counts more than `b` rounds, the loop ends with the round after. -/
theorem runWithin_eq_some_run {s : Solver} {b n : Nat}
    (hb : ∀ k, (Solver.round^[k] s).rounds ≤ b) (h : b < s.rounds + n) :
    s.runWithin n = some s.run := by
  induction n generalizing s with
  | zero =>
    have h0 := hb 0
    exact absurd h (Nat.not_lt.mpr h0)
  | succ n ih =>
    rw [runWithin, run]
    by_cases hr : s.round.atFixedPoint = true
    · rw [if_pos hr, dif_pos hr]
    · rw [if_neg hr, dif_neg hr]
      cases s.round.exceededLimit with
      | some limit => rfl
      | none =>
        refine ih (fun k ↦ hb (k + 1)) ?_
        rw [(round_of_changed (Bool.eq_false_iff.mpr hr)).2]
        dsimp only
        omega

end Solver

/-- **Every run ends**, within as many rounds as there can be facts beyond the first ones, and one
more.  Without a limit it ends with a solution, whose rounds are at most the facts that it has
beyond the first ones.  Here `L` is the number of allocations and `V` the number of variables. -/
theorem Program.solve_rounds_le (p : Program) (o : Options) :
    let L := (allocations p.instructions).length
    let V := (mentioned p.instructions).length
    (Solver.start p o).runWithin (L * (V + L) - L + 1) = some (p.solve o) ∧
    ∃ sol, p.solve { o with maxRounds := none } = .ok sol ∧
      sol.rounds + L ≤ sol.environment.size ∧
      sol.environment.size ≤ L * (V + L) ∧
      sol.rounds ≤ L * (V + L) - L := by
  intro L V
  have hrounds : ∀ o k, (Solver.round^[k] (Solver.start p o)).rounds + L ≤
      (Solver.round^[k] (Solver.start p o)).environment.size := Solver.rounds_add_le_size p
  have hsize : ∀ o k, (Solver.round^[k] (Solver.start p o)).environment.size ≤ L * (V + L) :=
    Solver.size_iterate_le p
  constructor
  · refine Solver.runWithin_eq_some_run (b := L * (V + L) - L) ?_ (by omega)
    intro k
    have := hrounds o k
    have := hsize o k
    omega
  · obtain ⟨k, -, hrun⟩ := Solver.run_of_unlimited
      (s := Solver.start p { o with maxRounds := none }) rfl
    have hr := hrounds { o with maxRounds := none } k
    have hs := hsize { o with maxRounds := none } k
    exact ⟨_, hrun, hr, hs, Nat.le_sub_of_add_le (Nat.le_trans hr hs)⟩

end PointsTo
