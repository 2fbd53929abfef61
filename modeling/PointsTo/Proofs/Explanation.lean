import PointsTo.Proofs.ConstraintGraph
import PointsTo.Proofs.LeastSolution

/-!
# The constraint graph explains the solution

The inclusions of a solution are those on record when the analysis ends.  They were derived from
environments that were still growing, round after round, and yet they are enough to redo the whole
analysis: a location is in the set of some storage exactly if a chain of these inclusions leads
there from the variable that the location was allocated for.

One half is that all inclusions hold at the end, so sets grow along a chain.  The other follows a
derivation of the fact.  Its last rule is an instruction together with, for a load or a store, a
fact about the reference; at the fixed point that fact is in the environment, so the inclusion that
the rule used is on record (`Solver.Settled`) and is the last link of the chain.
-/

set_option autoImplicit false

namespace PointsTo

open Relation ConstraintGraph

/-- Along a chain of inclusions that hold, sets grow. -/
theorem Environment.mem_pointsTo_of_flows {e : Environment} {is : List Inclusion}
    (h : ∀ i ∈ is, i.Holds e) {s t : Storage} (hst : ReflTransGen (Flows is) s t) {l : Location}
    (hl : l ∈ e.pointsTo s) : l ∈ e.pointsTo t := by
  induction hst with
  | refl => exact hl
  | tail _ htu ih => exact h _ htu _ ih

namespace Solver

theorem inclusions_solution (s : Solver) : s.solution.inclusions = s.recorded :=
  (List.append_assoc ..).symm

theorem locations_eq (s : Solver) :
    s.locations = (allocations s.program.instructions).length := by
  rw [locations, Environment.seed, Environment.allocated_foldl_seedStep]
  exact Nat.zero_add _

/-- **Every derivation leaves a chain of inclusions behind.**  The induction is on the derivation:
the chain to the premise about the location itself is extended by the inclusion of the last rule. -/
theorem Settled.flows_of_derives {s : Solver} (h : s.Settled)
    (hfacts : ∀ t l, Derives s.program.instructions t l → l ∈ s.environment.pointsTo t)
    {t : Storage} {l : Location} (hd : Derives s.program.instructions t l) {name : String}
    (hname : (allocations s.program.instructions)[l.index]? = some name) :
    ReflTransGen (Flows s.recorded) (.var name) t := by
  induction hd with
  | alloca hi =>
    rw [hi, Option.some_inj] at hname
    rw [hname]
  | move hi _ ih => exact (ih hname).tail (mem_recorded_of_move hi)
  | load hi hk _ _ ih => exact (ih hname).tail (h.mem_recorded_of_load hi (hfacts _ _ hk))
  | store hi hk _ _ ih => exact (ih hname).tail (h.mem_recorded_of_store hi (hfacts _ _ hk))

/-- **A location is where its chains of inclusions lead.** -/
theorem Settled.mem_pointsTo_iff_flows {s : Solver} (h : s.Settled)
    (hfacts : ∀ t l, l ∈ s.environment.pointsTo t ↔ Derives s.program.instructions t l) {i : Nat}
    {name : String} (hname : (allocations s.program.instructions)[i]? = some name) (t : Storage) :
    ⟨i⟩ ∈ s.environment.pointsTo t ↔ ReflTransGen (Flows s.recorded) (.var name) t := by
  constructor
  · intro hi
    exact h.flows_of_derives (fun t l ↦ (hfacts t l).mpr) ((hfacts t _).mp hi) hname
  · intro hflows
    have hstart : ⟨i⟩ ∈ s.environment.pointsTo (.var name) := (hfacts _ _).mpr (.alloca hname)
    exact Environment.mem_pointsTo_of_flows h.holds hflows hstart

end Solver

/-- **The constraint graph explains the solution.**  Without a limit on rounds the graph can be
built, and a location is in a set exactly if the set's storage can be reached from the variable that
the location was allocated for. -/
theorem Program.constraintGraph_explains (p : Program) (keep : Bool) :
    ∃ sol g, p.solve { maxRounds := none, keepDerived := keep } = .ok sol ∧
      sol.constraintGraph = .ok g ∧
      sol.locations = (allocations p.instructions).length ∧
      (∀ i < sol.locations, ∃ x r, (allocations p.instructions)[i]? = some x ∧
        g.reachable (.var x) = .ok r ∧ ∀ t, ⟨i⟩ ∈ sol.environment.pointsTo t ↔ t ∈ r) ∧
      ∀ s r, g.reachable s = .ok r → ∀ t ∈ r, ∀ l,
        l ∈ sol.environment.pointsTo s → l ∈ sol.environment.pointsTo t := by
  obtain ⟨s, hsolve, rfl, hsettled, -, hfacts⟩ :=
    p.exists_settled (o := { maxRounds := none, keepDerived := keep }) rfl
  obtain ⟨g, hg, hrep⟩ := represents_build s.environment s.recorded
  refine ⟨s.solution, g, hsolve, ?_, s.locations_eq, ?_, ?_⟩
  · rw [Solution.constraintGraph, s.inclusions_solution]
    exact hg
  · intro i hi
    have hlt : i < (allocations s.program.instructions).length := s.locations_eq ▸ hi
    have hname := List.getElem?_eq_getElem hlt
    have hvertex : .var (allocations s.program.instructions)[i] ∈
        storageOf s.environment s.recorded := by
      refine List.mem_append_left _ (Environment.mem_keys.mpr ?_)
      exact Environment.mem_of_mem_pointsTo ((hfacts _ _).mpr (.alloca hname))
    obtain ⟨r, hr, hmem⟩ := hrep.reachable hvertex
    refine ⟨_, r, hname, hr, ?_⟩
    intro t
    rw [hmem]
    exact hsettled.mem_pointsTo_iff_flows hfacts hname t
  · intro t r hr u hu l hl
    by_cases ht : t ∈ storageOf s.environment s.recorded
    · obtain ⟨r', hr', hmem⟩ := hrep.reachable ht
      rw [hr] at hr'
      cases hr'
      exact Environment.mem_pointsTo_of_flows hsettled.holds ((hmem u).mp hu) hl
    · rw [hrep.reachable_of_not_mem ht] at hr
      cases hr

end PointsTo
