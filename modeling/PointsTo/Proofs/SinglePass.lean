import PointsTo.Proofs.ChangeReport

/-!
# Derived inclusions need one pass

In general one pass over a list of inclusions is not enough, and what it leaves depends on their
order.  It is different for inclusions derived from stores or from loads.  Those of stores lead from
variables to locations and those of loads from locations to variables, so no inclusion adds to the
source of another one of its kind: both lists are `Inclusion.Flat`.  Then the sources are after the
pass what they were before it, and the destinations have received all of it.

So the second pass over the load inclusions, with which every round ends, finds nothing to do
(`Solver.reloadPass_eq`), and a round that leaves it out is the same round.
-/

set_option autoImplicit false

namespace PointsTo

namespace Inclusion

/-- One pass over the inclusions does all that passes over them can do, from any environment. -/
structure SaturatesAtOnce (is : List Inclusion) : Prop where
  /-- The inclusions hold after the pass. -/
  holds : ∀ e, ∀ i ∈ is, i.Holds (propagate is e).environment
  /-- A second pass reports no growth. -/
  quiet : ∀ e, (propagate is (propagate is e).environment).grew = false
  /-- A second pass leaves the environment as it is, entries included. -/
  still : ∀ e,
    (propagate is (propagate is e).environment).environment = (propagate is e).environment
  /-- The order of the inclusions does not matter. -/
  reorder : ∀ e js, js.Perm is → (propagate js e).environment = (propagate is e).environment

section Flat

variable {is js : List Inclusion} {e : Environment}

/-- A pass over inclusions that hold, between storage with entries, does nothing. -/
theorem propagate_eq_of_holds (hholds : ∀ i ∈ is, i.Holds e)
    (hmem : ∀ i ∈ is, i.dst ∈ e ∧ i.src ∈ e) : propagate is e = ⟨e, []⟩ := by
  have hgrowths : (propagate is e).growths = [] := by
    have hg : ¬ (propagate is e).grew = true := fun hg ↦ by
      obtain ⟨i, hi, hn⟩ := grew_propagate_iff.mp hg
      exact hn (hholds i hi)
    simpa [Propagation.grew] using hg
  have henvironment : (propagate is e).environment = e := by
    refine Environment.eq_of_mem_iff_of_pointsTo_eq (fun t ↦ ?_)
      (pointsTo_propagate_of_holds hholds)
    rw [mem_environment_propagate]
    refine ⟨fun h ↦ h.elim id ?_, .inl⟩
    rintro ⟨i, hi, rfl | rfl⟩
    · exact (hmem i hi).1
    · exact (hmem i hi).2
  exact congrArg₂ Propagation.mk henvironment hgrowths

/-- **A pass over a flat list satisfies it.**  What a source points to afterwards it pointed to
before, since no inclusion has added to it. -/
theorem Flat.holds_propagate (h : Flat is) (e : Environment) :
    ∀ i ∈ is, i.Holds (propagate is e).environment := by
  intro i hi l hl
  rcases h.mem_propagate_iff.mp hl with hl | ⟨j, hj, hji, -⟩
  · exact mem_propagate_dst hi hl
  · exact absurd hji (h j hj i hi)

/-- **A second pass over a flat list does nothing.** -/
theorem Flat.propagate_again (h : Flat is) (e : Environment) :
    propagate is (propagate is e).environment = ⟨(propagate is e).environment, []⟩ := by
  refine propagate_eq_of_holds (h.holds_propagate e) fun i hi ↦ ?_
  rw [mem_environment_propagate, mem_environment_propagate]
  exact ⟨.inr ⟨i, hi, .inl rfl⟩, .inr ⟨i, hi, .inr rfl⟩⟩

/-- **The order of a flat list does not matter**, and neither do repetitions. -/
theorem Flat.environment_propagate_congr (h : Flat is) (hjs : ∀ i, i ∈ js ↔ i ∈ is) :
    (propagate js e).environment = (propagate is e).environment := by
  have hflat : Flat js := fun i hi j hj ↦ h i ((hjs i).mp hi) j ((hjs j).mp hj)
  refine Environment.eq_of_mem_iff_of_pointsTo_eq (fun t ↦ ?_) fun t ↦ ?_
  · simp only [mem_environment_propagate, hjs]
  · refine Std.ExtTreeSet.ext_mem fun l ↦ ?_
    simp only [hflat.mem_propagate_iff, h.mem_propagate_iff, hjs]

theorem Flat.saturatesAtOnce (h : Flat is) : SaturatesAtOnce is where
  holds := h.holds_propagate
  quiet e := by rw [h.propagate_again]; rfl
  still e := by rw [h.propagate_again]
  reorder _ _ hperm := h.environment_propagate_congr fun _ ↦ hperm.mem_iff

end Flat

end Inclusion

namespace Solver

open Inclusion

/-- The second pass over the load inclusions does nothing. -/
theorem reloadPass_eq (s : Solver) :
    s.nextRound.reloadPass = ⟨s.nextRound.loadPass.environment, []⟩ :=
  (flat_ofLoads _ _).propagate_again _

/-- A round with a single pass over the load inclusions, and whether it changed something. -/
def roundOnce (s : Solver) : Solver × Bool :=
  if s.atFixedPoint then (s, false)
  else
    let r := s.nextRound
    let changed := r.knownPass.grew || r.storePass.grew || r.loadPass.grew
    ({ s with
        environment := r.loadPass.environment
        stores := r.stores
        loads := r.loads
        rounds := if changed then s.rounds + 1 else s.rounds
        atFixedPoint := !changed },
      changed)

theorem environment_nextRound_eq (s : Solver) :
    s.nextRound.environment = s.nextRound.loadPass.environment := by
  rw [Round.environment, reloadPass_eq]

theorem changed_nextRound_eq_or (s : Solver) :
    s.nextRound.changed =
      (s.nextRound.knownPass.grew || s.nextRound.storePass.grew || s.nextRound.loadPass.grew) := by
  rw [Round.changed, reloadPass_eq]
  exact Bool.or_false _

/-- **Derived inclusions are saturated by one pass**, whether they come from the loads or from the
stores of a program.  So a round that passes over the load inclusions once leaves the same state,
and reports the same, as one that passes over them twice. -/
theorem single_pass :
    (∀ (is : List Instruction) (e : Environment),
      SaturatesAtOnce (ofLoads is e) ∧ SaturatesAtOnce (ofStores is e)) ∧
    ∀ s : Solver, s.roundOnce = (s.round, s.reports) := by
  refine ⟨fun is e ↦ ⟨(flat_ofLoads is e).saturatesAtOnce, (flat_ofStores is e).saturatesAtOnce⟩,
    fun s ↦ ?_⟩
  by_cases h : s.atFixedPoint = true
  · simp [roundOnce, reports, round_of_atFixedPoint, h]
  · simp [roundOnce, reports, round, h, environment_nextRound_eq, changed_nextRound_eq_or]

end Solver

end PointsTo
