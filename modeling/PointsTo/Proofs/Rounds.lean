import Mathlib.Logic.Function.Iterate
import PointsTo.Proofs.Seed
import PointsTo.Solver.Run

/-!
# What rounds keep, and what the last one shows

A round is four passes with two derivations of inclusions between them.  Two kinds of statement
about it recur, and this file proves each of them once.

* **Invariants.**  A property of environments and a property of inclusions that hold each other up
  are `Stable`: passes over good inclusions keep the environment good, and a good environment
  derives good inclusions only.  Then a round keeps both, and so does any number of rounds
  (`Solver.Stable.iterate`).
* **The fixed point.**  The inclusions of a round are derived part way through it, from an
  environment that is still growing.  The round that ends a run moves nothing, so what it derived
  along the way is what its final environment derives, and all of it holds there
  (`Solver.Settled`).

A run without a limit ends, and it ends in such a state (`Solver.run_of_unlimited`).
-/

set_option autoImplicit false

namespace PointsTo

/-! ## Derived inclusions

They depend on the sets only and grow with them.  Those of stores lead from variables to locations
and those of loads from locations to variables, so none adds to the source of one of its kind. -/

namespace Inclusion

theorem ofStores_congr {is : List Instruction} {e e' : Environment}
    (h : ∀ s, e.pointsTo s = e'.pointsTo s) : ofStores is e = ofStores is e' := by
  have hfun : ofStore e = ofStore e' := by
    funext i
    cases i with
    | store reference src => rw [ofStore, ofStore, h]
    | alloca _ | move _ _ | load _ _ => rfl
  rw [ofStores, ofStores, hfun]

theorem ofLoads_congr {is : List Instruction} {e e' : Environment}
    (h : ∀ s, e.pointsTo s = e'.pointsTo s) : ofLoads is e = ofLoads is e' := by
  have hfun : ofLoad e = ofLoad e' := by
    funext i
    cases i with
    | load dst reference => rw [ofLoad, ofLoad, h]
    | alloca _ | move _ _ | store _ _ => rfl
  rw [ofLoads, ofLoads, hfun]

theorem ofStores_mono (is : List Instruction) {e e' : Environment} (h : e ≤ e') :
    ofStores is e ⊆ ofStores is e' := by
  intro i hi
  obtain ⟨reference, src, l, hstore, hl, rfl⟩ := mem_ofStores.mp hi
  exact mem_ofStores.mpr ⟨reference, src, l, hstore, h _ l hl, rfl⟩

theorem ofLoads_mono (is : List Instruction) {e e' : Environment} (h : e ≤ e') :
    ofLoads is e ⊆ ofLoads is e' := by
  intro i hi
  obtain ⟨dst, reference, l, hload, hl, rfl⟩ := mem_ofLoads.mp hi
  exact mem_ofLoads.mpr ⟨dst, reference, l, hload, h _ l hl, rfl⟩

theorem flat_ofStores (is : List Instruction) (e : Environment) : Flat (ofStores is e) := by
  intro i hi j hj
  obtain ⟨_, _, _, -, -, rfl⟩ := mem_ofStores.mp hi
  obtain ⟨_, _, _, -, -, rfl⟩ := mem_ofStores.mp hj
  exact Storage.noConfusion

theorem flat_ofLoads (is : List Instruction) (e : Environment) : Flat (ofLoads is e) := by
  intro i hi j hj
  obtain ⟨_, _, _, -, -, rfl⟩ := mem_ofLoads.mp hi
  obtain ⟨_, _, _, -, -, rfl⟩ := mem_ofLoads.mp hj
  exact Storage.noConfusion

end Inclusion

namespace Solver

open Inclusion

/-! ## Invariants of rounds -/

/-- The inclusions on record between two rounds, whether or not the next round starts with them. -/
def recorded (s : Solver) : List Inclusion := s.moves ++ s.stores ++ s.loads

theorem mem_recorded_of_known {s : Solver} {i : Inclusion} (h : i ∈ s.known) : i ∈ s.recorded := by
  rw [known] at h
  split at h
  · exact h
  · rw [List.append_nil, List.mem_append] at h
    rw [recorded, List.append_assoc, List.mem_append, List.mem_append]
    exact h.imp id .inr

theorem mem_known_of_moves {s : Solver} {i : Inclusion} (h : i ∈ s.moves) :
    i ∈ s.known := by
  rw [known, List.append_assoc]
  exact List.mem_append_left _ h

/-- A property of environments and one of inclusions that hold each other up in the rounds of a
program. -/
structure Stable (is : List Instruction) (E : Environment → Prop) (I : Inclusion → Prop) :
    Prop where
  /-- A pass over good inclusions keeps the environment good. -/
  pass : ∀ js e, (∀ i ∈ js, I i) → E e → E (propagate js e).environment
  /-- So do the entries made for the references of stores. -/
  storeEntries : ∀ e, E e → E (e.materializeAll (storeReferences is))
  /-- So do the entries made for the references of loads. -/
  loadEntries : ∀ e, E e → E (e.materializeAll (loadReferences is))
  /-- The stores derive good inclusions. -/
  stores : ∀ e, E e → ∀ i ∈ ofStores is e, I i
  /-- The loads derive good inclusions. -/
  loads : ∀ e, E e → ∀ i ∈ ofLoads is e, I i

/-- The environment of a state has the one property, and what it has on record the other. -/
structure Has (E : Environment → Prop) (I : Inclusion → Prop) (s : Solver) : Prop where
  /-- The environment is good. -/
  environment : E s.environment
  /-- The inclusions are good. -/
  recorded : ∀ i ∈ s.recorded, I i

section Stable

variable {E : Environment → Prop} {I : Inclusion → Prop} {s : Solver}

theorem Stable.knownPass (h : Stable s.program.instructions E I) (hs : s.Has E I) :
    E s.nextRound.knownPass.environment :=
  h.pass _ _ (fun i hi ↦ hs.recorded i (mem_recorded_of_known hi)) hs.environment

theorem Stable.storePass (h : Stable s.program.instructions E I) (hs : s.Has E I) :
    E s.nextRound.storePass.environment :=
  h.pass _ _ (h.stores _ (h.knownPass hs)) (h.storeEntries _ (h.knownPass hs))

/-- The passes of a round, one after the other. -/
theorem Stable.nextRound (h : Stable s.program.instructions E I) (hs : s.Has E I) :
    E s.nextRound.environment ∧ (∀ i ∈ s.nextRound.stores, I i) ∧
      ∀ i ∈ s.nextRound.loads, I i := by
  have hstore := h.storePass hs
  have hloads : ∀ i ∈ s.nextRound.loads, I i := h.loads _ hstore
  have hload : E s.nextRound.loadPass.environment := h.pass _ _ hloads (h.loadEntries _ hstore)
  exact ⟨h.pass _ _ hloads hload, h.stores _ (h.knownPass hs), hloads⟩

/-- **A round keeps what is stable.** -/
theorem Stable.round (h : Stable s.program.instructions E I) (hs : s.Has E I) :
    s.round.Has E I := by
  obtain ⟨he, hstores, hloads⟩ := h.nextRound hs
  rw [Solver.round]
  split
  · exact hs
  · refine ⟨he, ?_⟩
    intro i hi
    rw [Solver.recorded, List.mem_append, List.mem_append] at hi
    rcases hi with (hi | hi) | hi
    · exact hs.recorded i (List.mem_append_left _ (List.mem_append_left _ hi))
    · exact hstores i hi
    · exact hloads i hi

theorem program_iterate_round (s : Solver) (k : Nat) : (Solver.round^[k] s).program = s.program :=
  Function.Iterate.rec (fun t : Solver ↦ t.program = s.program) rfl
    (fun t h ↦ (program_round t).trans h) k

theorem options_iterate_round (s : Solver) (k : Nat) : (Solver.round^[k] s).options = s.options :=
  Function.Iterate.rec (fun t : Solver ↦ t.options = s.options) rfl
    (fun t h ↦ (options_round t).trans h) k

/-- **Any number of rounds keeps what is stable.** -/
theorem Stable.iterate (h : Stable s.program.instructions E I) (hs : s.Has E I) (k : Nat) :
    (Solver.round^[k] s).Has E I := by
  induction k with
  | zero => exact hs
  | succ k ih =>
    rw [Function.iterate_succ_apply']
    refine Stable.round ?_ ih
    rw [program_iterate_round]
    exact h

end Stable

/-! ## Environments only grow -/

theorem le_round (s : Solver) : s.environment ≤ s.round.environment := by
  rw [Solver.round]
  split
  · exact le_refl _
  · exact s.growsInto_nextRound.keeps

theorem le_iterate_round (s : Solver) (k : Nat) :
    s.environment ≤ (Solver.round^[k] s).environment :=
  Function.Iterate.rec (fun t : Solver ↦ s.environment ≤ t.environment) (le_refl _)
    (fun t h ↦ le_trans h (le_round t)) k

theorem size_lt_size_round {s : Solver} (h : s.round.atFixedPoint = false) :
    s.environment.size < s.round.environment.size := by
  obtain ⟨hc, hround⟩ := round_of_changed h
  obtain ⟨t, l, hl, hn⟩ := exists_of_changed hc
  rw [hround]
  exact Environment.size_lt_of_le_of_mem (b := s.nextRound.environment)
    s.growsInto_nextRound.keeps hl hn

/-- A round that changes something is counted once. -/
theorem rounds_round_of_changed {s : Solver} (h : s.round.atFixedPoint = false) :
    s.round.rounds = s.rounds + 1 := by
  rw [(round_of_changed h).2]

/-! ## The fixed point -/

/-- The state has nothing left to do: the inclusions on record are those that its environment
derives, and they hold. -/
structure Settled (s : Solver) : Prop where
  /-- The store inclusions are up to date. -/
  stores : s.stores = ofStores s.program.instructions s.environment
  /-- The load inclusions are up to date. -/
  loads : s.loads = ofLoads s.program.instructions s.environment
  /-- All inclusions hold. -/
  holds : ∀ i ∈ s.recorded, i.Holds s.environment

section Settled

variable {s : Solver} {dst src reference : String} {k : Location}

theorem mem_recorded_of_move (h : .move dst src ∈ s.program.instructions) :
    ⟨.var dst, .var src⟩ ∈ s.recorded := by
  rw [recorded, List.append_assoc]
  exact List.mem_append_left _ (mem_ofMoves.mpr ⟨dst, src, h, rfl⟩)

theorem Settled.mem_recorded_of_store (h : s.Settled)
    (hi : .store reference src ∈ s.program.instructions)
    (hk : k ∈ s.environment.pointsTo (.var reference)) : ⟨.loc k, .var src⟩ ∈ s.recorded := by
  refine List.mem_append_left _ (List.mem_append_right _ ?_)
  rw [h.stores]
  exact mem_ofStores.mpr ⟨reference, src, k, hi, hk, rfl⟩

theorem Settled.mem_recorded_of_load (h : s.Settled)
    (hi : .load dst reference ∈ s.program.instructions)
    (hk : k ∈ s.environment.pointsTo (.var reference)) : ⟨.var dst, .loc k⟩ ∈ s.recorded := by
  refine List.mem_append_right _ ?_
  rw [h.loads]
  exact mem_ofLoads.mpr ⟨dst, reference, k, hi, hk, rfl⟩

end Settled

/-- The state after a round that changed nothing. -/
theorem round_of_not_changed {s : Solver} (hs : s.atFixedPoint = false)
    (hr : s.round.atFixedPoint = true) :
    s.nextRound.changed = false ∧
      s.round = { s with
        environment := s.nextRound.environment
        stores := s.nextRound.stores
        loads := s.nextRound.loads
        atFixedPoint := true } := by
  have hc : s.nextRound.changed = false := by
    rw [Solver.round, hs] at hr
    simpa using hr
  exact ⟨hc, by simp [Solver.round, hs, hc]⟩

/-- No pass of a round that changed nothing moves anything. -/
theorem pointsTo_of_not_changed {s : Solver} (h : s.nextRound.changed = false) (t : Storage) :
    s.nextRound.knownPass.environment.pointsTo t = s.environment.pointsTo t ∧
      s.nextRound.storePass.environment.pointsTo t = s.environment.pointsTo t ∧
      s.nextRound.loadPass.environment.pointsTo t = s.environment.pointsTo t ∧
      s.nextRound.environment.pointsTo t = s.environment.pointsTo t := by
  simp only [Round.changed, Bool.or_eq_false_iff] at h
  obtain ⟨⟨⟨hknown, hstore⟩, hload⟩, hreload⟩ := h
  have h₁ := pointsTo_propagate_of_grew_eq_false hknown t
  have h₂ := pointsTo_propagate_of_grew_eq_false hstore t
  have h₃ := pointsTo_propagate_of_grew_eq_false hload t
  have h₄ := pointsTo_propagate_of_grew_eq_false hreload t
  rw [Environment.pointsTo_materializeAll] at h₂ h₃
  exact ⟨h₁, h₂.trans h₁, h₃.trans (h₂.trans h₁), h₄.trans (h₃.trans (h₂.trans h₁))⟩

/-- A round that changes nothing is not counted. -/
theorem rounds_round_of_atFixedPoint {s : Solver} (h : s.round.atFixedPoint = true) :
    s.round.rounds = s.rounds := by
  cases hs : s.atFixedPoint with
  | true => rw [round_of_atFixedPoint hs]
  | false => rw [(round_of_not_changed hs h).2]

/-- A round that changes nothing finds nothing new. -/
theorem round_le_of_atFixedPoint {s : Solver} (h : s.round.atFixedPoint = true) :
    s.round.environment ≤ s.environment := by
  cases hs : s.atFixedPoint with
  | true => rw [round_of_atFixedPoint hs]
  | false =>
    obtain ⟨hc, hround⟩ := round_of_not_changed hs h
    intro t l hl
    rw [hround] at hl
    rwa [← (pointsTo_of_not_changed hc t).2.2.2]

/-- **A round that changes nothing settles the state.** -/
theorem settled_round_of_not_changed {s : Solver} (hs : s.atFixedPoint = false)
    (hr : s.round.atFixedPoint = true) : s.round.Settled := by
  obtain ⟨h, hround⟩ := round_of_not_changed hs hr
  have hsame := pointsTo_of_not_changed h
  have hpasses := h
  simp only [Round.changed, Bool.or_eq_false_iff] at hpasses
  obtain ⟨⟨⟨hknown, hstore⟩, hload⟩, -⟩ := hpasses
  rw [hround]
  refine ⟨?_, ?_, ?_⟩
  · exact ofStores_congr fun t ↦ (hsame t).1.trans (hsame t).2.2.2.symm
  · exact ofLoads_congr fun t ↦ (hsame t).2.1.trans (hsame t).2.2.2.symm
  · intro i hi
    simp only [Solver.recorded, List.mem_append] at hi
    rcases hi with (hi | hi) | hi
    · have := holds_of_grew_eq_false hknown i (mem_known_of_moves hi)
      exact (holds_congr fun t ↦ (hsame t).2.2.2).mpr this
    · have := holds_of_grew_eq_false hstore i hi
      refine (holds_congr fun t ↦ ?_).mpr this
      rw [Environment.pointsTo_materializeAll]
      exact (hsame t).2.2.2.trans (hsame t).1.symm
    · have := holds_of_grew_eq_false hload i hi
      refine (holds_congr fun t ↦ ?_).mpr this
      rw [Environment.pointsTo_materializeAll]
      exact (hsame t).2.2.2.trans (hsame t).2.1.symm

theorem settled_round {s : Solver} (h : s.atFixedPoint = true → s.Settled)
    (hr : s.round.atFixedPoint = true) : s.round.Settled := by
  cases hs : s.atFixedPoint with
  | true => rw [round_of_atFixedPoint hs]; exact h hs
  | false => exact settled_round_of_not_changed hs hr

/-- A state that has become a fixed point by some rounds is settled. -/
theorem settled_iterate_of_running {s : Solver} (hs : s.atFixedPoint = false) (k : Nat)
    (h : (Solver.round^[k] s).atFixedPoint = true) : (Solver.round^[k] s).Settled := by
  induction k with
  | zero =>
    rw [Function.iterate_zero_apply, hs] at h
    cases h
  | succ k ih =>
    rw [Function.iterate_succ_apply'] at h ⊢
    exact settled_round ih h

/-- **A state that a program reaches and that calls itself a fixed point is settled.** -/
theorem settled_iterate (p : Program) (o : Options) (k : Nat)
    (h : (Solver.round^[k] (start p o)).atFixedPoint = true) :
    (Solver.round^[k] (start p o)).Settled :=
  settled_iterate_of_running rfl k h

/-- A further round would leave a settled state as it is. -/
theorem Settled.nextRound {s : Solver} (h : s.Settled) :
    (∀ t, s.nextRound.environment.pointsTo t = s.environment.pointsTo t) ∧
      s.nextRound.stores = s.stores ∧ s.nextRound.loads = s.loads := by
  -- a pass over inclusions on record, from an environment with the sets of the state
  have hpass : ∀ {is : List Inclusion} {e : Environment}, is ⊆ s.recorded →
      (∀ t, e.pointsTo t = s.environment.pointsTo t) →
      ∀ t, (propagate is e).environment.pointsTo t = s.environment.pointsTo t := by
    intro is e his he t
    rw [pointsTo_propagate_of_holds fun i hi ↦ (holds_congr he).mpr (h.holds i (his hi)), he]
  have hknown := hpass (fun _ ↦ mem_recorded_of_known) fun _ ↦ rfl
  have hstores : s.nextRound.stores = s.stores := (ofStores_congr hknown).trans h.stores.symm
  have hstore : ∀ t, s.nextRound.storePass.environment.pointsTo t = s.environment.pointsTo t := by
    have hrecorded : s.nextRound.stores ⊆ s.recorded := by
      rw [hstores]
      exact fun i hi ↦ List.mem_append_left _ (List.mem_append_right _ hi)
    refine hpass hrecorded fun t ↦ ?_
    rw [Environment.pointsTo_materializeAll]
    exact hknown t
  have hloads : s.nextRound.loads = s.loads := (ofLoads_congr hstore).trans h.loads.symm
  have hrecorded : s.nextRound.loads ⊆ s.recorded := by
    rw [hloads]
    exact List.subset_append_right _ _
  have hload : ∀ t, s.nextRound.loadPass.environment.pointsTo t = s.environment.pointsTo t := by
    refine hpass hrecorded fun t ↦ ?_
    rw [Environment.pointsTo_materializeAll]
    exact hstore t
  exact ⟨hpass hrecorded hload, hstores, hloads⟩

/-- Whether or not it is made at the fixed point, a round leaves the sets and the inclusions that
its passes give. -/
theorem round_eq_nextRound {s : Solver} (h : s.atFixedPoint = true → s.Settled) :
    (∀ t, s.round.environment.pointsTo t = s.nextRound.environment.pointsTo t) ∧
      s.round.stores = s.nextRound.stores ∧ s.round.loads = s.nextRound.loads := by
  cases hs : s.atFixedPoint with
  | true =>
    obtain ⟨henv, hstores, hloads⟩ := (h hs).nextRound
    rw [round_of_atFixedPoint hs]
    exact ⟨fun t ↦ (henv t).symm, hstores.symm, hloads.symm⟩
  | false =>
    rw [round, hs]
    exact ⟨fun _ ↦ rfl, rfl, rfl⟩

/-! ## Running without a limit -/

theorem exceededLimit_of_unlimited {s : Solver} (h : s.options.maxRounds = none) :
    s.exceededLimit = none := by
  rw [exceededLimit, h]; rfl

/-- **Without a limit, a run ends at the fixed point.** -/
theorem run_of_unlimited {s : Solver} (h : s.options.maxRounds = none) :
    ∃ k, (Solver.round^[k] s).atFixedPoint = true ∧
      s.run = .ok (Solver.round^[k] s).solution := by
  fun_induction run s with
  | case1 s hfixed => exact ⟨1, hfixed, rfl⟩
  | case2 s _ limit hlimit =>
    rw [exceededLimit_of_unlimited (by rwa [options_round])] at hlimit
    cases hlimit
  | case3 s _ _ ih =>
    obtain ⟨k, hk, hrun⟩ := ih (by rwa [options_round])
    exact ⟨k + 1, hk, hrun⟩

end Solver

end PointsTo
