import Mathlib.Data.List.Induction
import PointsTo.Proofs.Explanation
import PointsTo.Proofs.KeptInclusions

/-!
# The inclusions on record

Between two rounds a solver keeps the inclusions that the last one derived.  They are older than the
environment: the stores were looked up before the loads were passed over, and the loads before the
last two passes.  What can be relied on is this.

* At any time they are among those that the environment derives (`Solver.Covered`), because facts
  are never lost.  So they lead between variables of stores or loads and locations that the program
  allocates; and nothing else in the state leads out of the program either (`Solver.Closed`).
* In a solution they are all that the environment derives, listed as if they were derived from it
  anew, and they hold in it.  However a run came to its end, its last round has moved nothing
  (`Solver.Settled`).

The inclusions of the moves are listed as the moves first come up in the program (`ListsMoves`).
-/

set_option autoImplicit false

namespace PointsTo

open Inclusion

/-! ## In the order of first occurrence -/

/-- **Lists in turn, without repetition.**  Of two members, the one from an earlier list is first,
and two from the same list are in the order of that list.  The induction is on the lists from the
last one, since what an earlier list brings is not affected by a later one. -/
theorem pairwise_eraseDups_flatMap {α β : Type} [BEq β] [LawfulBEq β] {f : α → List β}
    {R : β → β → Prop} (hR : ∀ a, (f a).Pairwise R) (hnodup : ∀ a, (f a).Nodup) (as : List α) :
    (as.flatMap f).eraseDups.Pairwise fun x y ↦
      as.findIdx (fun a ↦ (f a).contains x) < as.findIdx (fun a ↦ (f a).contains y) ∨
      as.findIdx (fun a ↦ (f a).contains x) = as.findIdx (fun a ↦ (f a).contains y) ∧ R x y := by
  induction as using List.reverseRecOn with
  | nil => simp
  | append_singleton as a ih =>
    -- a member that is there already keeps its place, and a new one gets the last place
    have hold : ∀ x ∈ (as.flatMap f).eraseDups,
        as.findIdx (fun a ↦ (f a).contains x) < as.length := by
      intro x hx
      obtain ⟨b, hb, hxb⟩ := List.mem_flatMap.mp (List.mem_eraseDups.mp hx)
      exact List.findIdx_lt_length_of_exists ⟨b, hb, List.contains_iff_mem.mpr hxb⟩
    have hnew : ∀ x ∈ (f a).filter (fun x ↦ !(as.flatMap f).contains x),
        (as ++ [a]).findIdx (fun a ↦ (f a).contains x) = as.length := by
      intro x hx
      obtain ⟨hxa, hx⟩ := List.mem_filter.mp hx
      have hnone : as.findIdx (fun a ↦ (f a).contains x) = as.length := by
        refine List.findIdx_eq_length.mpr fun b hb ↦ ?_
        rw [Bool.eq_false_iff, ne_eq, List.contains_iff_mem]
        intro hxb
        simp [List.mem_flatMap.mpr ⟨b, hb, hxb⟩] at hx
      rw [List.findIdx_append, hnone, if_neg (Nat.lt_irrefl _)]
      simp [List.findIdx_cons, hxa]
    have hadded : ((f a).removeAll (as.flatMap f)).eraseDups =
        (f a).filter fun x ↦ !(as.flatMap f).contains x :=
      eraseDups_of_nodup ((hnodup a).filter _)
    rw [List.flatMap_append, List.flatMap_singleton, List.eraseDups_append, hadded]
    refine List.pairwise_append.mpr ⟨?_, ?_, fun x hx y hy ↦ .inl ?_⟩
    · refine ih.imp_of_mem fun {x y} hx hy h ↦ ?_
      rwa [List.findIdx_append, List.findIdx_append, if_pos (hold x hx), if_pos (hold y hy)]
    · refine ((hR a).filter _).imp_of_mem fun {x y} hx hy h ↦ .inr ⟨?_, h⟩
      rw [hnew x hx, hnew y hy]
    · rw [hnew y hy, List.findIdx_append, if_pos (hold x hx)]
      exact hold x hx

/-- The second list has the members of the first one, in the order in which they first occur there,
and so none of them twice. -/
structure ListsByFirst {α : Type} [BEq α] (xs ys : List α) : Prop where
  /-- The members are the same. -/
  mem_iff : ∀ a, a ∈ ys ↔ a ∈ xs
  /-- What is listed earlier occurs earlier. -/
  ordered : ys.Pairwise fun a b ↦ xs.idxOf a < xs.idxOf b

/-- **Erasing repetitions lists the members by their first occurrence.** -/
theorem listsByFirst_eraseDups {α : Type} [BEq α] [LawfulBEq α] (xs : List α) :
    ListsByFirst xs xs.eraseDups := by
  have horder := pairwise_eraseDups_flatMap (f := fun a ↦ [a]) (R := fun _ _ ↦ False)
    (fun a ↦ List.pairwise_singleton ..) (fun a ↦ List.nodup_singleton a) xs
  have hplace : ∀ a, xs.findIdx (fun b ↦ [b].contains a) = xs.idxOf a := fun a ↦ by
    simp [List.idxOf, BEq.comm]
  simp only [List.flatMap_singleton', hplace, and_false, or_false] at horder
  exact ⟨fun _ ↦ List.mem_eraseDups, horder⟩

/-- The list has the inclusions of the moves among the instructions, in the order in which the moves
first occur there, and so none of them twice. -/
structure ListsMoves (is : List Instruction) (js : List Inclusion) : Prop where
  /-- The members are the inclusions of moves. -/
  mem_iff : ∀ j, j ∈ js ↔ ∃ dst src, .move dst src ∈ is ∧ j = ⟨.var dst, .var src⟩
  /-- What is listed earlier comes from an earlier move. -/
  ordered : js.Pairwise fun i j ↦ ∃ dst src dst' src', i = ⟨.var dst, .var src⟩ ∧
    j = ⟨.var dst', .var src'⟩ ∧ is.idxOf (.move dst src) < is.idxOf (.move dst' src')

theorem contains_ofMove (i : Instruction) (dst src : String) :
    (ofMove i).contains ⟨.var dst, .var src⟩ = (i == .move dst src) := by
  rw [Bool.eq_iff_iff, List.contains_iff_mem, beq_iff_eq]
  cases i <;> simp [ofMove, eq_comm]

/-- **Moves are listed by their first occurrence.** -/
theorem listsMoves_ofMoves (is : List Instruction) : ListsMoves is (ofMoves is) := by
  refine ⟨fun _ ↦ mem_ofMoves, ?_⟩
  have horder := pairwise_eraseDups_flatMap (f := ofMove) (R := fun _ _ ↦ False)
    (fun i ↦ by cases i <;> simp [ofMove]) (fun i ↦ by cases i <;> simp [ofMove]) is
  refine horder.imp_of_mem fun {i j} hi hj h ↦ ?_
  obtain ⟨dst, src, -, rfl⟩ := mem_ofMoves.mp hi
  obtain ⟨dst', src', -, rfl⟩ := mem_ofMoves.mp hj
  simp only [contains_ofMove, and_false, or_false] at h
  exact ⟨dst, src, dst', src', rfl, rfl, h⟩

namespace Solver

/-! ## Between two rounds -/

/-- What is on record the environment derives. -/
structure Covered (s : Solver) : Prop where
  /-- The inclusions of stores. -/
  stores : s.stores ⊆ ofStores s.program.instructions s.environment
  /-- The inclusions of loads. -/
  loads : s.loads ⊆ ofLoads s.program.instructions s.environment

/-- A round derives its inclusions from environments that are below the one it ends with. -/
theorem Covered.round {s : Solver} (h : s.Covered) : s.round.Covered := by
  have hload : s.nextRound.storePass.environment ≤ s.nextRound.environment :=
    (s.growsInto_loadPass.trans s.growsInto_reloadPass).keeps
  have hstore : s.nextRound.knownPass.environment ≤ s.nextRound.environment :=
    le_trans s.growsInto_storePass.keeps hload
  rw [Solver.round]
  split
  · exact h
  · exact ⟨ofStores_mono _ hstore, ofLoads_mono _ hload⟩

theorem covered_iterate (p : Program) (o : Options) (k : Nat) :
    (Solver.round^[k] (start p o)).Covered :=
  Function.Iterate.rec Covered ⟨List.nil_subset _, List.nil_subset _⟩ (fun _ ↦ Covered.round) k

/-- Nothing in the state leads out of the program. -/
structure Closed (is : List Instruction) (s : Solver) : Prop where
  /-- The locations that have an entry are those that the program allocates. -/
  locations : ∀ l, .loc l ∈ s.environment ↔ l.index < (allocations is).length
  /-- Sets hold such locations only, and these have an entry. -/
  facts : ∀ t l, l ∈ s.environment.pointsTo t →
    l.index < (allocations is).length ∧ .loc l ∈ s.environment
  /-- The variables that have an entry are mentioned by the program. -/
  names : ∀ x, .var x ∈ s.environment → x ∈ mentioned is
  /-- The inclusions of stores lead from the source of a store to a location. -/
  stores : ∀ i ∈ s.stores, ∃ reference src l, .store reference src ∈ is ∧
    l.index < (allocations is).length ∧ i = ⟨.loc l, .var src⟩
  /-- The inclusions of loads lead from a location to the destination of a load. -/
  loads : ∀ i ∈ s.loads, ∃ dst reference l, .load dst reference ∈ is ∧
    l.index < (allocations is).length ∧ i = ⟨.var dst, .loc l⟩
  /-- Both sides of these inclusions have an entry. -/
  sides : ∀ i ∈ s.stores ++ s.loads, i.dst ∈ s.environment ∧ i.src ∈ s.environment

theorem loc_mem_iterate_iff (p : Program) (o : Options) (k : Nat) {l : Location} :
    .loc l ∈ (Solver.round^[k] (start p o)).environment ↔
      l.index < (allocations p.instructions).length := by
  refine ⟨fun h ↦ ((within_iterate p o k).environment.entries _ h).location_lt, fun h ↦ ?_⟩
  refine mem_iterate_of_mem_seed p o k (Environment.mem_seed.mpr ?_)
  exact ⟨l.index, _, List.getElem?_eq_getElem h, .inr (by simp)⟩

/-- Before the first round nothing is on record, and the first one makes the entries. -/
theorem sides_mem_iterate (p : Program) (o : Options) (k : Nat) {i : Inclusion}
    (hi : i ∈ (Solver.round^[k] (start p o)).stores ++ (Solver.round^[k] (start p o)).loads) :
    i.dst ∈ (Solver.round^[k] (start p o)).environment ∧
      i.src ∈ (Solver.round^[k] (start p o)).environment := by
  cases k with
  | zero => simp [start] at hi
  | succ k =>
    refine (entered_iterate_succ p o k).recorded i ?_
    rw [recorded, List.append_assoc]
    exact List.mem_append_right _ hi

/-- **Every state that a program reaches is closed.** -/
theorem closed_iterate (p : Program) (o : Options) (k : Nat) :
    Closed p.instructions (Solver.round^[k] (start p o)) := by
  have hwithin := (within_iterate p o k).environment
  have hcovered := covered_iterate p o k
  have hprogram : (Solver.round^[k] (start p o)).program = p := program_iterate_round _ k
  have hlt : ∀ t l, l ∈ (Solver.round^[k] (start p o)).environment.pointsTo t →
      l.index < (allocations p.instructions).length := fun t l hl ↦ (hwithin.facts t l hl).location_lt
  refine ⟨fun l ↦ loc_mem_iterate_iff p o k, fun t l hl ↦ ?_, fun x hx ↦ ?_, fun i hi ↦ ?_,
    fun i hi ↦ ?_, fun i ↦ sides_mem_iterate p o k⟩
  · exact ⟨hlt t l hl, (loc_mem_iterate_iff p o k).mpr (hlt t l hl)⟩
  · exact mem_mentioned_of_var_mem (hwithin.entries _ hx).storage_mem
  · obtain ⟨reference, src, l, hstore, hl, rfl⟩ := mem_ofStores.mp (hcovered.stores hi)
    exact ⟨reference, src, l, hprogram ▸ hstore, hlt _ l hl, rfl⟩
  · obtain ⟨dst, reference, l, hload, hl, rfl⟩ := mem_ofLoads.mp (hcovered.loads hi)
    exact ⟨dst, reference, l, hprogram ▸ hload, hlt _ l hl, rfl⟩

/-! ## In a solution -/

/-- A run that succeeds, after any number of rounds, gives what the last state has found. -/
theorem eq_of_run_iterate_eq_ok {p : Program} {o : Options} {k : Nat} {sol : Solution}
    (h : (Solver.round^[k] (start p o)).run = .ok sol) : sol = (start p o).last.solution := by
  rw [run_iterate_start] at h
  split at h
  · exact (Except.ok.inj h).symm
  · split at h
    · exact (Except.ok.inj h).symm
    · cases h

end Solver

/-- **The inclusions of a solution are those of its environment.**  Whatever the options are, and
however many rounds were made before the run: if it gives a solution, this lists the inclusions of
the moves as they first occur in the program; it lists the others exactly as its environment derives
them; and all of them hold there. -/
theorem Program.run_inclusions (p : Program) (o : Options) (k : Nat) (sol : Solution)
    (h : (Solver.round^[k] (Solver.start p o)).run = .ok sol) :
    ListsMoves p.instructions sol.moves ∧
    sol.derived =
      ofStores p.instructions sol.environment ++ ofLoads p.instructions sol.environment ∧
    ∀ i ∈ sol.inclusions, i.Holds sol.environment := by
  have hsettled := Solver.last_start_settled p o
  have hprogram : (Solver.start p o).last.program = p := Solver.program_last _
  rw [Solver.eq_of_run_iterate_eq_ok h]
  refine ⟨?_, ?_, fun i hi ↦ ?_⟩
  · change ListsMoves _ (Solver.start p o).last.moves
    rw [Solver.moves, hprogram]
    exact listsMoves_ofMoves _
  · have hstores := hsettled.stores
    have hloads := hsettled.loads
    rw [hprogram] at hstores hloads
    exact congrArg₂ (· ++ ·) hstores hloads
  · rw [Solver.inclusions_solution] at hi
    exact hsettled.holds i hi

/-- A move that is written twice, after a round made by hand and under a limit that just suffices. -/
theorem Program.run_inclusions_stepped :
    let p : Program := ⟨[.alloca "a", .alloca "b", .move "e" "d", .store "a" "b", .load "c" "a",
      .move "d" "c", .move "e" "d"]⟩
    let o : Options := { maxRounds := some 3, keepDerived := false }
    ∃ sol, (Solver.round^[1] (Solver.start p o)).run = .ok sol ∧
      ListsMoves p.instructions sol.moves ∧
      sol.derived =
        ofStores p.instructions sol.environment ++ ofLoads p.instructions sol.environment ∧
      ∀ i ∈ sol.inclusions, i.Holds sol.environment := by
  intro p o
  have hok : (Solver.round^[1] (Solver.start p o)).run.isOk = true := by decide +kernel
  cases hrun : (Solver.round^[1] (Solver.start p o)).run with
  | error e => rw [hrun] at hok; cases hok
  | ok sol => exact ⟨sol, rfl, Program.run_inclusions p o 1 sol hrun⟩

end PointsTo
