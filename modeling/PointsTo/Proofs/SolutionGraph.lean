import PointsTo.Proofs.RecordedInclusions

/-!
# The entries of a solution, and its graph

A solution is shown by its entries: its printed form has a line for each of them, and its graph a
vertex.  Which storage has an entry is decided by `HasEntry`, by rules that refer to derivable facts.
At the end these facts are those of the environment itself, so the entries can be read off the
program and the final sets (`Instruction.entered`): locations have one if they are allocated, and the
variable that a store reads or a load writes has one if the reference points anywhere.

The graph of a solution is built from the environment and the inclusions on record.  In general a
graph may have vertices besides the entries, and fewer edges than there are inclusions.  Here neither
happens (`ConstraintGraph.Depicts`).

* Every inclusion was evaluated before the run ended, so both its sides have an entry
  (`Solver.Entered`).
* The inclusions of moves, of stores and of loads are listed without repetition, and their shapes
  keep the three lists apart: the shape decides how an edge is drawn, and no shape is drawn in two
  ways.
-/

set_option autoImplicit false

namespace PointsTo

open Std Inclusion

/-! ## The entries -/

/-- The variables to which an instruction gives an entry, by what its reference points to in the
end. -/
def Instruction.entered (e : Environment) : Instruction → List String
  | .alloca name => [name]
  | .move dst src => [dst, src]
  | .load dst reference =>
    if (e.pointsTo (.var reference)).isEmpty then [reference] else [dst, reference]
  | .store reference src =>
    if (e.pointsTo (.var reference)).isEmpty then [reference] else [reference, src]

theorem PointsToSet.isEmpty_eq_false_iff {a : PointsToSet} :
    a.isEmpty = false ↔ ∃ l, l ∈ a := by
  rw [Bool.eq_false_iff, ne_eq, ExtTreeSet.isEmpty_iff, ExtTreeSet.eq_empty_iff_forall_not_mem,
    not_forall_not]

section Entered

variable {e : Environment} {x dst src reference : String}

theorem mem_entered_load : x ∈ (Instruction.load dst reference).entered e ↔
    x = reference ∨ x = dst ∧ ∃ k, k ∈ e.pointsTo (.var reference) := by
  rw [Instruction.entered, ← PointsToSet.isEmpty_eq_false_iff]
  cases (e.pointsTo (.var reference)).isEmpty <;> simp [or_comm]

theorem mem_entered_store : x ∈ (Instruction.store reference src).entered e ↔
    x = reference ∨ x = src ∧ ∃ k, k ∈ e.pointsTo (.var reference) := by
  rw [Instruction.entered, ← PointsToSet.isEmpty_eq_false_iff]
  cases (e.pointsTo (.var reference)).isEmpty <;> simp

end Entered

/-- In an environment of the derivable facts, the rules for entries are those of the
instructions. -/
theorem hasEntry_var_iff {is : List Instruction} {e : Environment}
    (hfacts : ∀ t l, l ∈ e.pointsTo t ↔ Derives is t l) {x : String} :
    HasEntry is (.var x) ↔ ∃ i ∈ is, x ∈ i.entered e := by
  refine ⟨fun h ↦ ?_, fun ⟨i, hi, hx⟩ ↦ ?_⟩
  · cases h with
    | alloca hi => exact ⟨_, hi, by simp [Instruction.entered]⟩
    | moveDst hi => exact ⟨_, hi, by simp [Instruction.entered]⟩
    | moveSrc hi => exact ⟨_, hi, by simp [Instruction.entered]⟩
    | storeReference hi => exact ⟨_, hi, mem_entered_store.mpr (.inl rfl)⟩
    | loadReference hi => exact ⟨_, hi, mem_entered_load.mpr (.inl rfl)⟩
    | storeSrc hi hk =>
      exact ⟨_, hi, mem_entered_store.mpr (.inr ⟨rfl, _, (hfacts _ _).mpr hk⟩)⟩
    | loadDst hi hk =>
      exact ⟨_, hi, mem_entered_load.mpr (.inr ⟨rfl, _, (hfacts _ _).mpr hk⟩)⟩
  · cases i with
    | alloca name => rw [List.mem_singleton.mp hx]; exact .alloca hi
    | move dst src =>
      obtain rfl | rfl : x = dst ∨ x = src := by simpa [Instruction.entered] using hx
      · exact .moveDst hi
      · exact .moveSrc hi
    | load dst reference =>
      obtain rfl | ⟨rfl, k, hk⟩ := mem_entered_load.mp hx
      · exact .loadReference hi
      · exact .loadDst hi ((hfacts _ _).mp hk)
    | store reference src =>
      obtain rfl | ⟨rfl, k, hk⟩ := mem_entered_store.mp hx
      · exact .storeReference hi
      · exact .storeSrc hi ((hfacts _ _).mp hk)

/-- **The entries of a solution are determined by the program and the final sets.**  Whatever the
options are, and however many rounds were made before the run: if it gives a solution, this has an
entry for every location that the program allocates and for no other one, and for every variable to
which an instruction gives one and for no other one. -/
theorem Program.run_entries (p : Program) (o : Options) (k : Nat) (sol : Solution)
    (h : (Solver.round^[k] (Solver.start p o)).run = .ok sol) :
    (∀ l, .loc l ∈ sol.environment ↔ l.index < (allocations p.instructions).length) ∧
    ∀ x, .var x ∈ sol.environment ↔ ∃ i ∈ p.instructions, x ∈ i.entered sol.environment := by
  rw [Solver.eq_of_run_iterate_eq_ok h]
  have hentries : ∀ t, t ∈ (Solver.start p o).last.solution.environment ↔
      HasEntry p.instructions t := fun _ ↦ Solver.mem_last_start_iff p o
  refine ⟨fun l ↦ (hentries _).trans ⟨HasEntry.location_lt, .location⟩, fun x ↦ ?_⟩
  exact (hentries _).trans (hasEntry_var_iff fun _ _ ↦ Solver.mem_pointsTo_last_start_iff p o)

/-- A store and a load through a reference that points somewhere, and another two through one that
never does. -/
theorem Program.run_entries_unreached :
    let p : Program := ⟨[.store "d" "e", .load "f" "d", .load "c" "a", .store "a" "b",
      .alloca "a"]⟩
    let o : Options := { maxRounds := some 0, keepDerived := false }
    ∃ sol, (Solver.round^[1] (Solver.start p o)).run = .ok sol ∧
      (∀ l, .loc l ∈ sol.environment ↔ l.index < (allocations p.instructions).length) ∧
      ∀ x, .var x ∈ sol.environment ↔ ∃ i ∈ p.instructions, x ∈ i.entered sol.environment := by
  intro p o
  have hok : (Solver.round^[1] (Solver.start p o)).run.isOk = true := by decide +kernel
  cases hrun : (Solver.round^[1] (Solver.start p o)).run with
  | error e => rw [hrun] at hok; cases hok
  | ok sol => exact ⟨sol, rfl, Program.run_entries p o 1 sol hrun⟩

/-! ## The graph -/

/-- The graph shows the solution and nothing else. -/
structure ConstraintGraph.Depicts (g : ConstraintGraph) (sol : Solution) : Prop where
  /-- The vertices are the entries with their sets, numbered in order. -/
  vertices : g.graph.vertices.toList =
    sol.environment.entries.mapIdx fun i entry ↦ (i, ⟨i, entry.1, entry.2⟩)
  /-- The number of some storage is its place among the entries. -/
  index : ∀ s i, g.index s = some i ↔ sol.environment.keys[i]? = some s
  /-- There are as many edges as inclusions. -/
  edgeCount : g.graph.edgeCount = sol.inclusions.length
  /-- The edges carry the inclusions, each of them once. -/
  inclusions : (g.graph.edgeList.map InclusionEdge.inclusion).Perm sol.inclusions
  /-- An edge leads from the source of its inclusion to the destination. -/
  ends : ∀ x ∈ g.graph.edgeList,
    g.index x.inclusion.src = some x.head ∧ g.index x.inclusion.dst = some x.tail
  /-- Solid lines are for moves. -/
  solid : ∀ x ∈ g.graph.edgeList, Edge.style x = "solid" ↔ x.inclusion ∈ sol.moves
  /-- Dashed lines are for stores. -/
  dashed : ∀ x ∈ g.graph.edgeList, Edge.style x = "dashed" ↔ x.inclusion ∈ sol.stores
  /-- Dotted lines are for loads. -/
  dotted : ∀ x ∈ g.graph.edgeList, Edge.style x = "dotted" ↔ x.inclusion ∈ sol.loads

/-! ### The shapes of inclusions -/

section Style

variable {is : List Instruction} {e : Environment} {x : InclusionEdge}

theorem style_of_mem_ofMoves (h : x.inclusion ∈ ofMoves is) : Edge.style x = "solid" := by
  obtain ⟨dst, src, -, hi⟩ := mem_ofMoves.mp h
  simp [Edge.style, hi]

theorem style_of_mem_ofStores (h : x.inclusion ∈ ofStores is e) : Edge.style x = "dashed" := by
  obtain ⟨reference, src, l, -, -, hi⟩ := mem_ofStores.mp h
  simp [Edge.style, hi]

theorem style_of_mem_ofLoads (h : x.inclusion ∈ ofLoads is e) : Edge.style x = "dotted" := by
  obtain ⟨dst, reference, l, -, -, hi⟩ := mem_ofLoads.mp h
  simp [Edge.style, hi]

/-- The line of an edge tells in which of the three lists its inclusion is. -/
theorem style_eq_iff (hx : x.inclusion ∈ ofMoves is ++ (ofStores is e ++ ofLoads is e)) :
    (Edge.style x = "solid" ↔ x.inclusion ∈ ofMoves is) ∧
    (Edge.style x = "dashed" ↔ x.inclusion ∈ ofStores is e) ∧
    (Edge.style x = "dotted" ↔ x.inclusion ∈ ofLoads is e) := by
  rw [List.mem_append, List.mem_append] at hx
  refine ⟨⟨fun h ↦ ?_, style_of_mem_ofMoves⟩, ⟨fun h ↦ ?_, style_of_mem_ofStores⟩,
    ⟨fun h ↦ ?_, style_of_mem_ofLoads⟩⟩
  · rcases hx with hx | hx | hx
    · exact hx
    · exact absurd (h.symm.trans (style_of_mem_ofStores hx)) (by decide)
    · exact absurd (h.symm.trans (style_of_mem_ofLoads hx)) (by decide)
  · rcases hx with hx | hx | hx
    · exact absurd (h.symm.trans (style_of_mem_ofMoves hx)) (by decide)
    · exact hx
    · exact absurd (h.symm.trans (style_of_mem_ofLoads hx)) (by decide)
  · rcases hx with hx | hx | hx
    · exact absurd (h.symm.trans (style_of_mem_ofMoves hx)) (by decide)
    · exact absurd (h.symm.trans (style_of_mem_ofStores hx)) (by decide)
    · exact hx

end Style

/-- **No inclusion comes from two kinds of instruction.**  Edges for them would be drawn alike. -/
theorem nodup_ofMoves_append (is : List Instruction) (e : Environment) :
    (ofMoves is ++ (ofStores is e ++ ofLoads is e)).Nodup := by
  have hstores : ∀ y ∈ ofStores is e, ∀ z ∈ ofLoads is e, y ≠ z := by
    rintro y hy z hz rfl
    have hstyle := style_of_mem_ofStores (x := ⟨0, 0, y⟩) hy
    exact absurd (hstyle.symm.trans (style_of_mem_ofLoads hz)) (by decide)
  have hmoves : ∀ y ∈ ofMoves is, ∀ z ∈ ofStores is e ++ ofLoads is e, y ≠ z := by
    rintro y hy z hz rfl
    have hstyle := style_of_mem_ofMoves (x := ⟨0, 0, y⟩) hy
    rcases List.mem_append.mp hz with hz | hz
    · exact absurd (hstyle.symm.trans (style_of_mem_ofStores hz)) (by decide)
    · exact absurd (hstyle.symm.trans (style_of_mem_ofLoads hz)) (by decide)
  refine List.nodup_append.mpr ⟨nodup_eraseDups _, ?_, hmoves⟩
  exact List.nodup_append.mpr ⟨nodup_eraseDups _, nodup_eraseDups _, hstores⟩

/-! ### The graph of a solution -/

/-- Inclusions that lead between entries add no storage to the graph. -/
theorem ConstraintGraph.eraseDups_storageOf {e : Environment} {is : List Inclusion}
    (h : ∀ i ∈ is, i.dst ∈ e ∧ i.src ∈ e) : (storageOf e is).eraseDups = e.keys := by
  have hsides : is.flatMap Inclusion.sides ⊆ e.keys := by
    intro t ht
    obtain ⟨i, hi, ht⟩ := List.mem_flatMap.mp ht
    rw [Environment.mem_keys]
    obtain rfl | rfl : t = i.src ∨ t = i.dst := by simpa [Inclusion.sides] using ht
    · exact (h i hi).2
    · exact (h i hi).1
  rw [storageOf, eraseDups_append_of_subset hsides]
  exact eraseDups_of_nodup e.nodup_keys

/-- A solution that lists what its environment derives, between entries, is depicted by its
graph. -/
theorem Solution.exists_depicts {sol : Solution} (is : List Instruction)
    (hmoves : sol.moves = ofMoves is) (hstores : sol.stores = ofStores is sol.environment)
    (hloads : sol.loads = ofLoads is sol.environment)
    (hsides : ∀ i ∈ sol.inclusions, i.dst ∈ sol.environment ∧ i.src ∈ sol.environment) :
    ∃ g, sol.constraintGraph = .ok g ∧ g.Depicts sol := by
  obtain ⟨g, hg, hrep⟩ := ConstraintGraph.represents_build sol.environment sol.inclusions
  have hstorage := ConstraintGraph.eraseDups_storageOf hsides
  have hinclusions : sol.inclusions =
      ofMoves is ++ (ofStores is sol.environment ++ ofLoads is sol.environment) := by
    rw [Solution.inclusions, Solution.derived, hmoves, hstores, hloads]
  have hperm := hrep.perm_inclusions
  rw [eraseDups_of_nodup (hinclusions ▸ nodup_ofMoves_append _ _)] at hperm
  have hstyle : ∀ x ∈ g.graph.edgeList, (Edge.style x = "solid" ↔ x.inclusion ∈ sol.moves) ∧
      (Edge.style x = "dashed" ↔ x.inclusion ∈ sol.stores) ∧
      (Edge.style x = "dotted" ↔ x.inclusion ∈ sol.loads) := by
    intro x hx
    have hmem := (hrep.mem_edgeList.mp hx).1
    rw [hinclusions] at hmem
    rw [hmoves, hstores, hloads]
    exact style_eq_iff hmem
  refine ⟨g, hg, ?_, fun s i ↦ ?_, ?_, hperm, fun x hx ↦ (hrep.mem_edgeList.mp hx).2,
    fun x hx ↦ (hstyle x hx).1, fun x hx ↦ (hstyle x hx).2.1, fun x hx ↦ (hstyle x hx).2.2⟩
  · rw [hrep.toList_vertices, hstorage, Environment.entries_eq_map]
    refine List.ext_getElem? fun i ↦ ?_
    simp only [List.getElem?_mapIdx, List.getElem?_map, Option.map_map]
    rfl
  · rw [ConstraintGraph.index, hrep.index_iff, hstorage]
  · have hlength := hperm.length_eq
    rwa [List.length_map, Digraph.edgeList, List.length_map, ExtTreeMap.length_toList] at hlength

/-- **The graph of a solution depicts it.**  Whatever the options are, and however many rounds were
made before the run: if it gives a solution, the graph of that solution can be built, and shows its
entries as vertices and its inclusions as edges, all of them and nothing else. -/
theorem Program.run_constraintGraph (p : Program) (o : Options) (k : Nat) (sol : Solution)
    (h : (Solver.round^[k] (Solver.start p o)).run = .ok sol) :
    ∃ g, sol.constraintGraph = .ok g ∧ g.Depicts sol := by
  have hsettled := Solver.last_start_settled p o
  have hprogram : (Solver.start p o).last.program = p := Solver.program_last _
  have hentered : (Solver.start p o).last.Entered := Solver.entered_iterate_succ p o _
  rw [Solver.eq_of_run_iterate_eq_ok h]
  refine Solution.exists_depicts p.instructions ?_ ?_ ?_ fun i hi ↦ ?_
  · exact congrArg (fun q : Program ↦ ofMoves q.instructions) hprogram
  · exact hsettled.stores.trans (by rw [hprogram]; rfl)
  · exact hsettled.loads.trans (by rw [hprogram]; rfl)
  · rw [Solver.inclusions_solution] at hi
    exact hentered.recorded i hi

/-- Inclusions of all three kinds, after a round made by hand and under a limit that just suffices;
the move that is written twice is one edge. -/
theorem Program.run_constraintGraph_stepped :
    let p : Program := ⟨[.alloca "a", .alloca "b", .move "e" "d", .store "a" "b", .load "c" "a",
      .move "d" "c", .move "e" "d"]⟩
    let o : Options := { maxRounds := some 3, keepDerived := false }
    ∃ sol g, (Solver.round^[1] (Solver.start p o)).run = .ok sol ∧ sol.inclusions.length = 4 ∧
      sol.constraintGraph = .ok g ∧ g.Depicts sol := by
  intro p o
  have hok : (fun sol ↦ sol.inclusions.length) <$> (Solver.round^[1] (Solver.start p o)).run =
      .ok 4 := by decide +kernel
  cases hrun : (Solver.round^[1] (Solver.start p o)).run with
  | error e => rw [hrun] at hok; cases hok
  | ok sol =>
    rw [hrun] at hok
    obtain ⟨g, hg, hdepicts⟩ := Program.run_constraintGraph p o 1 sol hrun
    exact ⟨sol, g, rfl, Except.ok.inj hok, hg, hdepicts⟩

end PointsTo
