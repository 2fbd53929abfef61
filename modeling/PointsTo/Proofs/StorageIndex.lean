import PointsTo.Proofs.RecordedInclusions

/-!
# The constraint graph as an index of storage

Whatever the environment and the inclusions are, the construction of their graph succeeds, also if
the inclusions mention storage that has no entry.  `ConstraintGraph.Represents` is the invariant
behind this; here it is read from outside.

* **Numbering.**  The entries come first, in order, and then the other storage as the inclusions
  mention it.  Numbers and storage determine each other, and a number leads to a vertex for its
  storage.  Two numbers have an edge between them exactly if there is an inclusion between their
  storage, and the edge carries that inclusion (`ConstraintGraph.Indexes`).
* **Answers.**  Questions are asked in storage, worked on in numbers and answered in storage.
  Numbers that the graph comes across are those of vertices, so nothing gets lost on the way back,
  and different numbers are different storage, so nothing comes back twice.  The only question
  without an answer is one about storage that is not there.
-/

set_option autoImplicit false

namespace PointsTo

open Std Relation

/-- Sorting a list without repetition makes it strictly ascending. -/
theorem pairwise_lt_mergeSort {xs : List Storage} (h : xs.Nodup) :
    (xs.mergeSort fun a b ↦ (compare a b).isLE).Pairwise fun a b ↦ compare a b = .lt := by
  have htotal : ∀ a b : Storage, ((compare a b).isLE || (compare b a).isLE) = true := by
    intro a b
    rw [Bool.or_eq_true, Classical.or_iff_not_imp_left]
    intro hn
    rw [OrientedCmp.lt_of_not_isLE hn]
    rfl
  have hsorted := List.pairwise_mergeSort (fun _ _ _ ↦ TransCmp.isLE_trans) htotal xs
  have hnodup : (xs.mergeSort fun a b ↦ (compare a b).isLE).Nodup :=
    (List.mergeSort_perm ..).nodup_iff.mpr h
  refine hsorted.imp₂ (fun a b hle hne ↦ ?_) hnodup
  cases hab : compare a b with
  | lt => rfl
  | eq => exact absurd (Std.compare_eq_iff_eq.mp hab) hne
  | gt => rw [hab] at hle; cases hle

namespace ConstraintGraph

/-! ## Numbering -/

/-- The graph is an index of the entries and of `others`, with the inclusions as its edges. -/
structure Indexes (g : ConstraintGraph) (e : Environment) (is : List Inclusion)
    (others : List Storage) : Prop where
  /-- Besides the entries there are the sides of the inclusions, in the order in which they are
  first mentioned. -/
  mentioned : ListsByFirst ((is.flatMap Inclusion.sides).filter fun s ↦ !e.contains s) others
  /-- The vertices are numbered from zero without a gap, the entries before the others.  Each has
  its storage and what that points to. -/
  vertices : g.graph.vertices.toList =
    (e.keys ++ others).mapIdx fun i s ↦ (i, ⟨i, s, e.pointsTo s⟩)
  /-- No storage has two numbers. -/
  nodup : (e.keys ++ others).Nodup
  /-- The number of some storage is its place. -/
  index_iff : ∀ s i, g.index s = some i ↔ (e.keys ++ others)[i]? = some s
  /-- The entries and the sides of the inclusions have a number, and nothing else has one. -/
  isSome_index : ∀ s, (g.index s).isSome = true ↔ s ∈ e ∨ ∃ y ∈ is, s = y.src ∨ s = y.dst
  /-- The vertex for some storage is the one of its number. -/
  vertex_eq : ∀ s, g.vertex s = (g.index s).map fun i ↦ ⟨i, s, e.pointsTo s⟩
  /-- There is an edge from one storage to another exactly if the second includes the first. -/
  hasEdge_iff : ∀ s t i j, g.index s = some i → g.index t = some j →
    (g.graph.hasEdge i j = true ↔ { dst := t, src := s } ∈ is)
  /-- Every edge is that of an inclusion, and carries it. -/
  edge_iff : ∀ i j x, g.graph.edge i j = .ok x ↔
    ∃ y ∈ is, g.index y.src = some i ∧ g.index y.dst = some j ∧ x = ⟨i, j, y⟩

section Numbering

variable {e : Environment} {xs : List Storage} {is : List Inclusion} {g : ConstraintGraph}
  {s t : Storage}

theorem mem_storageOf : s ∈ storageOf e is ↔ s ∈ e ∨ ∃ y ∈ is, s = y.src ∨ s = y.dst := by
  rw [storageOf, List.mem_append, Environment.mem_keys, List.mem_flatMap]
  simp only [Inclusion.sides, List.mem_cons, List.not_mem_nil, or_false]

/-- The storage that is numbered after the entries. -/
def newcomers (e : Environment) (is : List Inclusion) : List Storage :=
  ((is.flatMap Inclusion.sides).filter fun s ↦ !e.contains s).eraseDups

/-- **The entries keep their order and come first.** -/
theorem eraseDups_storageOf_eq (e : Environment) (is : List Inclusion) :
    (storageOf e is).eraseDups = e.keys ++ newcomers e is := by
  have hremove : (is.flatMap Inclusion.sides).removeAll e.keys =
      (is.flatMap Inclusion.sides).filter fun s ↦ !e.contains s := by
    refine List.filter_congr fun s _ ↦ ?_
    rw [List.elem_eq_contains, Bool.not_inj_iff, Bool.eq_iff_iff, List.contains_iff_mem,
      Environment.mem_keys, Environment.contains_iff_mem]
  rw [storageOf, List.eraseDups_append, hremove, eraseDups_of_nodup e.nodup_keys, newcomers]

theorem Represents.isSome_index (h : Represents e xs is g) :
    (g.index s).isSome = true ↔ s ∈ xs := by
  rw [Option.isSome_iff_exists, ← exists_getElem?_eraseDups]
  exact exists_congr fun i ↦ h.index_iff s i

theorem Represents.vertex_eq (h : Represents e xs is g) :
    g.vertex s = (g.index s).map fun i ↦ ⟨i, s, e.pointsTo s⟩ := by
  rw [ConstraintGraph.vertex]
  cases hi : g.index s with
  | none => rfl
  | some i =>
    rw [Option.bind_some, Digraph.vertex, h.vertices_eq, (h.index_iff s i).mp hi]
    rfl

theorem Represents.edge_iff_index (h : Represents e xs is g) {i j : Nat} {x : InclusionEdge} :
    g.graph.edge i j = .ok x ↔
      ∃ y ∈ is, g.index y.src = some i ∧ g.index y.dst = some j ∧ x = ⟨i, j, y⟩ := by
  have hedge : g.graph.edge i j = .ok x ↔ g.graph.edges[(i, j)]? = some x := by
    rw [Digraph.edge]
    cases g.graph.edges[(i, j)]? with
    | none => exact iff_of_false (fun hx ↦ by cases hx) (fun hx ↦ by cases hx)
    | some y => rw [Except.ok.injEq, Option.some_inj]
  simp only [hedge, h.edge_iff, index, h.index_iff]

theorem Represents.hasEdge_iff (h : Represents e xs is g) {i j : Nat} (hs : g.index s = some i)
    (ht : g.index t = some j) : g.graph.hasEdge i j = true ↔ { dst := t, src := s } ∈ is := by
  rw [index, h.index_iff] at hs ht
  rw [Digraph.hasEdge_iff, h.mem_edges_iff]
  constructor
  · rintro ⟨y, hy, hi, hj⟩
    rwa [inclusion_eq_of_getElem?_eraseDups (y := ⟨t, s⟩) hs ht hi hj]
  · exact fun hst ↦ ⟨_, hst, hs, ht⟩

end Numbering

/-- **The construction makes an index**, from every environment and all inclusions. -/
theorem build_indexes (e : Environment) (is : List Inclusion) :
    ∃ g others, build e is = .ok g ∧ g.Indexes e is others := by
  obtain ⟨g, hg, h⟩ := represents_build e is
  have hstorage := eraseDups_storageOf_eq e is
  refine ⟨g, newcomers e is, hg, ?_⟩
  constructor
  case mentioned => exact listsByFirst_eraseDups _
  case vertices => rw [h.toList_vertices, hstorage]
  case nodup => exact hstorage ▸ nodup_eraseDups (storageOf e is)
  case index_iff => exact fun s i ↦ hstorage ▸ h.index_iff s i
  case isSome_index => exact fun s ↦ h.isSome_index.trans mem_storageOf
  case vertex_eq => exact fun s ↦ h.vertex_eq
  case hasEdge_iff => exact fun s t i j hs ht ↦ h.hasEdge_iff hs ht
  case edge_iff => exact fun i j x ↦ h.edge_iff_index

/-! ## Answers -/

section Answers

variable {e : Environment} {xs : List Storage} {is : List Inclusion} {g : ConstraintGraph}
  {s : Storage}

/-- Different numbers are different storage. -/
theorem nodup_filterMap_getElem?_eraseDups {js : List Nat} (h : js.Nodup) :
    (js.filterMap fun j ↦ xs.eraseDups[j]?).Nodup :=
  List.Nodup.filterMap (fun _ _ _ hi hj ↦ eq_of_getElem?_eraseDups hi hj) h

/-- **What storage flows to directly** are the destinations of the inclusions that it is the source
of, each once. -/
theorem Represents.flowsTo (h : Represents e xs is g) (hs : s ∈ xs) :
    ∃ r, g.flowsTo s = .ok r ∧ r.Nodup ∧ ∀ t, t ∈ r ↔ Flows is s t := by
  obtain ⟨i, hi⟩ := exists_getElem?_eraseDups.mpr hs
  have hmem : i ∈ g.graph.successors :=
    (h.consistent.mem_successors i).mpr (h.mem_vertices_iff.mpr ⟨s, hi⟩)
  have hstorage : ((g.graph.next i).filterMap fun j ↦ g.graph.vertices[j]?).map
      StorageVertex.storage = (g.graph.next i).filterMap fun j ↦ xs.eraseDups[j]? := by
    rw [List.map_filterMap]
    refine List.filterMap_congr fun j _ ↦ ?_
    rw [h.vertices_eq]
    cases xs.eraseDups[j]? with
    | none => rfl
    | some t => rfl
  refine ⟨(g.graph.next i).filterMap fun j ↦ xs.eraseDups[j]?, ?_,
    nodup_filterMap_getElem?_eraseDups (nodup_toList _), fun t ↦ ?_⟩
  · rw [ConstraintGraph.flowsTo, h.indexOf hi, ← hstorage]
    show (g.graph.successorsOf i >>= _) = _
    rw [Digraph.successorsOf, Digraph.neighbours_of_mem hmem]
    rfl
  · exact mem_filterMap_getElem?_eraseDups (fun _ ↦ h.leads_iff hi) fun hst ↦
      (h.sides_mem _ hst).2

theorem Represents.flowsTo_of_not_mem (h : Represents e xs is g) (hs : s ∉ xs) :
    g.flowsTo s = .error (.notInConstraintGraph s) := by
  rw [ConstraintGraph.flowsTo, h.indexOf_of_not_mem hs]
  rfl

/-- What is reachable is listed in order, without repetition. -/
theorem Represents.pairwise_lt_reachable (h : Represents e xs is g) {r : List Storage}
    (hr : g.reachable s = .ok r) : r.Pairwise fun a b ↦ compare a b = .lt := by
  by_cases hs : s ∈ xs
  · obtain ⟨i, hi⟩ := exists_getElem?_eraseDups.mpr hs
    obtain ⟨js, hnodup, -, hreachable⟩ := h.reachable_eq hi
    rw [hreachable, Except.ok.injEq] at hr
    exact hr ▸ pairwise_lt_mergeSort (nodup_filterMap_getElem?_eraseDups hnodup)
  · rw [h.reachable_of_not_mem hs] at hr
    cases hr

end Answers

/-- **The graph answers for all its storage**, and only for that.  About storage that has no entry
and that no inclusion mentions it fails, and names that storage.  For any other it lists each
storage to which an inclusion leads once; and in strictly ascending order what chains of inclusions
lead to, from source to destination, the storage itself included. -/
theorem build_answers (e : Environment) (is : List Inclusion) :
    ∃ g, build e is = .ok g ∧
      (∀ s, ¬ (s ∈ e ∨ ∃ y ∈ is, s = y.src ∨ s = y.dst) →
        g.flowsTo s = .error (.notInConstraintGraph s) ∧
        g.reachable s = .error (.notInConstraintGraph s)) ∧
      ∀ s, (s ∈ e ∨ ∃ y ∈ is, s = y.src ∨ s = y.dst) →
        ∃ direct all, g.flowsTo s = .ok direct ∧ direct.Nodup ∧
          (∀ t, t ∈ direct ↔ { dst := t, src := s } ∈ is) ∧
          g.reachable s = .ok all ∧ all.Pairwise (fun a b ↦ compare a b = .lt) ∧
          ∀ t, t ∈ all ↔ ReflTransGen (fun a b ↦ { dst := b, src := a } ∈ is) s t := by
  obtain ⟨g, hg, h⟩ := represents_build e is
  refine ⟨g, hg, fun s hs ↦ ?_, fun s hs ↦ ?_⟩
  · have hs : s ∉ storageOf e is := fun hmem ↦ hs (mem_storageOf.mp hmem)
    exact ⟨h.flowsTo_of_not_mem hs, h.reachable_of_not_mem hs⟩
  · have hs : s ∈ storageOf e is := mem_storageOf.mpr hs
    obtain ⟨direct, hdirect, hnodup, hflows⟩ := h.flowsTo hs
    obtain ⟨all, hall, hreaches⟩ := h.reachable hs
    exact ⟨direct, all, hdirect, hnodup, hflows, hall, h.pairwise_lt_reachable hall, hreaches⟩

end ConstraintGraph

end PointsTo
