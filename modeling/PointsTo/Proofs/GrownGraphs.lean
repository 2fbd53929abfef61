import Mathlib.Data.List.Basic
import PointsTo.Digraph.Insertion
import PointsTo.Proofs.Digraph

/-!
# Graphs that grow call by call

A call writes to three of the four maps of a graph, one after the other, and they have to agree
again when it is done.  But it looks before it writes.  A check that does not pass ends the call
with the graph as it was (`Digraph.run_check`), and behind the last check nothing can fail.  So a
call does all that `insertVertex` or `insertEdge` does, or else nothing, and
`Digraph.Consistent.after_cases` says all that it can do to a consistent graph.  By induction on the
calls, every graph that was grown from the empty one is consistent, `Digraph.consistent_grown`.

The queries pass over what they do not find: `successorsOf` an index without a vertex, `edgesOut` an
index without an edge.  In a consistent graph there is nothing to pass over.  The four of them are
one walk over a set of neighbours, and `Digraph.exists_listsKept` says what such a walk returns.
-/

set_option autoImplicit false

namespace PointsTo.Digraph

open Std

/-! ## One call -/

/-- **A check that does not pass ends a call before anything is written.** -/
theorem run_check {V E : Type} (fails : Digraph V E → Prop) [DecidablePred fails] (e : Error)
    (rest : Edit V E Unit) (g : Digraph V E) :
    (do
      if fails (← get) then throw e
      rest : Edit V E Unit).run.run g = if fails g then (.error e, g) else rest.run.run g := by
  by_cases h : fails g
  · rw [if_pos h]
    show (if fails g then throw e else rest : Edit V E Unit).run.run g = _
    rw [if_pos h]
    rfl
  · rw [if_neg h]
    show (if fails g then throw e else rest : Edit V E Unit).run.run g = _
    rw [if_neg h]

/-- A graph that was made takes the place of the old one, which stays if none was made. -/
def commit {V E : Type} (g : Digraph V E) :
    Except Error (Digraph V E) → Except Error Unit × Digraph V E
  | .ok g' => (.ok (), g')
  | .error e => (.error e, g)

section Calls

variable {V E : Type} [Vertex V] [Edge E] {g : Digraph V E}

theorem after_vertex (g : Digraph V E) (v : V) :
    g.after (.vertex v) = g.commit (g.insertVertex v) := by
  rw [after, Edit.call, Edit.addVertex, run_check, insertVertex]
  split
  · rfl
  · rfl

theorem after_edge (g : Digraph V E) (e : E) :
    g.after (.edge e) = g.commit (g.insertEdge e) := by
  rw [after, Edit.call, Edit.addEdge, run_check, run_check, run_check, insertEdge]
  repeat' split
  all_goals rfl

/-- The index of the vertex is taken, or the ends of the edge are taken or one of them is missing. -/
def Refuses (g : Digraph V E) : Insertion V E → Prop
  | .vertex v => Vertex.index v ∈ g.vertices
  | .edge e =>
    (Edge.head e, Edge.tail e) ∈ g.edges ∨ Edge.head e ∉ g.vertices ∨ Edge.tail e ∉ g.vertices

/-- The other graph has the vertex or the edge in addition, and else the same vertices and edges. -/
def Gains (g : Digraph V E) (x : Insertion V E) (g' : Digraph V E) : Prop :=
  match x with
  | .vertex v => g'.vertices = g.vertices.insert (Vertex.index v) v ∧ g'.edges = g.edges
  | .edge e =>
    g'.vertices = g.vertices ∧ g'.edges = g.edges.insert (Edge.head e, Edge.tail e) e

/-- **All that a call can do.**  It fails and leaves the graph alone, or it puts in what it is to put
in and leaves the graph consistent. -/
theorem Consistent.after_cases (h : g.Consistent) (x : Insertion V E) :
    (g.Refuses x ∧ ∃ e, g.after x = (.error e, g)) ∨
      (¬ g.Refuses x ∧ ∃ g', g.after x = (.ok (), g') ∧ g'.Consistent ∧ g.Gains x g') := by
  cases x with
  | vertex v =>
    rw [after_vertex]
    by_cases hv : Vertex.index v ∈ g.vertices
    · refine .inl ⟨hv, .duplicateVertex, ?_⟩
      rw [Digraph.insertVertex, if_pos hv]
      rfl
    · obtain ⟨g', hg', hconsistent, hgains⟩ := h.insertVertex hv
      refine .inr ⟨hv, g', ?_, hconsistent, hgains⟩
      rw [hg']
      rfl
  | edge e =>
    rw [after_edge]
    by_cases he : g.Refuses (.edge e)
    · refine .inl ⟨he, ?_⟩
      rw [Digraph.insertEdge]
      split
      · exact ⟨_, rfl⟩
      · next hnew =>
        split
        · exact ⟨_, rfl⟩
        · next hhead =>
          -- Two of the three reasons are ruled out, so the third check fails.
          rw [if_pos ((he.resolve_left hnew).resolve_left hhead)]
          exact ⟨_, rfl⟩
    · refine .inr ⟨he, ?_⟩
      obtain ⟨hnew, hhead, htail⟩ : _ ∉ g.edges ∧ _ ∈ g.vertices ∧ _ ∈ g.vertices := by
        simpa only [Refuses, not_or, not_not] using he
      obtain ⟨g', hg', hconsistent, hgains⟩ := h.insertEdge hnew hhead htail
      refine ⟨g', ?_, hconsistent, hgains⟩
      rw [hg']
      rfl

theorem Consistent.after (h : g.Consistent) (x : Insertion V E) : (g.after x).2.Consistent := by
  obtain ⟨-, e, hx⟩ | ⟨-, g', hx, hconsistent, -⟩ := h.after_cases x
  · rw [hx]
    exact h
  · rw [hx]
    exact hconsistent

theorem Consistent.exists_error_iff (h : g.Consistent) (x : Insertion V E) :
    (∃ e, (g.after x).1 = .error e) ↔ g.Refuses x := by
  obtain ⟨hrefuses, e, hx⟩ | ⟨hrefuses, g', hx, -⟩ := h.after_cases x
  · rw [hx]
    exact iff_of_true ⟨e, rfl⟩ hrefuses
  · rw [hx]
    exact iff_of_false nofun hrefuses

theorem Consistent.after_of_error (h : g.Consistent) {x : Insertion V E} {e : Error}
    (hx : (g.after x).1 = .error e) : (g.after x).2 = g := by
  obtain ⟨-, e', hx'⟩ | ⟨-, g', hx', -⟩ := h.after_cases x
  · rw [hx']
  · rw [hx'] at hx
    cases hx

theorem Consistent.gains_of_ok (h : g.Consistent) {x : Insertion V E}
    (hx : (g.after x).1 = .ok ()) : g.Gains x (g.after x).2 := by
  obtain ⟨-, e, hx'⟩ | ⟨-, g', hx', -, hgains⟩ := h.after_cases x
  · rw [hx'] at hx
    cases hx
  · rw [hx']
    exact hgains

/-! ## Many calls -/

/-- **Calls keep a graph consistent**, also those that fail. -/
theorem Consistent.foldl_after (h : g.Consistent) (xs : List (Insertion V E)) :
    (xs.foldl (fun g x ↦ (g.after x).2) g).Consistent := by
  induction xs generalizing g with
  | nil => exact h
  | cons x xs ih => exact ih (h.after x)

theorem consistent_grown (xs : List (Insertion V E)) : (grown xs).Consistent :=
  consistent_empty.foldl_after xs

end Calls

/-! ## Queries -/

/-- One value for each index with some property, namely what is kept under that index, in the order
of the indices. -/
structure ListsKept {α : Type} (index : α → Nat) (kept : Nat → Option α) (p : Nat → Prop)
    (as : List α) : Prop where
  /-- The indices ascend, so none comes twice. -/
  ascending : (as.map index).Pairwise (· < ·)
  /-- They are those with the property. -/
  mem_iff : ∀ j, j ∈ as.map index ↔ p j
  /-- The values are what is kept. -/
  kept_eq : ∀ a ∈ as, kept (index a) = some a

section Queries

variable {α : Type} {index : α → Nat} {kept : Nat → Option α} {p : Nat → Prop}

/-- A walk over a set finds something for every member, if each has something kept under it. -/
theorem listsKept_filterMap {s : ExtTreeSet Nat} (hs : ∀ j, j ∈ s ↔ p j)
    (hkept : ∀ j, p j → ∃ a, kept j = some a ∧ index a = j) :
    ListsKept index kept p (s.toList.filterMap kept) := by
  have hfound : ∀ j ∈ s.toList, (kept j).map index = some j := by
    intro j hj
    obtain ⟨a, ha, hindex⟩ := hkept j ((hs j).mp (ExtTreeSet.mem_toList.mp hj))
    rw [ha, Option.map_some, hindex]
  -- Nothing is passed over: the indices of what was found are the members of the set.
  have hindices : (s.toList.filterMap kept).map index = s.toList := by
    rw [List.map_filterMap, List.filterMap_congr hfound, List.filterMap_some]
  constructor
  case ascending =>
    rw [hindices]
    exact s.ordered_toList.imp Nat.compare_eq_lt.mp
  case mem_iff =>
    intro j
    rw [hindices, ExtTreeSet.mem_toList, hs]
  case kept_eq =>
    intro a ha
    obtain ⟨j, hj, hja⟩ := List.mem_filterMap.mp ha
    have hindex := hfound j hj
    rw [hja, Option.map_some, Option.some_inj] at hindex
    rw [hindex, hja]

theorem exists_listsKept {m : ExtTreeMap Nat (ExtTreeSet Nat)} {i : Nat} (hi : i ∈ m)
    (hm : ∀ j, j ∈ m.getD i ∅ ↔ p j) (hkept : ∀ j, p j → ∃ a, kept j = some a ∧ index a = j) :
    ∃ as, ((neighbours m i).map fun js ↦ js.filterMap kept) = .ok as ∧
      ListsKept index kept p as := by
  rw [neighbours_of_mem hi]
  exact ⟨_, rfl, listsKept_filterMap hm hkept⟩

end Queries

variable {V E : Type} [Vertex V] [Edge E] {g : Digraph V E}

theorem Consistent.exists_vertex (h : g.Consistent) {i : Nat} (hi : i ∈ g.vertices) :
    ∃ v, g.vertices[i]? = some v ∧ Vertex.index v = i :=
  ⟨_, ExtTreeMap.getElem?_eq_some_getElem hi,
    h.index_eq i _ (ExtTreeMap.getElem?_eq_some_getElem hi)⟩

theorem Consistent.exists_edge (h : g.Consistent) {i j : Nat} (hij : (i, j) ∈ g.edges) :
    ∃ e, g.edges[(i, j)]? = some e ∧ Edge.head e = i ∧ Edge.tail e = j :=
  ⟨_, ExtTreeMap.getElem?_eq_some_getElem hij,
    h.ends_eq i j _ (ExtTreeMap.getElem?_eq_some_getElem hij)⟩

/-- **The maps of a graph that was grown agree**, whatever the calls were and whether they failed.
The next call fails exactly if the index is taken, or the ends of an edge are taken or one of them
is missing; then it leaves the graph as it was, and otherwise it adds what it was given.  And the
neighbours and edges of a vertex are listed in ascending order, with none left out. -/
theorem grown_agrees (xs : List (Insertion V E)) :
    let g := grown xs
    g.Consistent ∧
      (∀ x, ((∃ e, (g.after x).1 = .error e) ↔ g.Refuses x) ∧
        (∀ e, (g.after x).1 = .error e → (g.after x).2 = g) ∧
        ((g.after x).1 = .ok () → g.Gains x (g.after x).2)) ∧
      ∀ i ∈ g.vertices,
        (∃ vs, g.successorsOf i = .ok vs ∧
          ListsKept Vertex.index (fun j ↦ g.vertices[j]?) (fun j ↦ (i, j) ∈ g.edges) vs) ∧
        (∃ vs, g.predecessorsOf i = .ok vs ∧
          ListsKept Vertex.index (fun j ↦ g.vertices[j]?) (fun j ↦ (j, i) ∈ g.edges) vs) ∧
        (∃ es, g.edgesOut i = .ok es ∧
          ListsKept Edge.tail (fun j ↦ g.edges[(i, j)]?) (fun j ↦ (i, j) ∈ g.edges) es) ∧
        ∃ es, g.edgesIn i = .ok es ∧
          ListsKept Edge.head (fun j ↦ g.edges[(j, i)]?) (fun j ↦ (j, i) ∈ g.edges) es := by
  intro g
  have h : g.Consistent := consistent_grown xs
  refine ⟨h, fun x ↦ ⟨h.exists_error_iff x, fun e ↦ h.after_of_error, h.gains_of_ok⟩, ?_⟩
  intro i hi
  have hsuccessors : i ∈ g.successors := (h.mem_successors i).mpr hi
  have hpredecessors : i ∈ g.predecessors := (h.mem_predecessors i).mpr hi
  refine ⟨exists_listsKept hsuccessors (h.successor_iff i) ?_,
    exists_listsKept hpredecessors (fun j ↦ h.predecessor_iff j i) ?_,
    exists_listsKept hsuccessors (h.successor_iff i) ?_,
    exists_listsKept hpredecessors (fun j ↦ h.predecessor_iff j i) ?_⟩
  · exact fun j hij ↦ h.exists_vertex (h.ends_mem i j hij).2
  · exact fun j hji ↦ h.exists_vertex (h.ends_mem j i hji).1
  · intro j hij
    obtain ⟨e, he, -, htail⟩ := h.exists_edge hij
    exact ⟨e, he, htail⟩
  · intro j hji
    obtain ⟨e, he, hhead, -⟩ := h.exists_edge hji
    exact ⟨e, he, hhead⟩

end PointsTo.Digraph
