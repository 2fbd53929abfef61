import Mathlib.Logic.Relation
import PointsTo.Digraph.Reach

/-!
# Consistent graphs, and what a search of one finds

A graph says twice which edges it has: once in the map of edges and once, split in two, in the sets
of neighbours.  `Digraph.Consistent` is the agreement between them.  The empty graph has it, and
both insertions keep it.

The search marks an index when it enters the queue and looks at its successors when it leaves.  Two
facts about its turns give its answer.  Whatever is marked is reached from the queue
(`Digraph.mem_or_reaches_of_mem_search`), and a marked index that is not in the queue has all its
successors marked (`Digraph.mem_search_of_leads`), so at the end, when the queue is empty, the
marked indices are closed under successors.
-/

set_option autoImplicit false

namespace PointsTo.Digraph

open Std Relation

variable {V E : Type}

/-! ## Consistency -/

/-- The four maps of a graph say the same thing. -/
structure Consistent [Vertex V] [Edge E] (g : Digraph V E) : Prop where
  /-- A vertex is kept under its own index. -/
  index_eq : ∀ i v, g.vertices[i]? = some v → Vertex.index v = i
  /-- An edge is kept under its own ends. -/
  ends_eq : ∀ i j e, g.edges[(i, j)]? = some e → Edge.head e = i ∧ Edge.tail e = j
  /-- An edge has both its ends in the graph. -/
  ends_mem : ∀ i j, (i, j) ∈ g.edges → i ∈ g.vertices ∧ j ∈ g.vertices
  /-- The vertices are what has a set of successors. -/
  mem_successors : ∀ i, i ∈ g.successors ↔ i ∈ g.vertices
  /-- The vertices are what has a set of predecessors. -/
  mem_predecessors : ∀ i, i ∈ g.predecessors ↔ i ∈ g.vertices
  /-- The successors are where edges lead. -/
  successor_iff : ∀ i j, j ∈ g.successors.getD i ∅ ↔ (i, j) ∈ g.edges
  /-- The predecessors are where edges come from. -/
  predecessor_iff : ∀ i j, i ∈ g.predecessors.getD j ∅ ↔ (i, j) ∈ g.edges

theorem endsOrder_eq_iff {a b : Nat × Nat} : endsOrder a b = .eq ↔ a = b :=
  LawfulEqCmp.compare_eq_iff_eq

theorem hasEdge_iff {g : Digraph V E} {i j : Nat} : g.hasEdge i j = true ↔ (i, j) ∈ g.edges :=
  ExtTreeMap.contains_iff_mem

theorem neighbours_of_mem {m : ExtTreeMap Nat (ExtTreeSet Nat)} {i : Nat} (h : i ∈ m) :
    neighbours m i = .ok (m.getD i ∅).toList := by
  rw [neighbours, ExtTreeMap.getD_eq_getD_getElem?, ExtTreeMap.getElem?_eq_some_getElem h]
  rfl

theorem mem_link {m : ExtTreeMap Nat (ExtTreeSet Nat)} {i j k : Nat} :
    k ∈ link m i j ↔ k = i ∨ k ∈ m := by
  rw [link, ExtTreeMap.mem_insert, Std.compare_eq_iff_eq, eq_comm]

theorem mem_getD_link {m : ExtTreeMap Nat (ExtTreeSet Nat)} {i j k l : Nat} :
    l ∈ (link m i j).getD k ∅ ↔ (k = i ∧ l = j) ∨ l ∈ m.getD k ∅ := by
  rw [link, ExtTreeMap.getD_insert]
  by_cases h : k = i
  · rw [if_pos (Std.compare_eq_iff_eq.mpr h.symm), ExtTreeSet.mem_insert, Std.compare_eq_iff_eq, h,
      eq_comm]
    simp only [true_and]
  · rw [if_neg fun hc ↦ h (Std.compare_eq_iff_eq.mp hc).symm]
    simp only [h, false_and, false_or]

theorem mem_getD_insert_empty {m : ExtTreeMap Nat (ExtTreeSet Nat)} {i k l : Nat} :
    l ∈ (m.insert i ∅).getD k ∅ ↔ k ≠ i ∧ l ∈ m.getD k ∅ := by
  rw [ExtTreeMap.getD_insert]
  by_cases h : k = i
  · rw [if_pos (Std.compare_eq_iff_eq.mpr h.symm)]
    exact iff_of_false ExtTreeSet.not_mem_empty fun hne ↦ hne.1 h
  · rw [if_neg fun hc ↦ h (Std.compare_eq_iff_eq.mp hc).symm]
    simp only [ne_eq, h, not_false_eq_true, true_and]

section Insertion

variable [Vertex V] [Edge E] {g : Digraph V E}

theorem consistent_empty : (empty : Digraph V E).Consistent := by
  constructor <;> simp [empty]

/-- **A new vertex keeps a graph consistent.**  No edge had the new index for an end, so its sets of
neighbours are rightly empty. -/
theorem Consistent.insertVertex (h : g.Consistent) {v : V} (hv : Vertex.index v ∉ g.vertices) :
    ∃ g', g.insertVertex v = .ok g' ∧ g'.Consistent ∧
      g'.vertices = g.vertices.insert (Vertex.index v) v ∧ g'.edges = g.edges := by
  rw [Digraph.insertVertex, if_neg hv]
  refine ⟨_, rfl, ?_, rfl, rfl⟩
  constructor
  case index_eq =>
    intro i w hw
    rw [ExtTreeMap.getElem?_insert] at hw
    split at hw
    · next hi => cases hw; exact Std.compare_eq_iff_eq.mp hi
    · exact h.index_eq i w hw
  case ends_eq => exact h.ends_eq
  case ends_mem =>
    intro i j hij
    have := h.ends_mem i j hij
    exact ⟨ExtTreeMap.mem_insert.mpr (.inr this.1), ExtTreeMap.mem_insert.mpr (.inr this.2)⟩
  case mem_successors =>
    intro i
    rw [ExtTreeMap.mem_insert, ExtTreeMap.mem_insert, h.mem_successors]
  case mem_predecessors =>
    intro i
    rw [ExtTreeMap.mem_insert, ExtTreeMap.mem_insert, h.mem_predecessors]
  case successor_iff =>
    intro i j
    have hne : (i, j) ∈ g.edges → i ≠ Vertex.index v :=
      fun hij hi ↦ hv (hi ▸ (h.ends_mem i j hij).1)
    rw [mem_getD_insert_empty, h.successor_iff]
    exact ⟨And.right, fun hij ↦ ⟨hne hij, hij⟩⟩
  case predecessor_iff =>
    intro i j
    have hne : (i, j) ∈ g.edges → j ≠ Vertex.index v :=
      fun hij hj ↦ hv (hj ▸ (h.ends_mem i j hij).2)
    rw [mem_getD_insert_empty, h.predecessor_iff]
    exact ⟨And.right, fun hij ↦ ⟨hne hij, hij⟩⟩

/-- **A new edge keeps a graph consistent.** -/
theorem Consistent.insertEdge (h : g.Consistent) {e : E}
    (he : (Edge.head e, Edge.tail e) ∉ g.edges) (hhead : Edge.head e ∈ g.vertices)
    (htail : Edge.tail e ∈ g.vertices) :
    ∃ g', g.insertEdge e = .ok g' ∧ g'.Consistent ∧ g'.vertices = g.vertices ∧
      g'.edges = g.edges.insert (Edge.head e, Edge.tail e) e := by
  rw [Digraph.insertEdge, if_neg he, if_neg (not_not_intro hhead),
    if_neg (not_not_intro htail)]
  refine ⟨_, rfl, ?_, rfl, rfl⟩
  constructor
  case index_eq => exact h.index_eq
  case ends_eq =>
    intro i j e' he'
    rw [ExtTreeMap.getElem?_insert] at he'
    split at he'
    · next hends => cases he'; exact Prod.mk.inj (endsOrder_eq_iff.mp hends)
    · exact h.ends_eq i j e' he'
  case ends_mem =>
    intro i j hij
    rw [ExtTreeMap.mem_insert, endsOrder_eq_iff, Prod.mk.injEq] at hij
    rcases hij with ⟨rfl, rfl⟩ | hij
    · exact ⟨hhead, htail⟩
    · exact h.ends_mem i j hij
  case mem_successors =>
    intro i
    rw [mem_link, h.mem_successors]
    exact ⟨fun hi ↦ hi.elim (fun hi ↦ hi ▸ hhead) id, .inr⟩
  case mem_predecessors =>
    intro i
    rw [mem_link, h.mem_predecessors]
    exact ⟨fun hi ↦ hi.elim (fun hi ↦ hi ▸ htail) id, .inr⟩
  case successor_iff =>
    intro i j
    rw [mem_getD_link, h.successor_iff, ExtTreeMap.mem_insert, endsOrder_eq_iff,
      Prod.mk.injEq, eq_comm, @eq_comm _ j]
  case predecessor_iff =>
    intro i j
    rw [mem_getD_link, h.predecessor_iff, ExtTreeMap.mem_insert, endsOrder_eq_iff,
      Prod.mk.injEq, and_comm, eq_comm, @eq_comm _ j]

end Insertion

/-! ## The search -/

/-- An edge leads from the one index to the other, as far as the sets of successors know. -/
def Leads (g : Digraph V E) (i j : Nat) : Prop := j ∈ g.next i

theorem Consistent.leads_iff [Vertex V] [Edge E] {g : Digraph V E} (h : g.Consistent) {i j : Nat} :
    g.Leads i j ↔ (i, j) ∈ g.edges := by
  rw [Leads, next, ExtTreeSet.mem_toList, h.successor_iff]

section Search

variable {g : Digraph V E} {seen : ExtTreeSet Nat} {queue : List Nat} {i j k : Nat}

theorem mem_fresh : j ∈ g.fresh seen i ↔ g.Leads i j ∧ j ∉ seen := by
  rw [fresh, List.mem_filter, Bool.not_eq_true', ← Bool.not_eq_true, ExtTreeSet.contains_iff_mem,
    Leads]

theorem mem_insertMany_fresh :
    j ∈ seen.insertMany (g.fresh seen i) ↔ j ∈ seen ∨ g.Leads i j := by
  rw [ExtTreeSet.mem_insertMany_list, List.contains_iff_mem, mem_fresh]
  by_cases h : j ∈ seen <;> simp [h]

theorem mem_search_of_mem (h : k ∈ seen) : k ∈ g.search seen queue := by
  fun_induction search g seen queue with
  | case1 seen => exact h
  | case2 seen i queue ih => exact ih (mem_insertMany_fresh.mpr (.inl h))

/-- **The search marks nothing but what can be reached from the queue.** -/
theorem mem_or_reaches_of_mem_search (h : k ∈ g.search seen queue) :
    k ∈ seen ∨ ∃ i ∈ queue, ReflTransGen g.Leads i k := by
  fun_induction search g seen queue with
  | case1 seen => exact .inl h
  | case2 seen i queue ih =>
    rcases ih h with hk | ⟨j, hj, hjk⟩
    · rcases mem_insertMany_fresh.mp hk with hk | hik
      · exact .inl hk
      · exact .inr ⟨i, List.mem_cons_self, .single hik⟩
    · rcases List.mem_append.mp hj with hj | hj
      · exact .inr ⟨i, List.mem_cons_self, .head (mem_fresh.mp hj).1 hjk⟩
      · exact .inr ⟨j, List.mem_cons_of_mem _ hj, hjk⟩

/-- **What the search marks is closed under successors.**  The invariant of its turns is that only
the indices in the queue may have successors that are not marked. -/
theorem mem_search_of_leads
    (h : ∀ i ∈ seen, i ∉ queue → ∀ j, g.Leads i j → j ∈ seen)
    (hi : i ∈ g.search seen queue) (hij : g.Leads i j) : j ∈ g.search seen queue := by
  fun_induction search g seen queue with
  | case1 seen => exact h i hi List.not_mem_nil j hij
  | case2 seen q queue ih =>
    refine ih ?_ hi
    intro k hk hqueue l hkl
    rw [List.mem_append, not_or] at hqueue
    rw [mem_insertMany_fresh]
    by_cases hkq : k = q
    · exact .inr (hkq ▸ hkl)
    · -- `k` was marked before this turn: otherwise it would be in the new queue
      have hkseen : k ∈ seen := by
        by_cases hold : k ∈ seen
        · exact hold
        · have hqk := (mem_insertMany_fresh.mp hk).resolve_left hold
          exact absurd (mem_fresh.mpr ⟨hqk, hold⟩) hqueue.1
      have hkold : k ∉ q :: queue := by
        rw [List.mem_cons, not_or]
        exact ⟨hkq, hqueue.2⟩
      exact .inl (h k hkseen hkold l hkl)

/-- **The search from one index marks what can be reached from it.** -/
theorem mem_search_singleton :
    k ∈ g.search (ExtTreeSet.ofList [i]) [i] ↔ ReflTransGen g.Leads i k := by
  have hstart : ∀ {j}, j ∈ ExtTreeSet.ofList [i] ↔ j = i := by
    intro j
    rw [ExtTreeSet.mem_ofList, List.contains_iff_mem, List.mem_singleton]
  constructor
  · intro hk
    rcases mem_or_reaches_of_mem_search hk with hk | ⟨j, hj, hjk⟩
    · rw [hstart.mp hk]
    · rwa [List.mem_singleton.mp hj] at hjk
  · intro hik
    induction hik with
    | refl => exact mem_search_of_mem (hstart.mpr rfl)
    | tail _ hjk ih =>
      refine mem_search_of_leads ?_ ih hjk
      intro j hj hqueue
      exact absurd (List.mem_singleton.mpr (hstart.mp hj)) hqueue

theorem reachable_of_mem (h : i ∈ g.vertices) :
    ∃ r, g.reachable i = .ok r ∧ ∀ j, j ∈ r ↔ ReflTransGen g.Leads i j := by
  rw [reachable, if_pos h]
  exact ⟨_, rfl, fun j ↦ mem_search_singleton⟩

end Search

end PointsTo.Digraph
