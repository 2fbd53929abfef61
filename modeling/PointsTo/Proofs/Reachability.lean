import Mathlib.Logic.Function.Iterate
import PointsTo.Proofs.GrownGraphs

/-!
# What the search of a grown graph returns, and when it ends

`Digraph.mem_search_singleton` says what a search marks.  This file is about its turns.  A turn
takes one index off the queue and marks the successors of it that were not marked, which go on the
queue.  So marks and queue grow by the same number, and one index leaves the queue: the turns done
and the indices in the queue are together as many as the marks.  When the queue is empty, there was
one turn for each index that is marked (`Digraph.exists_iterate_turn`).

In a consistent graph the successors are where edges lead, and edges have vertices for ends.  So a
search from a vertex stays among the vertices, cycles or not, and ends after as many turns at most
as there are vertices.
-/

set_option autoImplicit false

namespace PointsTo.Digraph

open Std Relation

/-! ## Turns -/

section Turns

variable {V E : Type} {g : Digraph V E} {seen : ExtTreeSet Nat} {queue : List Nat} {i : Nat}

/-- One turn of the search on the marked indices and the queue, which does nothing if the queue is
empty. -/
def turn (g : Digraph V E) : ExtTreeSet Nat × List Nat → ExtTreeSet Nat × List Nat
  | (seen, []) => (seen, [])
  | (seen, i :: queue) => (seen.insertMany (g.fresh seen i), g.fresh seen i ++ queue)

/-- What is marked in a turn was not marked before, and comes once. -/
theorem size_insertMany_fresh :
    (seen.insertMany (g.fresh seen i)).size = seen.size + (g.fresh seen i).length := by
  refine ExtTreeSet.size_insertMany_list ?_ ?_
  · have hnodup : (g.fresh seen i).Nodup := (nodup_toList _).filter _
    exact hnodup.imp fun hne heq ↦ hne (Std.compare_eq_iff_eq.mp heq)
  · intro j hj
    rw [Bool.eq_false_iff, Ne, List.contains_iff_mem, mem_fresh]
    exact fun hfresh ↦ hfresh.2 hj

/-- **The search ends with an empty queue**, after as many turns as marks were added and indices
were waiting. -/
theorem exists_iterate_turn (g : Digraph V E) (seen : ExtTreeSet Nat) (queue : List Nat) :
    ∃ n, n + seen.size = (g.search seen queue).size + queue.length ∧
      g.turn^[n] (seen, queue) = (g.search seen queue, []) := by
  fun_induction search g seen queue with
  | case1 seen => exact ⟨0, by simp, rfl⟩
  | case2 seen i queue ih =>
    obtain ⟨n, hn, hturns⟩ := ih
    rw [size_insertMany_fresh, List.length_append] at hn
    refine ⟨n + 1, ?_, ?_⟩
    · rw [List.length_cons]
      omega
    · rw [Function.iterate_succ_apply]
      exact hturns

theorem iterate_turn_singleton (g : Digraph V E) (i : Nat) :
    g.turn^[(g.search (ExtTreeSet.ofList [i]) [i]).size] (ExtTreeSet.ofList [i], [i]) =
      (g.search (ExtTreeSet.ofList [i]) [i], []) := by
  obtain ⟨n, hn, hturns⟩ := g.exists_iterate_turn (ExtTreeSet.ofList [i]) [i]
  have hsize : (ExtTreeSet.ofList [i] : ExtTreeSet Nat).size = 1 :=
    ExtTreeSet.size_ofList (List.pairwise_singleton _ _)
  rw [hsize, List.length_singleton, Nat.add_right_cancel_iff] at hn
  rwa [hn] at hturns

theorem size_le_vertexCount {r : ExtTreeSet Nat} (h : ∀ j ∈ r, j ∈ g.vertices) :
    r.size ≤ g.vertexCount := by
  rw [vertexCount, ← ExtTreeSet.length_toList, ← ExtTreeMap.length_keys]
  refine (nodup_toList r).length_le_of_subset fun j hj ↦ ?_
  exact ExtTreeMap.mem_keys.mpr (h j (ExtTreeSet.mem_toList.mp hj))

end Turns

/-! ## Paths along edges -/

variable {V E : Type} [Vertex V] [Edge E] {g : Digraph V E} {i j : Nat}

theorem Consistent.reaches_iff (h : g.Consistent) :
    ReflTransGen g.Leads i j ↔ ReflTransGen (fun a b ↦ g.hasEdge a b = true) i j := by
  have hsteps : g.Leads = fun a b ↦ g.hasEdge a b = true := by
    funext a b
    rw [h.leads_iff, ← hasEdge_iff]
  rw [hsteps]

/-- **A path from a vertex stays among the vertices.** -/
theorem Consistent.mem_vertices_of_reaches (h : g.Consistent) (hi : i ∈ g.vertices)
    (hij : ReflTransGen g.Leads i j) : j ∈ g.vertices := by
  induction hij with
  | refl => exact hi
  | tail _ hjk _ => exact (h.ends_mem _ _ (h.leads_iff.mp hjk)).2

/-- **What can be reached in a graph that was grown.**  For an index without a vertex the search
reports just that.  From a vertex it returns the indices at the end of a path of any length, zero
included, along edges of the graph.  These are vertices, and the search takes one turn for each. -/
theorem grown_reachable (xs : List (Insertion V E)) (i : Nat) :
    let g := grown xs
    (g.reachable i = .error (.vertexNotFound i) ↔ i ∉ g.vertices) ∧
      (i ∈ g.vertices → ∃ r, g.reachable i = .ok r ∧
        (∀ j, j ∈ r ↔ ReflTransGen (fun a b ↦ g.hasEdge a b = true) i j) ∧
        (∀ j ∈ r, j ∈ g.vertices) ∧
        r.size ≤ g.vertexCount ∧
        g.turn^[r.size] (ExtTreeSet.ofList [i], [i]) = (r, [])) := by
  intro g
  have h : g.Consistent := consistent_grown xs
  rw [reachable]
  by_cases hi : i ∈ g.vertices
  · rw [if_pos hi]
    have hvertices : ∀ j ∈ g.search (ExtTreeSet.ofList [i]) [i], j ∈ g.vertices :=
      fun j hj ↦ h.mem_vertices_of_reaches hi (mem_search_singleton.mp hj)
    refine ⟨iff_of_false ?_ (not_not_intro hi), fun _ ↦ ⟨_, rfl, ?_, hvertices, ?_, ?_⟩⟩
    · intro heq
      cases heq
    · intro j
      rw [mem_search_singleton, h.reaches_iff]
    · exact size_le_vertexCount hvertices
    · exact g.iterate_turn_singleton i
  · rw [if_neg hi]
    exact ⟨iff_of_true rfl hi, fun hmem ↦ absurd hmem hi⟩

end PointsTo.Digraph
