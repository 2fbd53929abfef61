import PointsTo.Digraph.Basic
import PointsTo.Distinct

/-!
# Reachability

The indices that can be reached from an index along successors are found by a search that keeps a
queue of indices to look at and the set of those seen.  An index is marked as seen when it enters
the queue, so it enters once.

Every index that is ever marked, the first one apart, is a successor of some index, and there are
finitely many of these.  Each turn takes one index off the queue and puts on it only indices that
were not seen before, so the unseen successors and the queue together get fewer.
-/

set_option autoImplicit false

namespace PointsTo.Digraph

open Std

variable {V E : Type}

/-- The indices that edges from that index lead to, none if the index is unknown. -/
def next (g : Digraph V E) (i : Nat) : List Nat := (g.successors.getD i ∅).toList

/-- All indices that some edge leads to, each once. -/
def targets (g : Digraph V E) : List Nat :=
  (g.successors.toList.flatMap fun entry ↦ entry.2.toList).eraseDups

/-- The successors of an index that were not seen. -/
def fresh (g : Digraph V E) (seen : ExtTreeSet Nat) (i : Nat) : List Nat :=
  (g.next i).filter fun j ↦ !seen.contains j

/-- The targets that were not seen. -/
def unseen (g : Digraph V E) (seen : ExtTreeSet Nat) : List Nat :=
  g.targets.filter fun j ↦ !seen.contains j

theorem mem_targets_of_mem_next {g : Digraph V E} {i j : Nat} (h : j ∈ g.next i) :
    j ∈ g.targets := by
  rw [next, ExtTreeMap.getD_eq_getD_getElem?] at h
  cases hi : g.successors[i]? with
  | none => rw [hi] at h; simp at h
  | some s =>
    rw [hi, Option.getD_some] at h
    rw [targets, List.mem_eraseDups, List.mem_flatMap]
    exact ⟨(i, s), ExtTreeMap.mem_toList_iff_getElem?_eq_some.mpr hi, h⟩

/-- What the successors of an index take from the unseen targets. -/
theorem length_fresh_add_unseen_le (g : Digraph V E) (seen : ExtTreeSet Nat) (i : Nat) :
    (g.fresh seen i).length + (g.unseen (seen.insertMany (g.fresh seen i))).length ≤
      (g.unseen seen).length := by
  rw [← List.length_append]
  refine List.Nodup.length_le_of_subset ?_ ?_
  · rw [List.nodup_append]
    refine ⟨(nodup_toList _).filter _, (nodup_eraseDups _).filter _, ?_⟩
    intro j hj k hk hjk
    rw [unseen, List.mem_filter, ← hjk, ExtTreeSet.contains_insertMany_list] at hk
    simp [hj] at hk
  · intro j hj
    rw [unseen, List.mem_filter]
    rcases List.mem_append.mp hj with hj | hj
    · rw [fresh, List.mem_filter] at hj
      exact ⟨mem_targets_of_mem_next hj.1, hj.2⟩
    · rw [unseen, List.mem_filter, ExtTreeSet.contains_insertMany_list] at hj
      exact ⟨hj.1, by simp_all⟩

/-- The indices seen at the end of the search. -/
def search (g : Digraph V E) (seen : ExtTreeSet Nat) : List Nat → ExtTreeSet Nat
  | [] => seen
  | i :: queue => g.search (seen.insertMany (g.fresh seen i)) (g.fresh seen i ++ queue)
termination_by queue => (g.unseen seen).length + queue.length
decreasing_by
  have := g.length_fresh_add_unseen_le seen i
  rw [List.length_append, List.length_cons]
  omega

/-- The indices that can be reached from that index, which is one of them. -/
def reachable (g : Digraph V E) (i : Nat) : Except Error (ExtTreeSet Nat) :=
  if i ∈ g.vertices then .ok (g.search (ExtTreeSet.ofList [i]) [i])
  else .error (.vertexNotFound i)

end PointsTo.Digraph
