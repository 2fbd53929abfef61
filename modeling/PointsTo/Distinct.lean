import Std.Data.ExtTreeSet

/-!
# Lists without repetition

`List.eraseDups` keeps the first of each group of equal members, and the members of a set come in a
list without repetition.  Both are what counting arguments need.
-/

set_option autoImplicit false

namespace PointsTo

open Std

/-- What `eraseDups` leaves has no repetition. -/
theorem nodup_eraseDups {α : Type} [BEq α] [LawfulBEq α] : ∀ xs : List α, xs.eraseDups.Nodup
  | [] => by simp
  | x :: xs => by
    rw [List.eraseDups_cons, List.nodup_cons]
    exact ⟨by simp [List.mem_eraseDups], nodup_eraseDups _⟩
termination_by xs => xs.length
decreasing_by
  rw [List.length_cons]
  exact Nat.lt_succ_of_le (List.length_filter_le ..)

/-- One more member is kept if it is new. -/
theorem eraseDups_concat {α : Type} [BEq α] [LawfulBEq α] (xs : List α) (x : α) :
    (xs ++ [x]).eraseDups = if x ∈ xs then xs.eraseDups else xs.eraseDups ++ [x] := by
  rw [List.eraseDups_append]
  by_cases h : x ∈ xs <;> simp [List.removeAll, h, List.eraseDups_cons]

/-- A list without repetition is left as it is. -/
theorem eraseDups_of_nodup {α : Type} [BEq α] [LawfulBEq α] {xs : List α} (h : xs.Nodup) :
    xs.eraseDups = xs := by
  induction xs with
  | nil => rfl
  | cons x xs ih =>
    obtain ⟨hx, hxs⟩ := List.nodup_cons.mp h
    have hkept : xs.filter (fun y ↦ !y == x) = xs := by
      refine List.filter_eq_self.mpr fun y hy ↦ ?_
      have hne : y ≠ x := fun hyx ↦ hx (hyx ▸ hy)
      simpa using hne
    rw [List.eraseDups_cons, hkept, ih hxs]

/-- Members that come again later are erased. -/
theorem eraseDups_append_of_subset {α : Type} [BEq α] [LawfulBEq α] {xs ys : List α}
    (h : ys ⊆ xs) : (xs ++ ys).eraseDups = xs.eraseDups := by
  have hnone : ys.removeAll xs = [] := by
    refine List.filter_eq_nil_iff.mpr fun y hy ↦ ?_
    simpa using h hy
  rw [List.eraseDups_append, hnone, List.eraseDups_nil, List.append_nil]

/-- The members of a set are listed once each. -/
theorem nodup_toList {α : Type} [Ord α] [TransOrd α] (s : ExtTreeSet α) : s.toList.Nodup := by
  refine s.distinct_toList.imp ?_
  intro a b h hab
  rw [hab] at h
  exact h ReflCmp.compare_self

end PointsTo
