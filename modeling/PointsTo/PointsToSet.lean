import PointsTo.Comparison
import PointsTo.Storage
import Std.Data.ExtTreeSet

/-!
# Points-to sets

The set of locations that some storage may point to.  It is kept in the order of the locations,
which is the order in which it is written, and two sets with the same members are the same set.
-/

set_option autoImplicit false

namespace PointsTo

open Std

/-- A set of locations. -/
abbrev PointsToSet := ExtTreeSet Location

namespace PointsToSet

/-- Whether every member of the one set is a member of the other. -/
def isSubset (a b : PointsToSet) : Bool := a.toList.all fun l ↦ b.contains l

theorem isSubset_iff {a b : PointsToSet} : a.isSubset b = true ↔ ∀ l, l ∈ a → l ∈ b := by
  simp [isSubset]

/-- Whether the two sets have a member in common. -/
def intersects (a b : PointsToSet) : Bool := a.toList.any fun l ↦ b.contains l

theorem intersects_iff {a b : PointsToSet} : a.intersects b = true ↔ ∃ l, l ∈ a ∧ l ∈ b := by
  simp [intersects]

/-- Compares two sets by inclusion.  Their sizes decide which inclusion is worth testing. -/
def compare? (a b : PointsToSet) : Comparison :=
  match compare a.size b.size with
  | .eq => if a = b then some .eq else none
  | .lt => if a.isSubset b then some .lt else none
  | .gt => if b.isSubset a then some .gt else none

/-- The written form of a set. -/
def render (a : PointsToSet) : String :=
  "\x7b" ++ String.intercalate ", " (a.toList.map Location.render) ++ "\x7d"

end PointsToSet

end PointsTo
