/-!
# Comparing in a partial order

The outcome of a comparison is an `Ordering`, or nothing if neither side is below the other.  Two
outcomes about parts combine into one about the whole: equal parts do not count, and the others have
to agree.
-/

set_option autoImplicit false

namespace PointsTo

/-- The outcome of a comparison; `none` if the two sides cannot be compared. -/
abbrev Comparison := Option Ordering

namespace Comparison

/-- The outcome for a whole, from the outcomes for two parts. -/
def both : Comparison → Comparison → Comparison
  | none, _ => none
  | _, none => none
  | some .eq, some b => some b
  | some a, some .eq => some a
  | some a, some b => if a = b then some a else none

/-- The left side is strictly below the right one. -/
def isLT (c : Comparison) : Bool := c == some .lt

/-- The left side is below the right one, or the two are equal. -/
def isLE (c : Comparison) : Bool := c == some .lt || c == some .eq

/-- The left side is strictly above the right one. -/
def isGT (c : Comparison) : Bool := c == some .gt

/-- The left side is above the right one, or the two are equal. -/
def isGE (c : Comparison) : Bool := c == some .gt || c == some .eq

/-- The two sides are equal. -/
def isEQ (c : Comparison) : Bool := c == some .eq

end Comparison

end PointsTo
