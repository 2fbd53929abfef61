import PointsTo.Error

/-!
# Names of variables

A name is a nonempty run of ASCII letters, digits and underscores that does not start with a digit.
The keyword of the allocation instruction is not a name: `x = alloca` always allocates.

Instructions carry their names as plain strings, checked or not; `Name.isValid` is the check.
-/

set_option autoImplicit false

namespace PointsTo.Name

/-- The word on the right of an allocation, which no variable may have as its name. -/
def keyword : String := "alloca"

/-- A name starts with a letter or an underscore. -/
def isStart (c : Char) : Bool := c.isAlpha || c == '_'

/-- A name goes on with letters, digits and underscores. -/
def isRest (c : Char) : Bool := c.isAlphanum || c == '_'

/-- Whether a string can be the name of a variable. -/
def isValid (name : String) : Bool :=
  match name.toList with
  | [] => false
  | c :: cs => isStart c && cs.all isRest && name != keyword

/-- The name itself if it is valid. -/
def check (name : String) : Except Error String :=
  if isValid name then .ok name else .error (.invalidName name)

end PointsTo.Name
