import PointsTo.Environment.Basic
import PointsTo.Json.Writer

/-!
# Writing environments

As text, an environment has one line for each entry, in order.  As JSON, it is an object that maps
the written form of storage to those of its locations, in the order of these written forms.  A
variable may be named like a location; then the two share a key, and the location has it.
-/

set_option autoImplicit false

namespace PointsTo.Environment

open Std

/-- The text of an environment. -/
def render (e : Environment) : String :=
  String.join (e.entries.map fun entry ↦ entry.1.render ++ " -> " ++ entry.2.render ++ "\n")

/-- The written form of each entry.  Of two that are written alike the later one stays, and
locations come after variables. -/
def written (e : Environment) : ExtTreeMap String (List String) :=
  ExtTreeMap.ofList (e.entries.map fun entry ↦
    (entry.1.render, entry.2.toList.map Location.render))

/-- The JSON form of an environment. -/
def toJson (e : Environment) : Json :=
  .record (e.written.toList.map fun entry ↦ (entry.1, .array (entry.2.map Json.text)))

end PointsTo.Environment
