import PointsTo.Inclusion.Basic
import PointsTo.Json.Decode
import PointsTo.Json.Writer

/-!
# Storage and inclusions in JSON

A location is a record of its number, storage is tagged by what it is, and an inclusion is a record
of its two sides.
-/

set_option autoImplicit false

namespace PointsTo

/-- The JSON form of a location. -/
def Location.toJson (l : Location) : Json := .record [("index", .nat l.index)]

/-- The location that a JSON value describes. -/
def Location.ofJson? (v : Json) : Option Location :=
  match v.toRecord ["index"] with
  | some [i] => i.toIndex.map Location.mk
  | _ => none

/-- The JSON form of storage. -/
def Storage.toJson : Storage → Json
  | .var name => .tagged "Variable" (.text name)
  | .loc place => .tagged "Location" place.toJson

/-- The storage that a JSON value describes. -/
def Storage.ofJson? (v : Json) : Option Storage :=
  match v.toTagged with
  | some ("Variable", v) => v.toText.map Storage.var
  | some ("Location", v) => (Location.ofJson? v).map Storage.loc
  | _ => none

/-- The JSON form of an inclusion. -/
def Inclusion.toJson (i : Inclusion) : Json :=
  .record [("dst", i.dst.toJson), ("src", i.src.toJson)]

/-- The inclusion that a JSON value describes. -/
def Inclusion.ofJson? (v : Json) : Option Inclusion :=
  match v.toRecord ["dst", "src"] with
  | some [dst, src] => do return ⟨← Storage.ofJson? dst, ← Storage.ofJson? src⟩
  | _ => none

end PointsTo
