import PointsTo.Digraph.Basic
import PointsTo.Json.Decode
import PointsTo.Json.Writer

/-!
# Graphs in JSON

A graph is a record of its four maps.  The keys of an object are texts; an index has a text, its
digits, but the ends of an edge are two indices and have none.  So only a graph without edges has a
JSON form.  Reading takes the maps as they are written and checks nothing between them.
-/

set_option autoImplicit false

namespace PointsTo.Digraph

open Std

variable {V E : Type}

/-- The names of the four maps, in order. -/
def fieldNames : List String := ["vertices", "edges", "successors", "predecessors"]

/-- The JSON form of an index map. -/
def indexMapToJson {α : Type} (value : α → Json) (m : ExtTreeMap Nat α) : Json :=
  .record (m.toList.map fun entry ↦ (Nat.repr entry.1, value entry.2))

/-- The JSON form of a set of indices. -/
def indicesToJson (s : ExtTreeSet Nat) : Json := .array (s.toList.map Json.nat)

/-- The JSON form of a graph, given that of its vertices. -/
def toJson (vertex : V → Json) (g : Digraph V E) : Except Error Json :=
  if g.edges.isEmpty then
    .ok (.record (fieldNames.zip
      [indexMapToJson vertex g.vertices, .record [], indexMapToJson indicesToJson g.successors,
        indexMapToJson indicesToJson g.predecessors]))
  else .error .json

/-- The index map that a JSON value describes.  Of two entries for one index the later one stays. -/
def indexMapOfJson? {α : Type} (value : Json → Option α) (v : Json) :
    Option (ExtTreeMap Nat α) := do
  let entries ← (← v.toIndexMap).mapM fun entry ↦ (value entry.2).map fun a ↦ (entry.1, a)
  return ExtTreeMap.ofList entries

/-- The set of indices that a JSON value describes. -/
def indicesOfJson? (v : Json) : Option (ExtTreeSet Nat) := do
  return ExtTreeSet.ofList (← (← v.toItems).mapM Json.toIndex)

/-- The graph that a JSON value describes, given what its vertices are. -/
def ofJson? (vertex : Json → Option V) (v : Json) : Option (Digraph V E) :=
  match v.toRecord fieldNames with
  | some [vertices, .object [], successors, predecessors] => do
    return {
      vertices := ← indexMapOfJson? vertex vertices
      successors := ← indexMapOfJson? indicesOfJson? successors
      predecessors := ← indexMapOfJson? indicesOfJson? predecessors }
  | _ => none

/-- The graph that a JSON text holds. -/
def parseJson (vertex : Json → Option V) (text : String) : Except Error (Digraph V E) :=
  match (Json.parse text).bind (ofJson? vertex) with
  | some g => .ok g
  | none => .error .json

end PointsTo.Digraph
