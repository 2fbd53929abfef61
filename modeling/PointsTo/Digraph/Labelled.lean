import PointsTo.Digraph.Json

/-!
# Vertices and edges with labels

The plainest vertices and edges: an index or two and a label, drawn in the usual colours and lines.
Their styled kin carry colours and lines of their own.
-/

set_option autoImplicit false

namespace PointsTo.Digraph

/-- A vertex with a label. -/
structure LabelledVertex where
  /-- Its index. -/
  index : Nat
  /-- The text in it. -/
  label : String
deriving DecidableEq

/-- An edge with a label. -/
structure LabelledEdge where
  /-- The index that it leaves. -/
  head : Nat
  /-- The index that it enters. -/
  tail : Nat
  /-- The text at it. -/
  label : String
deriving DecidableEq

instance : Vertex LabelledVertex where
  index v := v.index
  label v := v.label

instance : Edge LabelledEdge where
  head e := e.head
  tail e := e.tail
  label e := e.label

/-- A vertex with a label and colours. -/
structure StyledVertex extends LabelledVertex where
  /-- Its colour. -/
  fill : String
  /-- The colour of its text. -/
  font : String
deriving DecidableEq

/-- An edge with a label and a kind of line. -/
structure StyledEdge extends LabelledEdge where
  /-- Its kind of line. -/
  style : String
deriving DecidableEq

instance : Vertex StyledVertex where
  index v := v.index
  label v := v.label
  fill v := v.fill
  font v := v.font

instance : Edge StyledEdge where
  head e := e.head
  tail e := e.tail
  label e := e.label
  style e := e.style

/-- The JSON form of a vertex with a label. -/
def LabelledVertex.toJson (v : LabelledVertex) : Json :=
  .record [("index", .nat v.index), ("label", .text v.label)]

/-- The vertex with a label that a JSON value describes. -/
def LabelledVertex.ofJson? (v : Json) : Option LabelledVertex :=
  match v.toRecord ["index", "label"] with
  | some [i, label] => do return ⟨← i.toIndex, ← label.toText⟩
  | _ => none

/-- The JSON form of a vertex with a label and colours. -/
def StyledVertex.toJson (v : StyledVertex) : Json :=
  .record [("index", .nat v.index), ("label", .text v.label), ("fill", .text v.fill),
    ("font", .text v.font)]

/-- The vertex with a label and colours that a JSON value describes. -/
def StyledVertex.ofJson? (v : Json) : Option StyledVertex :=
  match v.toRecord ["index", "label", "fill", "font"] with
  | some [i, label, fill, font] => do
    return ⟨⟨← i.toIndex, ← label.toText⟩, ← fill.toText, ← font.toText⟩
  | _ => none

end PointsTo.Digraph
