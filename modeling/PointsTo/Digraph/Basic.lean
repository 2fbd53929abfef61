import PointsTo.Error
import Std.Data.ExtTreeSet

/-!
# Directed graphs

A graph on vertices that know their own index and edges that know the indices of their ends.  Beside
the vertices and edges it keeps, for each index, the indices that edges lead to and come from, so
that neighbours are found without a search.

The four maps say the same thing as long as a graph is built by `insertVertex` and `insertEdge`.  A
graph that was read from elsewhere need not be of that kind, and the queries answer from the map
that each of them is about.
-/

set_option autoImplicit false

namespace PointsTo

open Std

/-- What a graph has to know of its vertices, and how they are drawn. -/
class Vertex (V : Type) where
  /-- The index of a vertex. -/
  index : V → Nat
  /-- The text in a vertex. -/
  label : V → String
  /-- The colour of a vertex. -/
  fill : V → String := fun _ ↦ "#ffddcc"
  /-- The colour of its text. -/
  font : V → String := fun _ ↦ "#000000"

/-- What a graph has to know of its edges, and how they are drawn. -/
class Edge (E : Type) where
  /-- The index of the vertex that an edge leaves. -/
  head : E → Nat
  /-- The index of the vertex that an edge enters. -/
  tail : E → Nat
  /-- The text at an edge. -/
  label : E → String
  /-- The kind of line of an edge. -/
  style : E → String := fun _ ↦ "solid"

/-- Pairs of indices are ordered by the first, then by the second. -/
abbrev endsOrder : Nat × Nat → Nat × Nat → Ordering := lexOrd.compare

/-- A directed graph. -/
structure Digraph (V E : Type) where
  /-- The vertices by index. -/
  vertices : ExtTreeMap Nat V := ∅
  /-- The edges by the indices of their ends. -/
  edges : ExtTreeMap (Nat × Nat) E endsOrder := ∅
  /-- The indices that edges from an index lead to. -/
  successors : ExtTreeMap Nat (ExtTreeSet Nat) := ∅
  /-- The indices that edges to an index come from. -/
  predecessors : ExtTreeMap Nat (ExtTreeSet Nat) := ∅
deriving DecidableEq

namespace Digraph

variable {V E : Type}

/-- The graph without vertices. -/
def empty : Digraph V E := {}

/-! ## Insertion -/

/-- The map with one more member in the set at an index. -/
def link (m : ExtTreeMap Nat (ExtTreeSet Nat)) (i j : Nat) : ExtTreeMap Nat (ExtTreeSet Nat) :=
  m.insert i ((m.getD i ∅).insert j)

/-- The graph with one more vertex, which has no neighbours. -/
def insertVertex [Vertex V] (g : Digraph V E) (v : V) : Except Error (Digraph V E) :=
  let i := Vertex.index v
  if i ∈ g.vertices then .error .duplicateVertex
  else .ok
    { g with
      vertices := g.vertices.insert i v
      successors := g.successors.insert i ∅
      predecessors := g.predecessors.insert i ∅ }

/-- The graph with one more edge between two of its vertices. -/
def insertEdge [Edge E] (g : Digraph V E) (e : E) : Except Error (Digraph V E) :=
  let head := Edge.head e
  let tail := Edge.tail e
  if (head, tail) ∈ g.edges then .error .duplicateEdge
  else if head ∉ g.vertices then .error (.vertexNotFound head)
  else if tail ∉ g.vertices then .error (.vertexNotFound tail)
  else .ok
    { g with
      edges := g.edges.insert (head, tail) e
      successors := link g.successors head tail
      predecessors := link g.predecessors tail head }

/-! ## Queries -/

/-- How many vertices there are. -/
def vertexCount (g : Digraph V E) : Nat := g.vertices.size

/-- How many edges there are. -/
def edgeCount (g : Digraph V E) : Nat := g.edges.size

/-- Whether there is a vertex of that index. -/
def hasVertex (g : Digraph V E) (i : Nat) : Bool := g.vertices.contains i

/-- Whether there is an edge between these indices. -/
def hasEdge (g : Digraph V E) (head tail : Nat) : Bool := g.edges.contains (head, tail)

/-- The vertex of that index. -/
def vertex (g : Digraph V E) (i : Nat) : Except Error V :=
  match g.vertices[i]? with
  | some v => .ok v
  | none => .error (.vertexNotFound i)

/-- The edge between these indices. -/
def edge (g : Digraph V E) (head tail : Nat) : Except Error E :=
  match g.edges[(head, tail)]? with
  | some e => .ok e
  | none => .error (.edgeNotFound head tail)

/-- The vertices in the order of their indices. -/
def vertexList (g : Digraph V E) : List V := g.vertices.toList.map Prod.snd

/-- The edges in the order of their ends. -/
def edgeList (g : Digraph V E) : List E := g.edges.toList.map Prod.snd

/-- The indices listed at an index. -/
def neighbours (m : ExtTreeMap Nat (ExtTreeSet Nat)) (i : Nat) : Except Error (List Nat) :=
  match m[i]? with
  | some s => .ok s.toList
  | none => .error (.vertexNotFound i)

/-- The vertices that edges from that index lead to. -/
def successorsOf (g : Digraph V E) (i : Nat) : Except Error (List V) :=
  (neighbours g.successors i).map fun js ↦ js.filterMap fun j ↦ g.vertices[j]?

/-- The vertices that edges to that index come from. -/
def predecessorsOf (g : Digraph V E) (i : Nat) : Except Error (List V) :=
  (neighbours g.predecessors i).map fun js ↦ js.filterMap fun j ↦ g.vertices[j]?

/-- The edges that leave that index. -/
def edgesOut (g : Digraph V E) (i : Nat) : Except Error (List E) :=
  (neighbours g.successors i).map fun js ↦ js.filterMap fun j ↦ g.edges[(i, j)]?

/-- The edges that enter that index. -/
def edgesIn (g : Digraph V E) (i : Nat) : Except Error (List E) :=
  (neighbours g.predecessors i).map fun js ↦ js.filterMap fun j ↦ g.edges[(j, i)]?

end Digraph

end PointsTo
