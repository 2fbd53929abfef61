import PointsTo.Digraph.Basic

/-!
# Growing a graph in place

A graph under construction takes calls, each of which puts in a vertex or an edge, or fails.  A call
looks at the graph first and then writes to its maps, one after the other.  After a failure
construction may go on, with whatever the call that failed has left.
-/

set_option autoImplicit false

namespace PointsTo.Digraph

open Std

variable {V E : Type}

/-- What can be put into a graph. -/
inductive Insertion (V E : Type) where
  /-- A vertex. -/
  | vertex (v : V)
  /-- An edge. -/
  | edge (e : E)

/-- A computation on the graph under construction, which is there afterwards even if the
computation fails. -/
abbrev Edit (V E : Type) := ExceptT Error (StateM (Digraph V E))

namespace Edit

/-- Puts in a vertex, which has no neighbours. -/
def addVertex [Vertex V] (v : V) : Edit V E Unit := do
  let i := Vertex.index v
  if i ∈ (← get).vertices then throw .duplicateVertex
  modify fun g ↦ { g with successors := g.successors.insert i ∅ }
  modify fun g ↦ { g with predecessors := g.predecessors.insert i ∅ }
  modify fun g ↦ { g with vertices := g.vertices.insert i v }

/-- Puts in an edge between two vertices that are there. -/
def addEdge [Edge E] (e : E) : Edit V E Unit := do
  let head := Edge.head e
  let tail := Edge.tail e
  if (head, tail) ∈ (← get).edges then throw .duplicateEdge
  if head ∉ (← get).vertices then throw (.vertexNotFound head)
  if tail ∉ (← get).vertices then throw (.vertexNotFound tail)
  modify fun g ↦ { g with successors := link g.successors head tail }
  modify fun g ↦ { g with predecessors := link g.predecessors tail head }
  modify fun g ↦ { g with edges := g.edges.insert (head, tail) e }

/-- Puts in a vertex or an edge. -/
def call [Vertex V] [Edge E] : Insertion V E → Edit V E Unit
  | .vertex v => addVertex v
  | .edge e => addEdge e

end Edit

/-- What a call returns for a graph, and the graph after the call. -/
def after [Vertex V] [Edge E] (g : Digraph V E) (x : Insertion V E) :
    Except Error Unit × Digraph V E :=
  (Edit.call x).run.run g

/-- The graph after these calls on the graph without vertices, whether they fail or not. -/
def grown [Vertex V] [Edge E] (xs : List (Insertion V E)) : Digraph V E :=
  xs.foldl (fun g x ↦ (g.after x).2) empty

end PointsTo.Digraph
