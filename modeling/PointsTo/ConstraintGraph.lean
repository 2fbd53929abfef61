import PointsTo.Digraph.Dot
import PointsTo.Digraph.Reach
import PointsTo.Inclusion.Basic
import PointsTo.Solver.Run

/-!
# The constraint graph

The inclusions of a program, drawn in the direction in which locations flow: from the storage that
is included to the storage that includes it.  Every entry of the environment is a vertex, in order,
and then every storage that only the inclusions mention, when it is first mentioned, source before
destination.  Vertices are numbered as they come, and two inclusions between the same storage make
one edge.

In the drawing, variables and locations differ in colour, and the line of an edge tells where its
inclusion comes from: dashed into a location, which takes a store; dotted out of a location into a
variable, which takes a load; solid between variables.
-/

set_option autoImplicit false

namespace PointsTo

open Std

/-- A vertex of the constraint graph: some storage and what it points to. -/
structure StorageVertex where
  /-- The number of the vertex. -/
  index : Nat
  /-- The storage it stands for. -/
  storage : Storage
  /-- What that points to. -/
  pointsTo : PointsToSet
deriving DecidableEq

instance : Vertex StorageVertex where
  index v := v.index
  label v := v.storage.render ++ "\n" ++ v.pointsTo.render
  fill v := match v.storage with
    | .var _ => "#ffddcc"
    | .loc _ => "#ccddff"

/-- An edge of the constraint graph: an inclusion between two numbered vertices. -/
structure InclusionEdge where
  /-- The number of the vertex for the source. -/
  head : Nat
  /-- The number of the vertex for the destination. -/
  tail : Nat
  /-- The inclusion. -/
  inclusion : Inclusion
deriving DecidableEq

instance : Edge InclusionEdge where
  head e := e.head
  tail e := e.tail
  label _ := ""
  style e := match e.inclusion.dst, e.inclusion.src with
    | .loc _, _ => "dashed"
    | .var _, .loc _ => "dotted"
    | .var _, .var _ => "solid"

/-- The flow of locations between storage. -/
structure ConstraintGraph where
  /-- The graph on numbered vertices. -/
  graph : Digraph StorageVertex InclusionEdge := .empty
  /-- The number of the vertex for each storage. -/
  indices : ExtTreeMap Storage Nat := ∅
deriving DecidableEq

namespace ConstraintGraph

/-! ## Construction -/

/-- The graph with a vertex for some storage, and the number of that vertex. -/
def addVertex (e : Environment) (g : ConstraintGraph) (s : Storage) :
    Except Error (ConstraintGraph × Nat) :=
  match g.indices[s]? with
  | some i => .ok (g, i)
  | none => do
    let i := g.indices.size
    let graph ← g.graph.insertVertex ⟨i, s, e.pointsTo s⟩
    return (⟨graph, g.indices.insert s i⟩, i)

/-- The graph with an edge for an inclusion, and with vertices for its two sides. -/
def addInclusion (e : Environment) (g : ConstraintGraph) (i : Inclusion) :
    Except Error ConstraintGraph := do
  let (g, head) ← addVertex e g i.src
  let (g, tail) ← addVertex e g i.dst
  if g.graph.hasEdge head tail then return g
  else return ⟨← g.graph.insertEdge ⟨head, tail, i⟩, g.indices⟩

/-- The constraint graph of an environment and some inclusions. -/
def build (e : Environment) (is : List Inclusion) : Except Error ConstraintGraph := do
  let g ← e.keys.foldlM (fun g s ↦ Prod.fst <$> addVertex e g s) {}
  is.foldlM (addInclusion e) g

/-! ## Queries -/

/-- The number of the vertex for some storage. -/
def index (g : ConstraintGraph) (s : Storage) : Option Nat := g.indices[s]?

/-- The vertex for some storage. -/
def vertex (g : ConstraintGraph) (s : Storage) : Option StorageVertex :=
  (g.index s).bind fun i ↦ (g.graph.vertex i).toOption

/-- The number of the vertex for some storage, which has to have one. -/
def indexOf (g : ConstraintGraph) (s : Storage) : Except Error Nat :=
  match g.index s with
  | some i => .ok i
  | none => .error (.notInConstraintGraph s)

/-- The storage to which the inclusions pass on what some storage points to, by number. -/
def flowsTo (g : ConstraintGraph) (s : Storage) : Except Error (List Storage) := do
  return (← g.graph.successorsOf (← g.indexOf s)).map StorageVertex.storage

/-- The storage that can be reached from some storage, itself included, in order. -/
def reachable (g : ConstraintGraph) (s : Storage) : Except Error (List Storage) := do
  let indices ← g.graph.reachable (← g.indexOf s)
  let storage ← indices.toList.mapM fun i ↦ StorageVertex.storage <$> g.graph.vertex i
  return storage.mergeSort fun a b ↦ (compare a b).isLE

/-- The dot text of the graph. -/
def dot (g : ConstraintGraph) : String := g.graph.dot

end ConstraintGraph

/-- The constraint graph of a solution. -/
def Solution.constraintGraph (s : Solution) : Except Error ConstraintGraph :=
  ConstraintGraph.build s.environment s.inclusions

end PointsTo
