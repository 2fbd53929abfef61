import PointsTo.Digraph.Basic

/-!
# Graphs as dot text

The text that draws a graph: a header with the fonts, a line for each vertex and a line for each
edge.  A line break in a label is written as `\l`, which starts a new line and sets the one before
it flush left.
-/

set_option autoImplicit false

namespace PointsTo.Digraph

variable {V E : Type}

/-- A label with its line breaks written out. -/
def dotLabel (label : String) : String :=
  String.ofList (label.toList.flatMap fun c ↦ if c = '\n' then ['\\', 'l'] else [c])

/-- The line of a vertex. -/
def dotVertex [Vertex V] (v : V) : String :=
  Nat.repr (Vertex.index v) ++ " [shape=\"box\", label=\"" ++ dotLabel (Vertex.label v) ++
    "\", style=\"filled\", fillcolor=\"" ++ Vertex.fill v ++ "\", fontcolor=\"" ++
    Vertex.font v ++ "\"];"

/-- The line of an edge. -/
def dotEdge [Edge E] (e : E) : String :=
  Nat.repr (Edge.head e) ++ " -> " ++ Nat.repr (Edge.tail e) ++ " [label=\"" ++
    dotLabel (Edge.label e) ++ "\", style=\"" ++ Edge.style e ++ "\"];"

/-- The fonts and the shape of lines. -/
def dotHeader : String :=
  "graph [fontname = \"Courier New\", splines=\"polyline\"]\n" ++
    "node [fontname = \"Courier New\"]\nedge [fontname = \"Courier New\"]"

/-- The dot text of a graph. -/
def dot [Vertex V] [Edge E] (g : Digraph V E) : String :=
  "digraph G \x7b\n" ++ dotHeader ++ "\n\n" ++
    String.intercalate "\n" (g.vertexList.map dotVertex) ++ "\n" ++
    String.intercalate "\n" (g.edgeList.map dotEdge) ++ "\n\x7d"

end PointsTo.Digraph
