import PointsTo.Storage

/-!
# What can go wrong

Every operation that can fail fails with an `Error`, which names the cause.  The wording is in one
place, `Error.message`, and no other function looks at it.
-/

set_option autoImplicit false

namespace PointsTo

/-- What is wrong with a line of program text. -/
inductive LineFault where
  /-- The line assigns nothing. -/
  | notAssignment (line : String)
  /-- The line has a second equals sign. -/
  | manyEquals
  /-- Both sides of the line are dereferenced. -/
  | storesDereference (line : String)
  /-- A side of the line is not the name of a variable. -/
  | invalidName (name : String)
deriving DecidableEq

/-- The fault in words. -/
def LineFault.message : LineFault → String
  | .notAssignment line => "expected an assignment, found \"" ++ line ++ "\""
  | .manyEquals => "more than one '=' in instruction"
  | .storesDereference line => "cannot store a dereference directly, \"" ++ line ++ "\""
  | .invalidName name => "invalid name \"" ++ name ++ "\""

/-- The causes of failure. -/
inductive Error where
  /-- An instruction uses a string that is not a name. -/
  | invalidName (name : String)
  /-- A line of a program, counted from one, is not an instruction. -/
  | parse (line : Nat) (fault : LineFault)
  /-- More rounds changed the environment than were allowed. -/
  | roundLimitExceeded (limit : Nat)
  /-- The graph has no vertex of that index. -/
  | vertexNotFound (index : Nat)
  /-- The graph has no edge between these two indices. -/
  | edgeNotFound (head tail : Nat)
  /-- The graph has a vertex of that index already. -/
  | duplicateVertex
  /-- The graph has an edge between the two indices already. -/
  | duplicateEdge
  /-- No vertex of the constraint graph stands for that storage. -/
  | notInConstraintGraph (storage : Storage)
  /-- There is no such file. -/
  | fileNotFound
  /-- The bytes of a file do not encode a text. -/
  | notUnicode
  /-- A text is not the JSON form of the value asked for, or a value has none. -/
  | json
  /-- Any other failure, in the words of whoever reports it. -/
  | custom (text : String)
deriving DecidableEq

/-- The error as the line of that number reports it: an invalid name is a fault of the line. -/
def Error.onLine (number : Nat) : Error → Error
  | .invalidName name => .parse number (.invalidName name)
  | e => e

/-- The error in words. -/
def Error.message : Error → String
  | .invalidName name => "Invalid storage name \"" ++ name ++ "\""
  | .parse line fault => "Parse error on line " ++ Nat.repr line ++ ": " ++ fault.message
  | .roundLimitExceeded limit => "Fixed point not reached within " ++ Nat.repr limit ++ " rounds"
  | .vertexNotFound index =>
    "The vertex id " ++ Nat.repr index ++ " does not exist in the graph"
  | .edgeNotFound head tail =>
    "The edge with head " ++ Nat.repr head ++ " and tail " ++ Nat.repr tail ++
      " does not exist in the graph"
  | .duplicateVertex => "duplicate vertex index"
  | .duplicateEdge => "duplicate edge"
  | .notInConstraintGraph storage => storage.render ++ " is not in the constraint graph"
  | .fileNotFound => "file not found"
  | .notUnicode => "file is not UTF-8 text"
  | .json => "malformed JSON"
  | .custom text => text

end PointsTo
