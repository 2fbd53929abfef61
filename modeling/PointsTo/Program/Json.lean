import PointsTo.Json.Decode
import PointsTo.Json.Writer
import PointsTo.Program.Basic

/-!
# Programs in JSON

An instruction is a record of its names, tagged by its kind, and a program is the array of its
instructions.  A text is read to its end before any name is checked, so a malformed text is reported
as such whatever names it holds.
-/

set_option autoImplicit false

namespace PointsTo

namespace Instruction

/-- The JSON form of an instruction. -/
def toJson : Instruction → Json
  | .alloca name => .tagged "Alloca" (.record [("name", .text name)])
  | .move dst src => .tagged "Move" (.record [("dst", .text dst), ("src", .text src)])
  | .load dst reference =>
    .tagged "Load" (.record [("dst", .text dst), ("reference", .text reference)])
  | .store reference src =>
    .tagged "Store" (.record [("reference", .text reference), ("src", .text src)])

/-- The texts of a record with these fields. -/
def textsOf (names : List String) (v : Json) : Option (List String) := do
  (← v.toRecord names).mapM Json.toText

/-- The instruction that a JSON value describes, names unchecked. -/
def ofJson? (v : Json) : Option Instruction :=
  match v.toTagged with
  | some ("Alloca", v) =>
    match textsOf ["name"] v with
    | some [name] => some (.alloca name)
    | _ => none
  | some ("Move", v) =>
    match textsOf ["dst", "src"] v with
    | some [dst, src] => some (.move dst src)
    | _ => none
  | some ("Load", v) =>
    match textsOf ["dst", "reference"] v with
    | some [dst, reference] => some (.load dst reference)
    | _ => none
  | some ("Store", v) =>
    match textsOf ["reference", "src"] v with
    | some [reference, src] => some (.store reference src)
    | _ => none
  | _ => none

end Instruction

namespace Program

/-- The JSON form of a program. -/
def toJson (p : Program) : Json := .array (p.instructions.map Instruction.toJson)

/-- The program that a JSON value describes, names unchecked. -/
def ofJson? (v : Json) : Option Program := do
  return ⟨← (← v.toItems).mapM Instruction.ofJson?⟩

/-- The program that a JSON text holds, if all its names are valid. -/
def parseJson (text : String) : Except Error Program :=
  match (Json.parse text).bind ofJson? with
  | none => .error .json
  | some p => ofInstructions p.instructions

end Program

end PointsTo
