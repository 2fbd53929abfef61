import PointsTo.Instruction.Line
import PointsTo.Program.Json
import PointsTo.Text

/-!
# Programs as text and in files

A program is written with one instruction on a line.  Reading takes the lines in order, counts them
from one, skips those without an instruction, and stops at the first with a fault.

What a file holds is bytes, and there may be no file.  The functions on files take both into account
and leave the reading of the file itself to the caller.
-/

set_option autoImplicit false

namespace PointsTo.Program

/-! ## Text -/

/-- The text of a program. -/
def render (p : Program) : String := String.join (p.instructions.map fun i ↦ i.render ++ "\n")

/-- The instructions on the lines, the first of which has that number. -/
def parseLines (number : Nat) : List (List Char) → Except Error (List Instruction)
  | [] => .ok []
  | line :: rest =>
    match Instruction.ofLine number line with
    | .error e => .error e
    | .ok none => parseLines (number + 1) rest
    | .ok (some i) => (i :: ·) <$> parseLines (number + 1) rest

/-- The program that a text holds. -/
def parse (text : String) : Except Error Program :=
  Program.mk <$> parseLines 1 (Text.lines text.toList)

/-! ## Files -/

/-- The text in a file, given its bytes, or `none` if there is no such file. -/
def fileText : Option ByteArray → Except Error String
  | none => .error .fileNotFound
  | some bytes =>
    match String.fromUTF8? bytes with
    | none => .error .notUnicode
    | some text => .ok text

/-- The program in a text file. -/
def ofTextFile (bytes : Option ByteArray) : Except Error Program := fileText bytes >>= parse

/-- The program in a JSON file. -/
def ofJsonFile (bytes : Option ByteArray) : Except Error Program := fileText bytes >>= parseJson

end PointsTo.Program
