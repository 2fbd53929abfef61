import PointsTo.Instruction.Basic
import PointsTo.Text

/-!
# Reading a line

A line of program text holds at most one instruction.  What follows a `#` is a comment, and blanks
count for nothing at the ends of the line, around the equals sign and after a `*`.

The right-hand side decides what an instruction is, unless the left-hand side starts with a `*`:
then it is a store, whatever follows the equals sign.  A line has one fault only, the first of
these:

1. it has no equals sign, or more than one;
2. both its sides start with a `*`;
3. one of its names is not valid, the left one if both are not.
-/

set_option autoImplicit false

namespace PointsTo.Instruction

open Text

/-- The part of a line before its comment. -/
def stripComment (line : List Char) : List Char := line.takeWhile (· != '#')

/-- The two sides of the first equals sign. -/
def splitAssignment (cs : List Char) : Option (List Char × List Char) :=
  match cs.dropWhile (· != '=') with
  | [] => none
  | _ :: rhs => some (cs.takeWhile (· != '='), rhs)

/-- The instruction that assigns the one text to the other, made name by name; `none` if both are
dereferenced. -/
def ofSides (lhs rhs : List Char) : Option (Except Error Instruction) :=
  match lhs, rhs with
  | '*' :: _, '*' :: _ => none
  | '*' :: reference, src =>
    some (checkedStore (String.ofList (trim reference)) (String.ofList src))
  | dst, '*' :: reference =>
    some (checkedLoad (String.ofList dst) (String.ofList (trim reference)))
  | dst, src =>
    if src = Name.keyword.toList then some (checkedAlloca (String.ofList dst))
    else some (checkedMove (String.ofList dst) (String.ofList src))

/-- The instruction on the line of that number, `none` if the line is blank. -/
def ofLine (number : Nat) (line : List Char) : Except Error (Option Instruction) :=
  match trim (stripComment line) with
  | [] => .ok none
  | text =>
    match splitAssignment text with
    | none => .error (.parse number (.notAssignment (String.ofList text)))
    | some (lhs, rhs) =>
      if rhs.contains '=' then .error (.parse number .manyEquals)
      else
        match ofSides (trim lhs) (trim rhs) with
        | none => .error (.parse number (.storesDereference (String.ofList text)))
        | some made => some <$> made.mapError (Error.onLine number)

/-- The instruction on a line, given as a string. -/
def parseLine (number : Nat) (line : String) : Except Error (Option Instruction) :=
  ofLine number line.toList

end PointsTo.Instruction
