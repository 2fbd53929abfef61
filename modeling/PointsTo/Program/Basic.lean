import PointsTo.Instruction.Basic

/-!
# Programs

A program is its instructions in order.  The analysis looks at them as a set of constraints, but the
order numbers the locations and is kept in every written form.
-/

set_option autoImplicit false

namespace PointsTo

/-- A pointer program. -/
structure Program where
  /-- The instructions in order. -/
  instructions : List Instruction := []
deriving DecidableEq

namespace Program

/-- The program with one more instruction at its end, names unchecked. -/
def push (p : Program) (i : Instruction) : Program := ⟨p.instructions ++ [i]⟩

/-- The program with one more allocation, if its name is valid. -/
def addAlloca (p : Program) (name : String) : Except Error Program :=
  p.push <$> Instruction.checkedAlloca name

/-- The program with one more move, if its names are valid. -/
def addMove (p : Program) (dst src : String) : Except Error Program :=
  p.push <$> Instruction.checkedMove dst src

/-- The program with one more load, if its names are valid. -/
def addLoad (p : Program) (dst reference : String) : Except Error Program :=
  p.push <$> Instruction.checkedLoad dst reference

/-- The program with one more store, if its names are valid. -/
def addStore (p : Program) (reference src : String) : Except Error Program :=
  p.push <$> Instruction.checkedStore reference src

/-- The program of these instructions, if their names are valid. -/
def ofInstructions (is : List Instruction) : Except Error Program := do
  is.forM Instruction.validate
  return ⟨is⟩

/-- How many instructions the program has. -/
def length (p : Program) : Nat := p.instructions.length

/-- Whether the program has no instruction. -/
def isEmpty (p : Program) : Bool := p.instructions.isEmpty

end Program

end PointsTo
