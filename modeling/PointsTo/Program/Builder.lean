import PointsTo.Program.Basic

/-!
# Building a program call by call

A program under construction takes calls, each of which adds one instruction or fails.  After a
failure building may go on: what stands in the program by then is kept.
-/

set_option autoImplicit false

namespace PointsTo

/-- The program with one more instruction, if the names of the instruction are valid. -/
def Program.add (p : Program) : Instruction → Except Error Program
  | .alloca name => p.addAlloca name
  | .move dst src => p.addMove dst src
  | .load dst reference => p.addLoad dst reference
  | .store reference src => p.addStore reference src

/-- A computation on the program under construction, which is there afterwards even if the
computation fails. -/
abbrev Builder := ExceptT Error (StateM Program)

namespace Builder

/-- Adds an instruction to the program and returns it. -/
def call (i : Instruction) : Builder Instruction := do
  let p ← get
  set (← p.add i)
  return i

/-- What a call returns for a program, and the program after the call. -/
def after (p : Program) (i : Instruction) : Except Error Instruction × Program :=
  (call i).run.run p

end Builder

end PointsTo
