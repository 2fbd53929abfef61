import PointsTo.Inclusion.Derived

/-!
# Deriving inclusions in one sweep

What the stores of a program derive from an environment, and the entries that come with it, can be
found in one sweep over the instructions, and likewise for the loads.  The sweep carries both along:
it gives each reference an entry, looks it up in the environment that it has come to by then, and
lists what the instruction gives.  An inclusion is left out if it is listed already, and also if it
would have some storage include itself.
-/

set_option autoImplicit false

namespace PointsTo.Inclusion

/-- The two ways to go through a reference. -/
inductive Access where
  /-- A variable is written into the locations of the reference. -/
  | store
  /-- A variable is read out of the locations of the reference. -/
  | load
deriving DecidableEq

namespace Access

/-- The reference of an instruction that goes through one in this way, and its other variable. -/
def names? : Access → Instruction → Option (String × String)
  | .store, .store reference src => some (reference, src)
  | .load, .load dst reference => some (reference, dst)
  | _, _ => none

/-- The inclusion between the other variable and a location of the reference. -/
def inclusion : Access → String → Location → Inclusion
  | .store, src, l => ⟨.loc l, .var src⟩
  | .load, dst, l => ⟨.var dst, .loc l⟩

end Access

/-- Lists one more inclusion, unless it is listed already or has the same storage on both sides. -/
def collect (is : List Inclusion) (i : Inclusion) : List Inclusion :=
  if i.isSelf || is.contains i then is else is ++ [i]

/-- How far a sweep has come. -/
structure Sweep where
  /-- The environment, with the entries made so far. -/
  environment : Environment
  /-- The inclusions found so far. -/
  inclusions : List Inclusion := []

/-- Takes a sweep past one more instruction. -/
def Sweep.step (kind : Access) (w : Sweep) (i : Instruction) : Sweep :=
  match kind.names? i with
  | none => w
  | some (reference, name) =>
    let e := w.environment.materialize (.var reference)
    let given := (e.pointsTo (.var reference)).toList.map (kind.inclusion name)
    ⟨e, given.foldl collect w.inclusions⟩

/-- The inclusions of all stores, or of all loads, and the environment with their references. -/
def sweep (kind : Access) (is : List Instruction) (e : Environment) : Sweep :=
  is.foldl (Sweep.step kind) ⟨e, []⟩

end PointsTo.Inclusion
