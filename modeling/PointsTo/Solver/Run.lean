import PointsTo.Solver.Progress

/-!
# Running the solver

`Solver.run` goes from round to round until one of them changes nothing.  The limit on rounds is
checked after each round that changed something, and only then: the round that confirms the fixed
point is never counted.
-/

set_option autoImplicit false

namespace PointsTo

/-- The outcome of the analysis. -/
structure Solution where
  /-- What each storage may point to. -/
  environment : Environment
  /-- How many rounds changed the environment. -/
  rounds : Nat
  /-- How many locations the program allocates. -/
  locations : Nat
  /-- The inclusions of the moves. -/
  moves : List Inclusion
  /-- The inclusions of the stores at the fixed point. -/
  stores : List Inclusion
  /-- The inclusions of the loads at the fixed point. -/
  loads : List Inclusion
deriving DecidableEq

namespace Solution

/-- The inclusions that depend on the environment. -/
def derived (s : Solution) : List Inclusion := s.stores ++ s.loads

/-- All inclusions of the program at the fixed point. -/
def inclusions (s : Solution) : List Inclusion := s.moves ++ s.derived

end Solution

namespace Solver

/-- What a state has found. -/
def solution (s : Solver) : Solution :=
  { environment := s.environment
    rounds := s.rounds
    locations := s.locations
    moves := s.moves
    stores := s.stores
    loads := s.loads }

/-- The limit on rounds, if the state is beyond it. -/
def exceededLimit (s : Solver) : Option Nat := s.options.maxRounds.filter fun n ↦ n < s.rounds

/-- Goes from round to round until nothing changes or the limit is exceeded. -/
def run (s : Solver) : Except Error Solution :=
  if _h : s.round.atFixedPoint = true then .ok s.round.solution
  else
    match s.round.exceededLimit with
    | some limit => .error (.roundLimitExceeded limit)
    | none => s.round.run
termination_by s.room
decreasing_by exact room_round_lt (Bool.eq_false_iff.mpr _h)

end Solver

namespace Program

/-- The solution of a program's inclusions. -/
def solve (p : Program) (o : Options) : Except Error Solution := (Solver.start p o).run

/-- What each storage of a program may point to. -/
def analyze (p : Program) : Except Error Environment := Solution.environment <$> p.solve {}

end Program

end PointsTo
