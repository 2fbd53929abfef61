import PointsTo.Solver.Run

/-!
# What the solver reports

A run can be followed by its events: that a solver was set up, each inclusion that added something,
each round, and the fixed point.  Events are data, listed in the order in which they happen; what a
listener hears depends on the `Level` it asks for.
-/

set_option autoImplicit false

namespace PointsTo

/-- How closely a listener follows: every level hears what the ones before it hear. -/
inductive Level where
  /-- The start and the end of a run. -/
  | debug
  /-- Every step. -/
  | trace
deriving DecidableEq

/-- The written form of a level. -/
def Level.render : Level → String
  | .debug => "DEBUG"
  | .trace => "TRACE"

/-- Something that happens in a run. -/
inductive Event where
  /-- A solver was set up: how many instructions, locations, inclusions of moves, stores and loads
  its program has. -/
  | created (instructions locations moves stores loads : Nat)
  /-- An inclusion added something. -/
  | grew (growth : Inclusion.Growth)
  /-- A round ended: its number, how many inclusions of stores and loads it derived, and whether it
  changed the environment. -/
  | round (number stores loads : Nat) (changed : Bool)
  /-- The fixed point was reached: after how many rounds, with how many entries and facts. -/
  | fixedPoint (rounds entries facts : Nat)

namespace Event

/-- The first level that hears of an event. -/
def level : Event → Level
  | .created .. => .debug
  | .grew _ => .trace
  | .round .. => .trace
  | .fixedPoint .. => .debug

/-- The event in words. -/
def message : Event → String
  | .created instructions locations moves stores loads =>
    "andersen: " ++ Nat.repr instructions ++ " instructions, " ++ Nat.repr locations ++
      " locations, " ++ Nat.repr moves ++ " static edges, " ++ Nat.repr stores ++ " stores, " ++
      Nat.repr loads ++ " loads"
  | .grew growth =>
    growth.inclusion.render ++ " grew " ++ growth.inclusion.dst.render ++ " to " ++
      growth.set.render
  | .round number stores loads changed =>
    "andersen: round " ++ Nat.repr number ++ ", " ++ Nat.repr stores ++ " store edges, " ++
      Nat.repr loads ++ " load edges, changed=" ++ (if changed then "true" else "false")
  | .fixedPoint rounds entries facts =>
    "andersen: fixed point after " ++ Nat.repr rounds ++ " rounds, " ++ Nat.repr entries ++
      " keys, " ++ Nat.repr facts ++ " points-to facts"

/-- The line that a listener writes down. -/
def render (v : Event) : String := v.level.render ++ " " ++ v.message

/-- Whether a listener at that level hears of an event. -/
def heardAt (v : Event) : Level → Bool
  | .debug => v.level == .debug
  | .trace => true

end Event

/-- The events of a pass over some inclusions. -/
def Inclusion.Propagation.trace (p : Inclusion.Propagation) : List Event := p.growths.map .grew

namespace Solver

/-- The event of setting up a solver. -/
def startTrace (s : Solver) : List Event :=
  let is := s.program.instructions
  [.created is.length s.locations s.moves.length (is.countP Instruction.isStore)
    (is.countP Instruction.isLoad)]

/-- The events of the next round. -/
def roundTrace (s : Solver) : List Event :=
  if s.atFixedPoint then []
  else
    let r := s.nextRound
    r.growths.map .grew ++ [.round (s.rounds + 1) r.stores.length r.loads.length r.changed]

/-- The events of running the solver to its end. -/
def runTrace (s : Solver) : List Event :=
  if h : s.round.atFixedPoint = true then
    let e := s.round.environment
    s.roundTrace ++ [.fixedPoint s.round.rounds e.length e.size]
  else
    match s.round.exceededLimit with
    | some _ => s.roundTrace
    | none => s.roundTrace ++ s.round.runTrace
termination_by s.room
decreasing_by exact room_round_lt (Bool.eq_false_iff.mpr h)

end Solver

end PointsTo
