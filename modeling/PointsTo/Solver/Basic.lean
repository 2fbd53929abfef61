import PointsTo.Environment.Basic
import PointsTo.Inclusion.Derived
import PointsTo.Program.Basic

/-!
# The solver

The analysis solves the inclusions of a program by rounds.  Each round makes one pass over the
inclusions known so far, derives those of the stores and passes over them, derives those of the
loads and passes over them twice.  A round that adds nothing ends the analysis: the environment is
at its fixed point.

A `Solver` is the state between two rounds, and `Solver.round` takes it one round further.  Whether
the round changed the environment can be read off the state after it, which is at its fixed point
exactly if the round changed nothing.
-/

set_option autoImplicit false

namespace PointsTo

/-- What the caller may choose. -/
structure Options where
  /-- The most rounds that may change the environment, if there is a limit. -/
  maxRounds : Option Nat := none
  /-- Whether a round starts with the store inclusions of the round before as well.  The load
  inclusions are kept either way, and the fixed point does not depend on it. -/
  keepDerived : Bool := true
deriving DecidableEq

/-- The analysis of a program between two rounds. -/
structure Solver where
  /-- The program that is analysed. -/
  program : Program
  /-- What the caller chose. -/
  options : Options
  /-- The facts found so far. -/
  environment : Environment
  /-- The store inclusions of the last round. -/
  stores : List Inclusion := []
  /-- The load inclusions of the last round. -/
  loads : List Inclusion := []
  /-- How many rounds changed the environment. -/
  rounds : Nat := 0
  /-- Whether a round changed nothing. -/
  atFixedPoint : Bool := false

namespace Solver

/-- The state before the first round. -/
def start (p : Program) (o : Options) : Solver :=
  { program := p, options := o, environment := (Environment.seed p.instructions {}).1 }

/-- How many locations the program allocates. -/
def locations (s : Solver) : Nat := (Environment.seed s.program.instructions {}).2.allocated

/-- The inclusions of the program's moves. -/
def moves (s : Solver) : List Inclusion := Inclusion.ofMoves s.program.instructions

/-- The inclusions with which the next round starts. -/
def known (s : Solver) : List Inclusion :=
  s.moves ++ (if s.options.keepDerived then s.stores else []) ++ s.loads

/-! ## A round -/

/-- One round, pass by pass. -/
structure Round where
  /-- The pass over the inclusions known before. -/
  knownPass : Inclusion.Propagation
  /-- The store inclusions derived after it. -/
  stores : List Inclusion
  /-- The pass over them. -/
  storePass : Inclusion.Propagation
  /-- The load inclusions derived after that. -/
  loads : List Inclusion
  /-- The first pass over them. -/
  loadPass : Inclusion.Propagation
  /-- The second pass over them. -/
  reloadPass : Inclusion.Propagation

/-- The environment at the end of a round. -/
def Round.environment (r : Round) : Environment := r.reloadPass.environment

/-- All that a round added, in order. -/
def Round.growths (r : Round) : List Inclusion.Growth :=
  r.knownPass.growths ++ r.storePass.growths ++ r.loadPass.growths ++ r.reloadPass.growths

/-- Whether a round added something. -/
def Round.changed (r : Round) : Bool :=
  r.knownPass.grew || r.storePass.grew || r.loadPass.grew || r.reloadPass.grew

/-- The round that follows a state. -/
def nextRound (s : Solver) : Round :=
  let is := s.program.instructions
  let knownPass := Inclusion.propagate s.known s.environment
  let stores := Inclusion.ofStores is knownPass.environment
  let storePass := Inclusion.propagate stores
    (knownPass.environment.materializeAll (Inclusion.storeReferences is))
  let loads := Inclusion.ofLoads is storePass.environment
  let loadPass := Inclusion.propagate loads
    (storePass.environment.materializeAll (Inclusion.loadReferences is))
  let reloadPass := Inclusion.propagate loads loadPass.environment
  { knownPass, stores, storePass, loads, loadPass, reloadPass }

/-- The state after one more round.  At the fixed point nothing happens any more. -/
def round (s : Solver) : Solver :=
  if s.atFixedPoint then s
  else
    let r := s.nextRound
    { s with
      environment := r.environment
      stores := r.stores
      loads := r.loads
      rounds := if r.changed then s.rounds + 1 else s.rounds
      atFixedPoint := !r.changed }

@[simp] theorem program_round (s : Solver) : s.round.program = s.program := by
  rw [round]; split <;> rfl

@[simp] theorem options_round (s : Solver) : s.round.options = s.options := by
  rw [round]; split <;> rfl

theorem round_of_atFixedPoint {s : Solver} (h : s.atFixedPoint = true) : s.round = s := by
  rw [round, if_pos h]

end Solver

end PointsTo
