import Mathlib.Data.Nat.Find
import PointsTo.Proofs.RoundLimit

/-!
# Rounds against simultaneous steps

The plainest way to solve the rules of a program is to apply each of them to one environment, to add
all that they give at once, and to start over: `Environment.step`.  A round of the solver is
anything but that.  It changes the environment in place, it takes four passes, and the inclusions of
the later ones are derived from what the earlier ones have left.

Still, a round does all that a step does (`Solver.step_le_nextRound`).  Each rule that a step
applies is applied by one of the passes, and the passes before it have lost no fact.  Steps are
monotone, so after equally many of either the rounds are never behind; and they never get past the
derivable facts, where the steps end as well.  Hence a solver takes at most as many rounds as there
are steps that change something.  It can take far fewer, since a pass over moves that stand in a
good order follows them all at once.
-/

set_option autoImplicit false

namespace PointsTo

namespace Environment

open Std (ExtTreeSet)

/-! ## All rules at once -/

/-- What an instruction contributes in an environment: sets, each with the storage that receives
it. -/
def contributions (e : Environment) : Instruction → List (Storage × PointsToSet)
  | .alloca _ => []
  | .move dst src => [(.var dst, e.pointsTo (.var src))]
  | .load dst reference =>
    (e.pointsTo (.var reference)).toList.map fun k ↦ (.var dst, e.pointsTo (.loc k))
  | .store reference src =>
    (e.pointsTo (.var reference)).toList.map fun k ↦ (.loc k, e.pointsTo (.var src))

/-- Adds a set to what some storage points to. -/
def receive (e : Environment) (c : Storage × PointsToSet) : Environment :=
  e.set c.1 (e.pointsTo c.1 ∪ c.2)

/-- Adds what all instructions contribute, every one of them in the environment as it is given. -/
def step (is : List Instruction) (e : Environment) : Environment :=
  (is.flatMap e.contributions).foldl receive e

/-- The environment after that many steps from the facts of the allocations. -/
def afterSteps (is : List Instruction) (k : Nat) : Environment := (step is)^[k] (seed is {}).1

/-- The facts that one application of a rule gives, from premises in an environment. -/
inductive Infers (is : List Instruction) (e : Environment) : Storage → Location → Prop
  | move {dst src : String} {l : Location} (h : .move dst src ∈ is)
      (hl : l ∈ e.pointsTo (.var src)) : Infers is e (.var dst) l
  | load {dst reference : String} {k l : Location} (h : .load dst reference ∈ is)
      (hk : k ∈ e.pointsTo (.var reference)) (hl : l ∈ e.pointsTo (.loc k)) :
      Infers is e (.var dst) l
  | store {reference src : String} {k l : Location} (h : .store reference src ∈ is)
      (hk : k ∈ e.pointsTo (.var reference)) (hl : l ∈ e.pointsTo (.var src)) :
      Infers is e (.loc k) l

variable {is : List Instruction} {e e' : Environment} {s : Storage} {l : Location}

theorem mem_pointsTo_receive {c : Storage × PointsToSet} :
    l ∈ (e.receive c).pointsTo s ↔ l ∈ e.pointsTo s ∨ c.1 = s ∧ l ∈ c.2 := by
  rw [receive, pointsTo_set]
  split
  · next hs => rw [ExtTreeSet.mem_union_iff, hs, eq_self, true_and]
  · next hs => simp only [Ne.symm hs, false_and, or_false]

theorem mem_pointsTo_foldl_receive {cs : List (Storage × PointsToSet)} :
    l ∈ (cs.foldl receive e).pointsTo s ↔ l ∈ e.pointsTo s ∨ ∃ c ∈ cs, c.1 = s ∧ l ∈ c.2 := by
  induction cs generalizing e with
  | nil => simp
  | cons c cs ih =>
    rw [List.foldl_cons, ih, mem_pointsTo_receive, List.exists_mem_cons_iff, or_assoc]

/-- What the instructions contribute is what their rules give. -/
theorem exists_contribution_iff :
    (∃ c ∈ is.flatMap e.contributions, c.1 = s ∧ l ∈ c.2) ↔ Infers is e s l := by
  simp only [List.mem_flatMap]
  constructor
  · rintro ⟨c, ⟨i, hi, hc⟩, rfl, hl⟩
    cases i with
    | alloca _ => simp [contributions] at hc
    | move dst src =>
      rw [contributions, List.mem_singleton] at hc
      subst hc
      exact .move hi hl
    | load dst reference =>
      simp only [contributions, List.mem_map, ExtTreeSet.mem_toList] at hc
      obtain ⟨k, hk, rfl⟩ := hc
      exact .load hi hk hl
    | store reference src =>
      simp only [contributions, List.mem_map, ExtTreeSet.mem_toList] at hc
      obtain ⟨k, hk, rfl⟩ := hc
      exact .store hi hk hl
  · intro h
    cases h with
    | move hi hl => exact ⟨_, ⟨_, hi, List.mem_singleton_self _⟩, rfl, hl⟩
    | load hi hk hl =>
      exact ⟨_, ⟨_, hi, List.mem_map_of_mem (ExtTreeSet.mem_toList.mpr hk)⟩, rfl, hl⟩
    | store hi hk hl =>
      exact ⟨_, ⟨_, hi, List.mem_map_of_mem (ExtTreeSet.mem_toList.mpr hk)⟩, rfl, hl⟩

/-- **A step adds what one application of a rule gives**, and nothing else. -/
theorem mem_pointsTo_step :
    l ∈ (step is e).pointsTo s ↔ l ∈ e.pointsTo s ∨ Infers is e s l := by
  rw [step, mem_pointsTo_foldl_receive, exists_contribution_iff]

/-! ## Steps alone -/

theorem le_step (is : List Instruction) (e : Environment) : e ≤ step is e :=
  fun _ _ hl ↦ mem_pointsTo_step.mpr (.inl hl)

theorem Infers.mono (h : e ≤ e') (hi : Infers is e s l) : Infers is e' s l := by
  cases hi with
  | move hi hl => exact .move hi (h _ _ hl)
  | load hi hk hl => exact .load hi (h _ _ hk) (h _ _ hl)
  | store hi hk hl => exact .store hi (h _ _ hk) (h _ _ hl)

/-- **Steps are monotone.** -/
theorem step_mono (is : List Instruction) (h : e ≤ e') : step is e ≤ step is e' := by
  intro s l hl
  refine mem_pointsTo_step.mpr ?_
  exact (mem_pointsTo_step.mp hl).imp (h s l) (.mono h)

/-- An environment that satisfies the rules gains nothing by a step. -/
theorem step_le_of_satisfies (h : Satisfies is e) : step is e ≤ e := by
  intro s l hl
  rcases mem_pointsTo_step.mp hl with hl | hi
  · exact hl
  · cases hi with
    | move hi hl => exact h.move _ _ hi _ hl
    | load hi hk hl => exact h.load _ _ hi _ hk _ hl
    | store hi hk hl => exact h.store _ _ hi _ hk _ hl

/-- An environment that has the facts of the allocations and gains nothing by a step satisfies the
rules. -/
theorem satisfies_of_step_le (hseed : (seed is {}).1 ≤ e) (h : step is e ≤ e) :
    Satisfies is e where
  alloca _ _ hi := hseed _ _ (mem_pointsTo_seed_of_getElem? hi)
  move _ _ hi l hl := h _ l (mem_pointsTo_step.mpr (.inr (.move hi hl)))
  load _ _ hi _ hk l hl := h _ l (mem_pointsTo_step.mpr (.inr (.load hi hk hl)))
  store _ _ hi _ hk l hl := h _ l (mem_pointsTo_step.mpr (.inr (.store hi hk hl)))

theorem afterSteps_succ (is : List Instruction) (k : Nat) :
    afterSteps is (k + 1) = step is (afterSteps is k) :=
  Function.iterate_succ_apply' ..

theorem seed_le_afterSteps (is : List Instruction) (k : Nat) : (seed is {}).1 ≤ afterSteps is k :=
  Function.Iterate.rec (fun e : Environment ↦ (seed is {}).1 ≤ e) (le_refl _)
    (fun e h ↦ le_trans h (le_step is e)) k

theorem afterSteps_le_succ (is : List Instruction) (k : Nat) :
    afterSteps is k ≤ afterSteps is (k + 1) := by
  rw [afterSteps_succ]
  exact le_step _ _

/-- Once a step changes nothing, no later step does. -/
theorem afterSteps_succ_le_of_le {n k : Nat} (h : afterSteps is (n + 1) ≤ afterSteps is n)
    (hk : n ≤ k) : afterSteps is (k + 1) ≤ afterSteps is k := by
  induction hk with
  | refl => exact h
  | @step k _ ih =>
    rw [afterSteps_succ is (k + 1), afterSteps_succ is k]
    exact step_mono is (by rwa [afterSteps_succ] at ih)

/-- Steps that stay below some environment stop changing anything: each that does adds a fact. -/
theorem exists_afterSteps_succ_le {b : Environment} (h : ∀ k, afterSteps is k ≤ b) :
    ∃ n, afterSteps is (n + 1) ≤ afterSteps is n := by
  by_contra hn
  push Not at hn
  have hgrow : ∀ n, n ≤ (afterSteps is n).size := by
    intro n
    induction n with
    | zero => exact Nat.zero_le _
    | succ n ih =>
      have hlt := size_lt_of_lt (lt_of_le_not_ge (afterSteps_le_succ is n) (hn n))
      omega
  have hsize := size_le_of_le (h (b.size + 1))
  have hmany := hgrow (b.size + 1)
  omega

/-- **The steps that change something come first**, and there are finitely many. -/
theorem exists_afterSteps_succ_le_iff {b : Environment} (h : ∀ k, afterSteps is k ≤ b) :
    ∃ n, ∀ k, afterSteps is (k + 1) ≤ afterSteps is k ↔ n ≤ k := by
  classical
  have hstops := exists_afterSteps_succ_le h
  refine ⟨Nat.find hstops, fun k ↦ ⟨Nat.find_min' hstops, ?_⟩⟩
  exact afterSteps_succ_le_of_le (Nat.find_spec hstops)

/-- Where a step changes nothing, every derivable fact has been found. -/
theorem mem_afterSteps_of_derives {n : Nat} (h : afterSteps is (n + 1) ≤ afterSteps is n)
    (hd : Derives is s l) : l ∈ (afterSteps is n).pointsTo s := by
  rw [afterSteps_succ] at h
  exact (satisfies_of_step_le (seed_le_afterSteps is n) h).mem_of_derives hd

end Environment

namespace Solver

open Inclusion Environment

/-! ## Rounds and steps -/

/-- **A round does all that a step does.**  A move is passed over first, a store once its reference
has been looked up after that, and a load last. -/
theorem step_le_nextRound (s : Solver) :
    step s.program.instructions s.environment ≤ s.nextRound.environment := by
  have h₁ := s.growsInto_knownPass
  have h₂ := s.growsInto_storePass
  have h₃ := s.growsInto_loadPass
  have h₄ := s.growsInto_reloadPass
  intro t l hl
  rcases mem_pointsTo_step.mp hl with hl | hi
  · exact s.growsInto_nextRound.keeps t l hl
  · cases hi with
    | @move dst src _ hi hl =>
      have hmem : ⟨.var dst, .var src⟩ ∈ s.known :=
        mem_known_of_moves (mem_ofMoves.mpr ⟨dst, src, hi, rfl⟩)
      exact (h₂.trans (h₃.trans h₄)).keeps _ l (mem_propagate_dst hmem hl)
    | @store reference src k _ hi hk hl =>
      have hmem : ⟨.loc k, .var src⟩ ∈ s.nextRound.stores :=
        mem_ofStores.mpr ⟨reference, src, k, hi, h₁.keeps _ k hk, rfl⟩
      refine (h₃.trans h₄).keeps _ l (mem_propagate_dst hmem ?_)
      rw [pointsTo_materializeAll]
      exact h₁.keeps _ l hl
    | @load dst reference k _ hi hk hl =>
      have hmem : ⟨.var dst, .loc k⟩ ∈ s.nextRound.loads :=
        mem_ofLoads.mpr ⟨dst, reference, k, hi, (h₁.trans h₂).keeps _ k hk, rfl⟩
      refine h₄.keeps _ l (mem_propagate_dst hmem ?_)
      rw [pointsTo_materializeAll]
      exact (h₁.trans h₂).keeps _ l hl

/-- At the fixed point a round does nothing, and neither would a step. -/
theorem step_le_round_iterate (p : Program) (o : Options) (k : Nat) :
    step p.instructions (Solver.round^[k] (start p o)).environment ≤
      (Solver.round^[k + 1] (start p o)).environment := by
  rw [Function.iterate_succ_apply']
  have hprogram : (Solver.round^[k] (start p o)).program = p := program_iterate_round _ k
  cases hs : (Solver.round^[k] (start p o)).atFixedPoint with
  | true =>
    rw [round_of_atFixedPoint hs]
    exact step_le_of_satisfies (satisfies_iterate p o k hs)
  | false =>
    have hstep := step_le_nextRound (Solver.round^[k] (start p o))
    rw [hprogram] at hstep
    rw [round, hs]
    exact hstep

/-- **After equally many of either, the rounds are not behind the steps.** -/
theorem afterSteps_le_iterate (p : Program) (o : Options) (k : Nat) :
    afterSteps p.instructions k ≤ (Solver.round^[k] (start p o)).environment := by
  induction k with
  | zero => exact le_refl (start p o).environment
  | succ k ih =>
    rw [afterSteps_succ]
    exact le_trans (step_mono _ ih) (step_le_round_iterate p o k)

/-- No round gets past the state in which the run ends. -/
theorem iterate_le_last (s : Solver) (k : Nat) :
    (Solver.round^[k] s).environment ≤ s.last.environment := by
  rw [← last_iterate s k]
  exact le_iterate_round _ _

end Solver

/-- **Rounds refine simultaneous steps.**  After equally many of either, the steps have found no
more than the rounds, and the rounds no more than there is in the end.  The steps that change
something are the first `n`, for some `n`; then they have reached the sets of the solution, where a
further step changes nothing.  And the solver takes at most `n` rounds. -/
theorem Program.rounds_refine_steps (p : Program) (keep : Bool) :
    let o : Options := { maxRounds := none, keepDerived := keep }
    let steps := fun k ↦ (Environment.step p.instructions)^[k] (Solver.start p o).environment
    ∃ sol, p.solve o = .ok sol ∧
      (∀ k, steps k ≤ (Solver.round^[k] (Solver.start p o)).environment ∧
        (Solver.round^[k] (Solver.start p o)).environment ≤ sol.environment) ∧
      ∃ n, (∀ k, (∃ s, (steps (k + 1)).pointsTo s ≠ (steps k).pointsTo s) ↔ k < n) ∧
        (∀ k, (∀ s, (steps k).pointsTo s = sol.environment.pointsTo s) ↔ n ≤ k) ∧
        sol.rounds ≤ n := by
  intro o steps
  have hbelow : ∀ k, steps k ≤ (Solver.round^[k] (Solver.start p o)).environment :=
    Solver.afterSteps_le_iterate p o
  have hlast := Solver.iterate_le_last (Solver.start p o)
  have hfinal : ∀ k, steps k ≤ (Solver.start p o).last.environment :=
    fun k ↦ le_trans (hbelow k) (hlast k)
  refine ⟨_, p.solve_of_unlimited rfl, fun k ↦ ⟨hbelow k, hlast k⟩, ?_⟩
  obtain ⟨n, hn⟩ := Environment.exists_afterSteps_succ_le_iff hfinal
  have hn : ∀ k, steps (k + 1) ≤ steps k ↔ n ≤ k := hn
  have hfound : ∀ k, n ≤ k → ∀ t l, Derives p.instructions t l → l ∈ (steps k).pointsTo t :=
    fun k hk _ _ ↦ Environment.mem_afterSteps_of_derives ((hn k).mpr hk)
  refine ⟨n, fun k ↦ ?_, fun k ↦ ?_, ?_⟩
  · rw [← not_forall, Environment.forall_pointsTo_eq_iff, ← Nat.not_le, ← hn k, not_iff_not]
    exact and_iff_left (Environment.afterSteps_le_succ p.instructions k)
  · rw [Environment.forall_pointsTo_eq_iff, ← hn k]
    refine ⟨fun h ↦ le_trans (hfinal (k + 1)) h.2, fun h ↦ ⟨hfinal k, fun t l hl ↦ ?_⟩⟩
    exact hfound k ((hn k).mp h) t l (Solver.derives_of_mem_iterate p o _ hl)
  · change (Solver.start p o).last.rounds ≤ n
    rw [Solver.rounds_last_start, ← Solver.forall_mem_iterate_iff]
    exact fun t l hd ↦ hbelow n t l (hfound n (Nat.le_refl n) t l hd)

-- `d = c; c = b; b = a`: against the order of the flow, a round moves no further than a step,
-- and with the order it moves all the way
example :
    let back : Program := ⟨[.alloca "a", .move "d" "c", .move "c" "b", .move "b" "a"]⟩
    let forth : Program := ⟨[.alloca "a", .move "b" "a", .move "c" "b", .move "d" "c"]⟩
    Solution.rounds <$> back.solve {} = .ok 3 ∧ Solution.rounds <$> forth.solve {} = .ok 1 ∧
      (Environment.afterSteps back.instructions 3).size = 4 ∧
      (Environment.afterSteps forth.instructions 2).size = 3 ∧
      (Environment.afterSteps forth.instructions 3).size = 4 := by decide +kernel

end PointsTo
