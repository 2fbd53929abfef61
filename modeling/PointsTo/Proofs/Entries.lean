import PointsTo.Proofs.LeastSolution

/-!
# Which storage has an entry

An environment can have an entry without a fact, and the entries of a solution show in its printed
form and in its graph.  They come from passes, which make entries for both sides of the inclusions
that they evaluate, and from deriving inclusions, which makes entries for references.  What a round
evaluates depends on the environment that it has reached, so one might expect the entries to depend
on the way there.

They do not.  `HasEntry` says which storage ends up with an entry, by the instructions of the
program and its derivable facts.  No round makes another entry, because its inclusions lead between
such storage; this is again `Solver.Stable`.  And the round that confirms the fixed point evaluates
every inclusion that the final environment derives, so none of these entries is missing.
-/

set_option autoImplicit false

namespace PointsTo

open Inclusion

/-- The storage to which the analysis of a program gives an entry. -/
inductive HasEntry (is : List Instruction) : Storage → Prop
  | alloca {name : String} (h : .alloca name ∈ is) : HasEntry is (.var name)
  | location {l : Location} (h : l.index < (allocations is).length) : HasEntry is (.loc l)
  | moveDst {dst src : String} (h : .move dst src ∈ is) : HasEntry is (.var dst)
  | moveSrc {dst src : String} (h : .move dst src ∈ is) : HasEntry is (.var src)
  | storeReference {reference src : String} (h : .store reference src ∈ is) :
      HasEntry is (.var reference)
  | loadReference {dst reference : String} (h : .load dst reference ∈ is) :
      HasEntry is (.var reference)
  | storeSrc {reference src : String} {k : Location} (h : .store reference src ∈ is)
      (hk : Derives is (.var reference) k) : HasEntry is (.var src)
  | loadDst {dst reference : String} {k : Location} (h : .load dst reference ∈ is)
      (hk : Derives is (.var reference) k) : HasEntry is (.var dst)

theorem HasEntry.location_lt {is : List Instruction} {l : Location} (h : HasEntry is (.loc l)) :
    l.index < (allocations is).length := by
  cases h with
  | location hl => exact hl

/-- Entries are for storage that the program mentions. -/
theorem HasEntry.storage_mem {is : List Instruction} {t : Storage} (h : HasEntry is t) :
    t ∈ storages is := by
  cases h with
  | location hl => exact loc_mem_storages hl
  | alloca hi | moveDst hi | moveSrc hi | storeReference hi | loadReference hi | storeSrc hi _
  | loadDst hi _ => exact var_mem_storages hi (by simp [Instruction.names])

/-! ## References -/

theorem Inclusion.mem_storeReferences {is : List Instruction} {t : Storage} :
    t ∈ storeReferences is ↔ ∃ reference src, .store reference src ∈ is ∧ t = .var reference := by
  rw [storeReferences, List.mem_filterMap]
  constructor
  · rintro ⟨i, hi, ht⟩
    cases i with
    | store reference src => exact ⟨reference, src, hi, by simpa using ht.symm⟩
    | alloca _ | move _ _ | load _ _ => cases ht
  · rintro ⟨reference, src, hi, rfl⟩
    exact ⟨_, hi, rfl⟩

theorem Inclusion.mem_loadReferences {is : List Instruction} {t : Storage} :
    t ∈ loadReferences is ↔ ∃ dst reference, .load dst reference ∈ is ∧ t = .var reference := by
  rw [loadReferences, List.mem_filterMap]
  constructor
  · rintro ⟨i, hi, ht⟩
    cases i with
    | load dst reference => exact ⟨dst, reference, hi, by simpa using ht.symm⟩
    | alloca _ | move _ _ | store _ _ => cases ht
  · rintro ⟨dst, reference, hi, rfl⟩
    exact ⟨_, hi, rfl⟩

/-! ## No round makes another entry -/

/-- Entries and facts of the environment are those that belong to the program. -/
structure Environment.Within (is : List Instruction) (e : Environment) : Prop where
  /-- Every entry is one of the program's. -/
  entries : ∀ t, t ∈ e → HasEntry is t
  /-- Every fact is derivable. -/
  facts : ∀ t l, l ∈ e.pointsTo t → Derives is t l

/-- The inclusion leads between entries of the program, and from derivable facts to derivable
facts. -/
structure Inclusion.Within (is : List Instruction) (i : Inclusion) : Prop where
  /-- The destination has an entry. -/
  dst : HasEntry is i.dst
  /-- The source has an entry. -/
  src : HasEntry is i.src
  /-- The destination may point to all that the source may point to. -/
  facts : ∀ l, Derives is i.src l → Derives is i.dst l

namespace Solver

/-- Environments and inclusions that stay within a program hold each other up. -/
theorem stable_within (is : List Instruction) :
    Stable is (Environment.Within is) (Inclusion.Within is) where
  pass js e hj he := by
    refine ⟨?_, (stable_derives is).pass js e (fun i hi ↦ (hj i hi).facts) he.facts⟩
    intro t ht
    rcases mem_environment_propagate.mp ht with ht | ⟨i, hi, rfl | rfl⟩
    · exact he.entries t ht
    · exact (hj i hi).dst
    · exact (hj i hi).src
  storeEntries e he := by
    refine ⟨?_, (stable_derives is).storeEntries e he.facts⟩
    intro t ht
    rcases Environment.mem_materializeAll.mp ht with ht | ht
    · obtain ⟨_, _, hi, rfl⟩ := mem_storeReferences.mp ht
      exact .storeReference hi
    · exact he.entries t ht
  loadEntries e he := by
    refine ⟨?_, (stable_derives is).loadEntries e he.facts⟩
    intro t ht
    rcases Environment.mem_materializeAll.mp ht with ht | ht
    · obtain ⟨_, _, hi, rfl⟩ := mem_loadReferences.mp ht
      exact .loadReference hi
    · exact he.entries t ht
  stores e he i hi := by
    have hfacts := (stable_derives is).stores e he.facts i hi
    obtain ⟨reference, src, k, hstore, hk, rfl⟩ := mem_ofStores.mp hi
    have hk := he.facts _ k hk
    exact ⟨.location hk.location_lt, .storeSrc hstore hk, hfacts⟩
  loads e he i hi := by
    have hfacts := (stable_derives is).loads e he.facts i hi
    obtain ⟨dst, reference, k, hload, hk, rfl⟩ := mem_ofLoads.mp hi
    have hk := he.facts _ k hk
    exact ⟨.loadDst hload hk, .location hk.location_lt, hfacts⟩

theorem within_seed (is : List Instruction) : (Environment.seed is {}).1.Within is where
  entries t ht := by
    obtain ⟨i, name, hi, rfl | rfl⟩ := Environment.mem_seed.mp ht
    · exact .alloca (alloca_mem_of_getElem? hi)
    · rw [Nat.zero_add]
      exact .location (List.getElem?_eq_some_iff.mp hi).1
  facts _ _ := derives_of_mem_seed

/-- **Every state that a program reaches stays within the program.** -/
theorem within_iterate (p : Program) (o : Options) (k : Nat) :
    (Solver.round^[k] (start p o)).Has (Environment.Within p.instructions)
      (Inclusion.Within p.instructions) := by
  refine (stable_within p.instructions).iterate ⟨within_seed p.instructions, ?_⟩ k
  intro i hi
  rw [recorded, start, List.append_nil, List.append_nil] at hi
  obtain ⟨dst, src, hmove, rfl⟩ := mem_ofMoves.mp hi
  exact ⟨.moveDst hmove, .moveSrc hmove, fun l ↦ .move hmove⟩

/-! ## A round makes entries for what it evaluates -/

/-- **The entries after a round.** -/
theorem mem_nextRound_iff {s : Solver} {t : Storage} :
    t ∈ s.nextRound.environment ↔ t ∈ s.environment ∨
      t ∈ storeReferences s.program.instructions ∨ t ∈ loadReferences s.program.instructions ∨
      ∃ i, (i ∈ s.known ∨ i ∈ s.nextRound.stores ∨ i ∈ s.nextRound.loads) ∧
        (t = i.dst ∨ t = i.src) := by
  simp only [nextRound, Round.environment, mem_environment_propagate,
    Environment.mem_materializeAll]
  grind

/-- Both sides of all inclusions on record, and all references, have an entry. -/
structure Entered (s : Solver) : Prop where
  /-- The sides of inclusions. -/
  recorded : ∀ i ∈ s.recorded, i.dst ∈ s.environment ∧ i.src ∈ s.environment
  /-- The references of stores. -/
  storeReferences : ∀ t ∈ storeReferences s.program.instructions, t ∈ s.environment
  /-- The references of loads. -/
  loadReferences : ∀ t ∈ loadReferences s.program.instructions, t ∈ s.environment

theorem mem_round_of_mem {s : Solver} {t : Storage} (h : t ∈ s.environment) :
    t ∈ s.round.environment := by
  rw [round]
  split
  · exact h
  · exact mem_nextRound_iff.mpr (.inl h)

/-- The first round enters all that is on record after it, and later ones keep this up. -/
theorem entered_round {s : Solver} (h : s.atFixedPoint = true → s.Entered) : s.round.Entered := by
  cases hs : s.atFixedPoint with
  | true => rw [round_of_atFixedPoint hs]; exact h hs
  | false =>
    rw [round, hs]
    refine ⟨?_, fun t ht ↦ mem_nextRound_iff.mpr (.inr (.inl ht)),
      fun t ht ↦ mem_nextRound_iff.mpr (.inr (.inr (.inl ht)))⟩
    intro i hi
    have hi : i ∈ s.known ∨ i ∈ s.nextRound.stores ∨ i ∈ s.nextRound.loads := by
      rcases List.mem_append.mp hi with hi | hi
      · exact (List.mem_append.mp hi).imp mem_known_of_moves .inl
      · exact .inr (.inr hi)
    exact ⟨mem_nextRound_iff.mpr (.inr (.inr (.inr ⟨i, hi, .inl rfl⟩))),
      mem_nextRound_iff.mpr (.inr (.inr (.inr ⟨i, hi, .inr rfl⟩)))⟩

theorem entered_iterate_succ (p : Program) (o : Options) (k : Nat) :
    (Solver.round^[k + 1] (start p o)).Entered := by
  induction k with
  | zero => exact entered_round (s := start p o) fun h ↦ by cases h
  | succ k ih =>
    rw [Function.iterate_succ_apply']
    exact entered_round fun _ ↦ ih

theorem mem_iterate_of_mem_seed (p : Program) (o : Options) (k : Nat) {t : Storage}
    (h : t ∈ (Environment.seed p.instructions {}).1) :
    t ∈ (Solver.round^[k] (start p o)).environment :=
  Function.Iterate.rec (fun s : Solver ↦ t ∈ s.environment) h (fun _ ↦ mem_round_of_mem) k

/-! ## The entries at the fixed point -/

/-- **A settled state lacks no entry.**  The inclusions that its facts derive are on record, and so
have entries for both sides. -/
theorem Settled.mem_of_hasEntry {s : Solver} (h : s.Settled) (hentered : s.Entered)
    (hseed : ∀ t, t ∈ (Environment.seed s.program.instructions {}).1 → t ∈ s.environment)
    (hfacts : ∀ t l, Derives s.program.instructions t l → l ∈ s.environment.pointsTo t)
    {t : Storage} (ht : HasEntry s.program.instructions t) : t ∈ s.environment := by
  cases ht with
  | @alloca name hi =>
    obtain ⟨i, hi⟩ := exists_getElem?_of_alloca_mem hi
    exact hseed _ (Environment.mem_seed.mpr ⟨i, name, hi, .inl rfl⟩)
  | location hl =>
    refine hseed _ (Environment.mem_seed.mpr ⟨_, _, List.getElem?_eq_getElem hl, .inr ?_⟩)
    rw [Nat.zero_add]
  | moveDst hi => exact (hentered.recorded _ (mem_recorded_of_move hi)).1
  | moveSrc hi => exact (hentered.recorded _ (mem_recorded_of_move hi)).2
  | storeReference hi =>
    exact hentered.storeReferences _ (mem_storeReferences.mpr ⟨_, _, hi, rfl⟩)
  | loadReference hi =>
    exact hentered.loadReferences _ (mem_loadReferences.mpr ⟨_, _, hi, rfl⟩)
  | storeSrc hi hk =>
    exact (hentered.recorded _ (h.mem_recorded_of_store hi (hfacts _ _ hk))).2
  | loadDst hi hk =>
    exact (hentered.recorded _ (h.mem_recorded_of_load hi (hfacts _ _ hk))).1

/-- **At the fixed point the entries are those that belong to the program.** -/
theorem mem_iterate_iff_hasEntry (p : Program) (o : Options) (k : Nat)
    (h : (Solver.round^[k] (start p o)).atFixedPoint = true) {t : Storage} :
    t ∈ (Solver.round^[k] (start p o)).environment ↔ HasEntry p.instructions t := by
  refine ⟨(within_iterate p o k).environment.entries t, ?_⟩
  have hprogram : (Solver.round^[k] (start p o)).program = p := program_iterate_round _ k
  have hentered : (Solver.round^[k] (start p o)).Entered := by
    cases k with
    | zero => cases h
    | succ k => exact entered_iterate_succ p o k
  have hmem := (settled_iterate p o k h).mem_of_hasEntry hentered (t := t)
  rw [hprogram] at hmem
  exact hmem (fun _ ↦ mem_iterate_of_mem_seed p o k)
    fun _ _ ↦ (mem_iterate_iff_derives p o k h).mpr

end Solver

/-- **Facts and entries of a solution are determined by the program.** -/
theorem Program.exists_solution (p : Program) {o : Options} (h : o.maxRounds = none) :
    ∃ sol, p.solve o = .ok sol ∧
      (∀ t l, l ∈ sol.environment.pointsTo t ↔ Derives p.instructions t l) ∧
      ∀ t, t ∈ sol.environment ↔ HasEntry p.instructions t := by
  obtain ⟨k, hfixed, hrun⟩ := Solver.run_of_unlimited (s := Solver.start p o) h
  exact ⟨_, hrun, fun _ _ ↦ Solver.mem_iterate_iff_derives p o k hfixed,
    fun _ ↦ Solver.mem_iterate_iff_hasEntry p o k hfixed⟩

theorem Program.exists_analyze (p : Program) :
    ∃ e, p.analyze = .ok e ∧ (∀ t l, l ∈ e.pointsTo t ↔ Derives p.instructions t l) ∧
      ∀ t, t ∈ e ↔ HasEntry p.instructions t := by
  obtain ⟨sol, hsolve, hfacts, hentries⟩ := p.exists_solution (o := {}) rfl
  refine ⟨sol.environment, ?_, hfacts, hentries⟩
  rw [Program.analyze, hsolve]
  rfl

end PointsTo
