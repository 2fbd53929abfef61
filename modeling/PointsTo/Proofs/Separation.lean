import Mathlib.Data.List.Induction
import PointsTo.Proofs.KeptInclusions
import PointsTo.Proofs.Renaming

/-!
# Programs that share no name

Put two programs one after the other.  If they have no name in common, neither can reach what the
other holds, and the analysis of the whole should be that of the one next to that of the other, with
the locations numbered on.  A run does not keep them apart, though: each pass goes through the
inclusions of both, and when the one program has nothing more to find, its inclusions are derived
and passed over for as long as the other one needs.

The argument cuts the storage in two, by a test `own`.  Names, locations and inclusions stay on
their side of the cut, in every round (`Solver.stable_stays`).  So one can look at one side only:
the environments agree there with those of the program that consists of the instructions on that
side (`Solver.Follows`), round by round, up to the numbers of the locations.  A program that is
`Settled` early does no harm, since another round would leave it as it is.

The rest is counting.  No change is left for the whole exactly if none is left on either side, so
that the whole takes as many rounds as the slower of the two.
-/

set_option autoImplicit false

namespace PointsTo

open Std (ExtTreeSet)
open Inclusion

/-! ## Sides -/

/-- All names of the instruction are on the side. -/
def Instruction.within (own : Storage → Bool) (i : Instruction) : Bool :=
  i.names.all fun x ↦ own (.var x)

/-- The cut leads through no instruction, and each location is on the side of its variable. -/
structure Cuts (own : Storage → Bool) (is : List Instruction) : Prop where
  /-- The names of an instruction are on the same side. -/
  names : ∀ i ∈ is, ∀ x ∈ i.names, ∀ y ∈ i.names, own (.var x) = own (.var y)
  /-- A location is where the variable is that it is allocated for. -/
  locations : ∀ i name, (allocations is)[i]? = some name → own (.loc ⟨i⟩) = own (.var name)

/-- What storage points to is on its side. -/
def Environment.Stays (own : Storage → Bool) (e : Environment) : Prop :=
  ∀ t l, l ∈ e.pointsTo t → own (.loc l) = own t

/-- The inclusion leads from one side to the same. -/
def Inclusion.Stays (own : Storage → Bool) (i : Inclusion) : Prop := own i.dst = own i.src

section Cuts

variable {own : Storage → Bool} {is : List Instruction}

/-- An instruction has a name, so it is on the side of its names. -/
theorem Instruction.within_eq_of_forall {i : Instruction} {b : Bool}
    (h : ∀ x ∈ i.names, own (.var x) = b) : i.within own = b := by
  have hname : ∃ x, x ∈ i.names := by cases i <;> exact ⟨_, List.mem_cons_self⟩
  obtain ⟨x, hx⟩ := hname
  cases b with
  | true => exact List.all_eq_true.mpr h
  | false => exact List.all_eq_false.mpr ⟨x, hx, by simp [h x hx]⟩

theorem Cuts.within_eq (h : Cuts own is) {i : Instruction} (hi : i ∈ is) {x : String}
    (hx : x ∈ i.names) : i.within own = own (.var x) :=
  Instruction.within_eq_of_forall fun y hy ↦ h.names i hi y hy x hx

theorem Cuts.move (h : Cuts own is) {dst src : String} (hi : .move dst src ∈ is) :
    own (.var dst) = own (.var src) :=
  h.names _ hi _ (by simp [Instruction.names]) _ (by simp [Instruction.names])

theorem Cuts.load (h : Cuts own is) {dst reference : String} (hi : .load dst reference ∈ is) :
    own (.var dst) = own (.var reference) :=
  h.names _ hi _ (by simp [Instruction.names]) _ (by simp [Instruction.names])

theorem Cuts.store (h : Cuts own is) {reference src : String} (hi : .store reference src ∈ is) :
    own (.var reference) = own (.var src) :=
  h.names _ hi _ (by simp [Instruction.names]) _ (by simp [Instruction.names])

/-- The cut can be looked at from the other side. -/
theorem Cuts.other (h : Cuts own is) : Cuts (fun t ↦ !own t) is where
  names i hi x hx y hy := by rw [h.names i hi x hx y hy]
  locations i name hi := by rw [h.locations i name hi]

/-- Environments and inclusions that stay on their side hold each other up. -/
theorem Solver.stable_stays (h : Cuts own is) :
    Stable is (Environment.Stays own) (Inclusion.Stays own) where
  pass js e hj he := by
    refine forall_of_mem_propagate (F := fun t l ↦ own (.loc l) = own t) ?_ he
    exact fun i hi l hl ↦ hl.trans (hj i hi).symm
  storeEntries e he t l hl := he t l (by rwa [Environment.pointsTo_materializeAll] at hl)
  loadEntries e he t l hl := he t l (by rwa [Environment.pointsTo_materializeAll] at hl)
  stores e he i hi := by
    obtain ⟨reference, src, l, hstore, hl, rfl⟩ := mem_ofStores.mp hi
    exact (he _ l hl).trans (h.store hstore)
  loads e he i hi := by
    obtain ⟨dst, reference, l, hload, hl, rfl⟩ := mem_ofLoads.mp hi
    exact (h.load hload).trans (he _ l hl).symm

theorem Solver.has_stays_start {p : Program} (h : Cuts own p.instructions) (o : Options) :
    (Solver.start p o).Has (Environment.Stays own) (Inclusion.Stays own) := by
  refine ⟨fun t l hl ↦ ?_, fun i hi ↦ ?_⟩
  · obtain ⟨i, name, hi, rfl, rfl⟩ := Environment.mem_pointsTo_seed.mp hl
    rw [Nat.zero_add]
    exact h.locations i name hi
  · rw [Solver.recorded, Solver.start, List.append_nil, List.append_nil] at hi
    obtain ⟨dst, src, hmove, rfl⟩ := mem_ofMoves.mp hi
    exact h.move hmove

end Cuts

/-! ## Passes on one side -/

namespace Environment

/-- The two environments have the same sets on the side. -/
def AgreesOn (own : Storage → Bool) (a b : Environment) : Prop :=
  ∀ t, own t = true → a.pointsTo t = b.pointsTo t

namespace AgreesOn

variable {own : Storage → Bool} {a b : Environment}

theorem materializeAll (h : AgreesOn own a b) (ss ss' : List Storage) :
    AgreesOn own (a.materializeAll ss) (b.materializeAll ss') := by
  intro t ht
  rw [pointsTo_materializeAll, pointsTo_materializeAll, h t ht]

/-- On the side an inclusion does in both environments the same. -/
theorem evaluate (h : AgreesOn own a b) {i : Inclusion} (hdst : own i.dst = true)
    (hsrc : own i.src = true) :
    AgreesOn own (i.evaluate a).environment (i.evaluate b).environment := by
  intro t ht
  simp only [Inclusion.evaluate, pointsTo_unite, h _ hdst, h _ hsrc, h t ht]

/-- An inclusion on the other side does nothing here. -/
theorem evaluate_other (h : AgreesOn own a b) {i : Inclusion} (hdst : own i.dst = false) :
    AgreesOn own (i.evaluate a).environment b := by
  intro t ht
  have hne : t ≠ i.dst := by
    rintro rfl
    simp [ht] at hdst
  rw [Inclusion.evaluate, pointsTo_unite, if_neg hne, h t ht]

/-- **On one side, a pass does what a pass over the inclusions of that side does.** -/
theorem propagate {is : List Inclusion} (his : ∀ i ∈ is, i.Stays own) (h : AgreesOn own a b) :
    AgreesOn own (Inclusion.propagate is a).environment
      (Inclusion.propagate (is.filter fun i ↦ own i.dst) b).environment := by
  induction is generalizing a b with
  | nil => exact h
  | cons i is ih =>
    obtain ⟨hi, htail⟩ := List.forall_mem_cons.mp his
    rw [List.filter_cons]
    cases hdst : own i.dst with
    | true => exact ih htail (h.evaluate hdst (hi.symm.trans hdst))
    | false => exact ih htail (h.evaluate_other hdst)

end AgreesOn

end Environment

/-! ## Inclusions of one side -/

/-- Erasing repetitions and picking members can be done in either order. -/
theorem filter_eraseDups {α : Type} [BEq α] [LawfulBEq α] (pick : α → Bool) (xs : List α) :
    xs.eraseDups.filter pick = (xs.filter pick).eraseDups := by
  induction xs using List.reverseRecOn with
  | nil => rfl
  | append_singleton xs x ih =>
    rw [eraseDups_concat, List.filter_append]
    by_cases hx : pick x = true
    · by_cases hmem : x ∈ xs <;> simp [hx, hmem, ih, eraseDups_concat]
    · by_cases hmem : x ∈ xs <;> simp [hx, hmem, ih]

namespace Inclusion

section Cuts

variable {own : Storage → Bool} {is : List Instruction} (h : Cuts own is)
include h

/-- If each instruction gives inclusions of its own side, those of one side are given by the
instructions there. -/
theorem filter_eraseDups_flatMap {give give' : Instruction → List Inclusion}
    (hside : ∀ i ∈ is, ∀ j ∈ give i, ∃ x ∈ i.names, own j.dst = own (.var x))
    (hsame : ∀ i ∈ is, i.within own = true → give i = give' i) :
    (is.flatMap give).eraseDups.filter (fun j ↦ own j.dst) =
      ((is.filter (Instruction.within own)).flatMap give').eraseDups := by
  rw [filter_eraseDups, List.filter_flatMap]
  congr 1
  have hone : ∀ i ∈ is, ∀ j ∈ give i, own j.dst = i.within own := by
    intro i hi j hj
    obtain ⟨x, hx, heq⟩ := hside i hi j hj
    rw [heq, h.within_eq hi hx]
  clear h hside
  induction is with
  | nil => rfl
  | cons i is ih =>
    obtain ⟨hi, hone⟩ := List.forall_mem_cons.mp hone
    obtain ⟨hgive, hsame⟩ := List.forall_mem_cons.mp hsame
    rw [List.flatMap_cons, ih hsame hone]
    cases hwithin : i.within own with
    | true =>
      rw [List.filter_cons_of_pos hwithin, List.flatMap_cons, ← hgive hwithin]
      congr 1
      exact List.filter_eq_self.mpr fun j hj ↦ (hi j hj).trans hwithin
    | false =>
      have hnone : (give i).filter (fun j ↦ own j.dst) = [] :=
        List.filter_eq_nil_iff.mpr fun j hj ↦ by simp [hi j hj, hwithin]
      rw [List.filter_cons_of_neg (by simp [hwithin]), hnone, List.nil_append]

theorem filter_ofMoves :
    (ofMoves is).filter (fun j ↦ own j.dst) = ofMoves (is.filter (Instruction.within own)) := by
  refine filter_eraseDups_flatMap h (fun i _ j hj ↦ ?_) fun _ _ _ ↦ rfl
  cases i with
  | move dst src =>
    rw [ofMove, List.mem_singleton] at hj
    exact ⟨dst, by simp [Instruction.names], by rw [hj]⟩
  | alloca _ | load _ _ | store _ _ => simp [ofMove] at hj

theorem filter_ofStores {a b : Environment} (ha : a.Stays own) (hab : a.AgreesOn own b) :
    (ofStores is a).filter (fun j ↦ own j.dst) =
      ofStores (is.filter (Instruction.within own)) b := by
  refine filter_eraseDups_flatMap h (fun i _ j hj ↦ ?_) fun i hi hwithin ↦ ?_
  · cases i with
    | store reference src =>
      simp only [ofStore, List.mem_map, ExtTreeSet.mem_toList] at hj
      obtain ⟨l, hl, rfl⟩ := hj
      exact ⟨reference, by simp [Instruction.names], ha _ l hl⟩
    | alloca _ | move _ _ | load _ _ => simp [ofStore] at hj
  · cases i with
    | store reference src =>
      rw [h.within_eq hi (x := reference) (by simp [Instruction.names])] at hwithin
      rw [ofStore, ofStore, hab _ hwithin]
    | alloca _ | move _ _ | load _ _ => rfl

theorem filter_ofLoads {a b : Environment} (hab : a.AgreesOn own b) :
    (ofLoads is a).filter (fun j ↦ own j.dst) =
      ofLoads (is.filter (Instruction.within own)) b := by
  refine filter_eraseDups_flatMap h (fun i _ j hj ↦ ?_) fun i hi hwithin ↦ ?_
  · cases i with
    | load dst reference =>
      simp only [ofLoad, List.mem_map, ExtTreeSet.mem_toList] at hj
      obtain ⟨l, -, rfl⟩ := hj
      exact ⟨dst, by simp [Instruction.names], rfl⟩
    | alloca _ | move _ _ | store _ _ => simp [ofLoad] at hj
  · cases i with
    | load dst reference =>
      rw [h.within_eq hi (x := reference) (by simp [Instruction.names])] at hwithin
      rw [ofLoad, ofLoad, hab _ hwithin]
    | alloca _ | move _ _ | store _ _ => rfl

end Cuts

end Inclusion

namespace Solver

/-! ## Rounds on one side -/

/-- The second state is what can be seen of the first one on the side. -/
structure Follows (own : Storage → Bool) (s t : Solver) : Prop where
  /-- Its instructions are those on the side. -/
  instructions : t.program.instructions = s.program.instructions.filter (Instruction.within own)
  /-- Its rounds start with the same kinds of inclusions. -/
  keepDerived : t.options.keepDerived = s.options.keepDerived
  /-- It has found the same there. -/
  environment : s.environment.AgreesOn own t.environment
  /-- It has the inclusions of stores that lead there. -/
  stores : t.stores = s.stores.filter fun i ↦ own i.dst
  /-- It has the inclusions of loads that lead there. -/
  loads : t.loads = s.loads.filter fun i ↦ own i.dst

section Follows

variable {own : Storage → Bool} {s t : Solver}

theorem Follows.known (h : Follows own s t) (hcuts : Cuts own s.program.instructions) :
    t.known = s.known.filter fun i ↦ own i.dst := by
  have hmoves : t.moves = s.moves.filter fun i ↦ own i.dst := by
    rw [moves, moves, filter_ofMoves hcuts, h.instructions]
  rw [Solver.known, Solver.known, hmoves, h.stores, h.loads, h.keepDerived, List.filter_append,
    List.filter_append]
  cases s.options.keepDerived <;> rfl

/-- The passes of a round, one after the other. -/
theorem Follows.nextRound (h : Follows own s t) (hcuts : Cuts own s.program.instructions)
    (hs : s.Has (Environment.Stays own) (Inclusion.Stays own)) :
    s.nextRound.environment.AgreesOn own t.nextRound.environment ∧
      t.nextRound.stores = (s.nextRound.stores.filter fun i ↦ own i.dst) ∧
      t.nextRound.loads = s.nextRound.loads.filter fun i ↦ own i.dst := by
  have hstable := stable_stays hcuts
  obtain ⟨-, hstays, hstays'⟩ := hstable.nextRound hs
  have hknown : s.nextRound.knownPass.environment.AgreesOn own
      t.nextRound.knownPass.environment := by
    change Environment.AgreesOn own _ (propagate t.known t.environment).environment
    rw [h.known hcuts]
    exact h.environment.propagate fun i hi ↦ hs.recorded i (mem_recorded_of_known hi)
  have hstores : t.nextRound.stores = s.nextRound.stores.filter fun i ↦ own i.dst := by
    change ofStores t.program.instructions t.nextRound.knownPass.environment = _
    rw [h.instructions]
    exact (filter_ofStores hcuts (hstable.knownPass hs) hknown).symm
  have hstore : s.nextRound.storePass.environment.AgreesOn own
      t.nextRound.storePass.environment := by
    change Environment.AgreesOn own _ (propagate t.nextRound.stores _).environment
    rw [hstores]
    exact (hknown.materializeAll _ _).propagate hstays
  have hloads : t.nextRound.loads = s.nextRound.loads.filter fun i ↦ own i.dst := by
    change ofLoads t.program.instructions t.nextRound.storePass.environment = _
    rw [h.instructions]
    exact (filter_ofLoads hcuts hstore).symm
  have hload : s.nextRound.loadPass.environment.AgreesOn own
      t.nextRound.loadPass.environment := by
    change Environment.AgreesOn own _ (propagate t.nextRound.loads _).environment
    rw [hloads]
    exact (hstore.materializeAll _ _).propagate hstays'
  refine ⟨?_, hstores, hloads⟩
  change Environment.AgreesOn own _ (propagate t.nextRound.loads _).environment
  rw [hloads]
  exact hload.propagate hstays'

/-- **One round**, also if one of the two states is at its fixed point before the other. -/
theorem Follows.round (h : Follows own s t) (hcuts : Cuts own s.program.instructions)
    (hs : s.Has (Environment.Stays own) (Inclusion.Stays own))
    (hsettled : s.atFixedPoint = true → s.Settled) (hsettled' : t.atFixedPoint = true → t.Settled) :
    Follows own s.round t.round := by
  obtain ⟨henv, hstores, hloads⟩ := h.nextRound hcuts hs
  obtain ⟨hs₁, hs₂, hs₃⟩ := round_eq_nextRound hsettled
  obtain ⟨ht₁, ht₂, ht₃⟩ := round_eq_nextRound hsettled'
  refine ⟨by simp [h.instructions], by simp [h.keepDerived], fun u hu ↦ ?_, ?_, ?_⟩
  · rw [hs₁, ht₁, henv u hu]
  · rw [hs₂, ht₂, hstores]
  · rw [hs₃, ht₃, hloads]

/-- **Any number of rounds.** -/
theorem Follows.iterate (h : Follows own s t) (hcuts : Cuts own s.program.instructions)
    (hs : s.Has (Environment.Stays own) (Inclusion.Stays own)) (hrunning : s.atFixedPoint = false)
    (hrunning' : t.atFixedPoint = false) (k : Nat) :
    Follows own (Solver.round^[k] s) (Solver.round^[k] t) := by
  induction k with
  | zero => exact h
  | succ k ih =>
    rw [Function.iterate_succ_apply', Function.iterate_succ_apply']
    exact ih.round (by rwa [program_iterate_round]) ((stable_stays hcuts).iterate hs k)
      (settled_iterate_of_running hrunning k) (settled_iterate_of_running hrunning' k)

end Follows

end Solver

/-! ## A program on one side -/

/-- The second program consists of the instructions of the first one that are on the side, and `f`
takes the numbers of its locations to those that they have in the first one. -/
structure Component (own : Storage → Bool) (f : Nat → Nat) (is js : List Instruction) : Prop where
  /-- The cut leads through no instruction. -/
  cuts : Cuts own is
  /-- The instructions on the side, in order. -/
  instructions : js = is.filter (Instruction.within own)
  /-- The allocations on the side, with their numbers. -/
  numbers : ∀ i name, own (.var name) = true →
    ((allocations is)[i]? = some name ↔ ∃ j, (allocations js)[j]? = some name ∧ f j = i)
  /-- The numbers keep their order. -/
  strictMono : StrictMono f

namespace Component

variable {own : Storage → Bool} {f : Nat → Nat} {p q : Program}

section Instructions

variable {is js : List Instruction} (h : Component own f is js)
include h

theorem mem_iff {i : Instruction} {x : String} (hx : x ∈ i.names) :
    i ∈ js ↔ i ∈ is ∧ own (.var x) = true := by
  rw [h.instructions, List.mem_filter]
  exact and_congr_right fun hi ↦ by rw [h.cuts.within_eq hi hx]

theorem own_of_getElem? {j : Nat} {name : String} (hj : (allocations js)[j]? = some name) :
    own (.var name) = true :=
  ((h.mem_iff (by simp [Instruction.names])).mp (alloca_mem_of_getElem? hj)).2

/-- The instructions of the side are there, with the numbers of their locations. -/
theorem translates : Translates id f js is where
  alloca j name hj := (h.numbers _ name (h.own_of_getElem? hj)).mpr ⟨j, hj, rfl⟩
  other i hi _ := by
    rw [h.instructions] at hi
    simpa using List.mem_of_mem_filter hi

/-- All that the program mentions is on its side. -/
theorem own_relabel {s : Storage} (hs : s ∈ storages js) : own (s.relabel id f) = true := by
  cases s with
  | var x =>
    obtain ⟨i, hi, hx⟩ := exists_of_mem_mentioned (mem_mentioned_of_var_mem hs)
    exact ((h.mem_iff hx).mp hi).2
  | loc l =>
    have hname := List.getElem?_eq_getElem (location_lt_of_loc_mem hs)
    exact (h.cuts.locations _ _ (h.translates.alloca _ _ hname)).trans (h.own_of_getElem? hname)

end Instructions

variable (h : Component own f p.instructions q.instructions)
include h

theorem follows_start (o : Options) :
    Solver.Follows own (Solver.start p o) ((Solver.start q o).relabel id f) where
  instructions := by
    change q.instructions.map (Instruction.rename id) = p.instructions.filter _
    rw [← h.instructions, List.map_congr_left fun i _ ↦ i.rename_id, List.map_id']
  keepDerived := rfl
  environment t ht := by
    refine ExtTreeSet.ext_mem fun l ↦ ?_
    change l ∈ (Environment.seed p.instructions {}).1.pointsTo t ↔
      l ∈ ((Environment.seed q.instructions {}).1.relabel id f).pointsTo t
    rw [Environment.mem_pointsTo_relabel Function.injective_id h.strictMono]
    simp only [Environment.mem_pointsTo_seed, Nat.zero_add]
    refine ⟨?_, ?_⟩
    · rintro ⟨i, name, hi, rfl, rfl⟩
      obtain ⟨j, hj, rfl⟩ := (h.numbers i name ht).mp hi
      exact ⟨.var name, ⟨j⟩, ⟨j, name, hj, rfl, rfl⟩, rfl, rfl⟩
    · rintro ⟨_, _, ⟨j, name, hj, rfl, rfl⟩, rfl, rfl⟩
      exact ⟨f j, name, h.translates.alloca j name hj, rfl, rfl⟩
  stores := rfl
  loads := rfl

/-- **On its side, the rounds of the whole are those of the program.** -/
theorem agreesOn_iterate (o : Options) (k : Nat) :
    (Solver.round^[k] (Solver.start p o)).environment.AgreesOn own
      ((Solver.round^[k] (Solver.start q o)).environment.relabel id f) := by
  have hfollows := (h.follows_start o).iterate h.cuts (Solver.has_stays_start h.cuts o) rfl rfl k
  rw [Solver.iterate_relabel Function.injective_id h.strictMono] at hfollows
  exact hfollows.environment

/-- On the other side, the program has found nothing. -/
theorem pointsTo_relabel_of_other (o : Options) (k : Nat) {t : Storage} (ht : own t = false) :
    ((Solver.round^[k] (Solver.start q o)).environment.relabel id f).pointsTo t = ∅ := by
  refine ExtTreeSet.ext_mem fun l ↦ iff_of_false (fun hl ↦ ?_) ExtTreeSet.not_mem_empty
  obtain ⟨s, k', hk, rfl, rfl⟩ :=
    (Environment.mem_pointsTo_relabel Function.injective_id h.strictMono).mp hl
  have hs := (Solver.derives_of_mem_iterate q o k hk).storage_mem
  rw [h.own_relabel hs] at ht
  cases ht

/-- **The program has no change left exactly if the whole moves nothing on its side.** -/
theorem roundsLeft_le_iff (o : Options) (k : Nat) :
    (Solver.start q o).roundsLeft ≤ k ↔ ∀ t, own t = true →
      (Solver.round^[k + 1] (Solver.start p o)).environment.pointsTo t =
        (Solver.round^[k] (Solver.start p o)).environment.pointsTo t := by
  rw [← Solver.roundsLeft_relabel Function.injective_id h.strictMono, Solver.roundsLeft_le_iff]
  simp only [Solver.iterate_relabel Function.injective_id h.strictMono]
  have hagrees := h.agreesOn_iterate o
  refine ⟨fun hsame t ht ↦ ?_, fun hsame t ↦ ?_⟩
  · rw [hagrees (k + 1) t ht, hagrees k t ht]
    exact hsame t
  · cases ht : own t with
    | true =>
      have heq := hsame t ht
      rwa [hagrees (k + 1) t ht, hagrees k t ht] at heq
    | false =>
      exact (h.pointsTo_relabel_of_other o (k + 1) ht).trans
        (h.pointsTo_relabel_of_other o k ht).symm

/-! ### In the end -/

theorem agreesOn_last (o : Options) :
    (Solver.start p o).last.environment.AgreesOn own
      ((Solver.start q o).last.environment.relabel id f) := by
  have hlate := h.agreesOn_iterate o
    ((Solver.start p o).roundsLeft + (Solver.start q o).roundsLeft + 1)
  rwa [Solver.iterate_eq_last (by omega), Solver.iterate_eq_last (by omega)] at hlate

/-- What is derivable on the side is derivable from the program alone. -/
theorem exists_derives {t : Storage} {l : Location} (hd : Derives p.instructions t l)
    (ht : own t = true) :
    ∃ s k, Derives q.instructions s k ∧ s.relabel id f = t ∧ k.renumber f = l := by
  rw [← Solver.mem_pointsTo_last_start_iff p {}, h.agreesOn_last {} t ht,
    Environment.mem_pointsTo_relabel Function.injective_id h.strictMono] at hd
  simpa only [Solver.mem_pointsTo_last_start_iff] using hd

/-- A reference on the side that points somewhere does so in the program alone. -/
theorem exists_derives_var {x : String} {l : Location} (hd : Derives p.instructions (.var x) l)
    (hx : own (.var x) = true) : ∃ k, Derives q.instructions (.var x) k := by
  obtain ⟨s, k, hk, hs, -⟩ := h.exists_derives hd hx
  cases s with
  | var y => cases hs; exact ⟨k, hk⟩
  | loc _ => cases hs

/-- The entries on the side are those of the program alone. -/
theorem exists_hasEntry {t : Storage} (hentry : HasEntry p.instructions t) (ht : own t = true) :
    ∃ s, HasEntry q.instructions s ∧ s.relabel id f = t := by
  have hback : ∀ {i : Instruction} {x : String}, i ∈ p.instructions → x ∈ i.names →
      own (.var x) = true → i ∈ q.instructions := fun hi hx hown ↦ (h.mem_iff hx).mpr ⟨hi, hown⟩
  cases hentry with
  | alloca hi => exact ⟨_, .alloca (hback hi (by simp [Instruction.names]) ht), rfl⟩
  | location hl =>
    have hname := List.getElem?_eq_getElem hl
    obtain ⟨j, hj, heq⟩ := (h.numbers _ _ ((h.cuts.locations _ _ hname).symm.trans ht)).mp hname
    exact ⟨.loc ⟨j⟩, .location (List.getElem?_eq_some_iff.mp hj).1,
      congrArg (Storage.loc ∘ Location.mk) heq⟩
  | moveDst hi => exact ⟨_, .moveDst (hback hi (by simp [Instruction.names]) ht), rfl⟩
  | moveSrc hi => exact ⟨_, .moveSrc (hback hi (by simp [Instruction.names]) ht), rfl⟩
  | storeReference hi =>
    exact ⟨_, .storeReference (hback hi (by simp [Instruction.names]) ht), rfl⟩
  | loadReference hi => exact ⟨_, .loadReference (hback hi (by simp [Instruction.names]) ht), rfl⟩
  | storeSrc hi hk =>
    -- the entry is made because the reference points somewhere, and that is on the same side
    obtain ⟨k, hk⟩ := h.exists_derives_var hk ((h.cuts.store hi).trans ht)
    exact ⟨_, .storeSrc (hback hi (by simp [Instruction.names]) ht) hk, rfl⟩
  | loadDst hi hk =>
    obtain ⟨k, hk⟩ := h.exists_derives_var hk ((h.cuts.load hi).symm.trans ht)
    exact ⟨_, .loadDst (hback hi (by simp [Instruction.names]) ht) hk, rfl⟩

/-- **In the end the side has the entries of the program**, with their sets. -/
theorem entries_perm (o : Options) :
    ((Solver.start p o).last.environment.entries.filter fun entry ↦ own entry.1).Perm
      ((Solver.start q o).last.environment.entries.map fun entry ↦
        (entry.1.relabel id f, entry.2.renumber f)) := by
  have hinj := Storage.relabel_injective Function.injective_id h.strictMono.injective
  have hsets : ∀ s, own (s.relabel id f) = true →
      (Solver.start p o).last.environment.pointsTo (s.relabel id f) =
        ((Solver.start q o).last.environment.pointsTo s).renumber f := by
    intro s hs
    rw [h.agreesOn_last o _ hs, Environment.pointsTo_relabel Function.injective_id h.strictMono]
  refine (List.perm_ext_iff_of_nodup ?_ ?_).mpr ?_
  · exact (List.Nodup.of_map _ (Environment.nodup_fst_entries _)).filter _
  · refine List.Nodup.of_map Prod.fst ?_
    have hnodup := (Environment.nodup_fst_entries (Solver.start q o).last.environment).map hinj
    rwa [List.map_map] at hnodup ⊢
  · rintro ⟨t, a⟩
    simp only [List.mem_filter, List.mem_map, Environment.mem_entries, Solver.mem_last_start_iff,
      Prod.exists, Prod.mk.injEq]
    refine ⟨?_, ?_⟩
    · rintro ⟨⟨hentry, rfl⟩, ht⟩
      obtain ⟨s, hs, rfl⟩ := h.exists_hasEntry hentry ht
      exact ⟨s, _, ⟨hs, rfl⟩, rfl, (hsets s ht).symm⟩
    · rintro ⟨s, _, ⟨hs, rfl⟩, rfl, rfl⟩
      have ht := h.own_relabel hs.storage_mem
      exact ⟨⟨hs.relabel h.translates, hsets s ht⟩, ht⟩

end Component

/-! ## Two programs, one after the other -/

section Append

variable {is js : List Instruction}

theorem allocations_append (is js : List Instruction) :
    allocations (is ++ js) = allocations is ++ allocations js :=
  List.filterMap_append

/-- The storage is a variable or a location of the program. -/
def Storage.belongsTo (is : List Instruction) (t : Storage) : Bool := decide (t ∈ storages is)

theorem belongsTo_var {i : Instruction} (hi : i ∈ is) {x : String} (hx : x ∈ i.names) :
    Storage.belongsTo is (.var x) = true :=
  decide_eq_true (var_mem_storages hi hx)

variable (h : ∀ x ∈ mentioned is, x ∉ mentioned js)
include h

theorem belongsTo_var_other {i : Instruction} (hi : i ∈ js) {x : String} (hx : x ∈ i.names) :
    Storage.belongsTo is (.var x) = false :=
  decide_eq_false fun hmem ↦ h x (mem_mentioned_of_var_mem hmem) (mem_mentioned hi hx)

/-- An allocation of the whole is one of the first program, or one of the second that is numbered on
from there.  Either way its location is on the side of its variable. -/
theorem getElem?_allocations_append {i : Nat} {name : String}
    (hi : (allocations (is ++ js))[i]? = some name) :
    (allocations is)[i]? = some name ∧ Storage.belongsTo is (.loc ⟨i⟩) = true ∧
        Storage.belongsTo is (.var name) = true ∨
      (∃ j, (allocations js)[j]? = some name ∧ j + (allocations is).length = i) ∧
        Storage.belongsTo is (.loc ⟨i⟩) = false ∧ Storage.belongsTo is (.var name) = false := by
  rw [allocations_append, List.getElem?_append] at hi
  split at hi
  · next hlt =>
    exact .inl ⟨hi, decide_eq_true (loc_mem_storages hlt),
      belongsTo_var (alloca_mem_of_getElem? hi) (by simp [Instruction.names])⟩
  · next hge =>
    exact .inr ⟨⟨_, hi, by omega⟩,
      decide_eq_false fun hmem ↦ hge (location_lt_of_loc_mem hmem),
      belongsTo_var_other h (alloca_mem_of_getElem? hi) (by simp [Instruction.names])⟩

/-- **Programs that share no name can be cut apart.** -/
theorem cuts_append : Cuts (Storage.belongsTo is) (is ++ js) where
  names i hi x hx y hy := by
    rcases List.mem_append.mp hi with hi | hi
    · rw [belongsTo_var hi hx, belongsTo_var hi hy]
    · rw [belongsTo_var_other h hi hx, belongsTo_var_other h hi hy]
  locations i name hi := by
    rcases getElem?_allocations_append h hi with ⟨-, hloc, hvar⟩ | ⟨-, hloc, hvar⟩
    · rw [hloc, hvar]
    · rw [hloc, hvar]

/-- The first program keeps its numbers. -/
theorem component_left : Component (Storage.belongsTo is) id (is ++ js) is where
  cuts := cuts_append h
  instructions := by
    have hin : ∀ i ∈ is, i.within (Storage.belongsTo is) = true := fun i hi ↦
      Instruction.within_eq_of_forall fun x ↦ belongsTo_var hi
    have hout : ∀ i ∈ js, i.within (Storage.belongsTo is) = false := fun i hi ↦
      Instruction.within_eq_of_forall fun x ↦ belongsTo_var_other h hi
    rw [List.filter_append, List.filter_eq_self.mpr hin,
      List.filter_eq_nil_iff.mpr fun i hi ↦ by simp [hout i hi], List.append_nil]
  numbers i name hname := by
    refine ⟨fun hi ↦ ?_, ?_⟩
    · rcases getElem?_allocations_append h hi with ⟨hi, -, -⟩ | ⟨-, -, hvar⟩
      · exact ⟨i, hi, rfl⟩
      · simp [hvar] at hname
    · rintro ⟨i, hi, rfl⟩
      rw [allocations_append]
      exact (List.getElem?_append_left (List.getElem?_eq_some_iff.mp hi).1).trans hi
  strictMono := strictMono_id

theorem component_right :
    Component (fun t ↦ !Storage.belongsTo is t) (· + (allocations is).length) (is ++ js) js where
  cuts := (cuts_append h).other
  instructions := by
    have hout : ∀ i ∈ is, i.within (fun t ↦ !Storage.belongsTo is t) = false := fun i hi ↦
      Instruction.within_eq_of_forall fun x hx ↦ by simp [belongsTo_var hi hx]
    have hin : ∀ i ∈ js, i.within (fun t ↦ !Storage.belongsTo is t) = true := fun i hi ↦
      Instruction.within_eq_of_forall fun x hx ↦ by simp [belongsTo_var_other h hi hx]
    rw [List.filter_append, List.filter_eq_nil_iff.mpr fun i hi ↦ by simp [hout i hi],
      List.filter_eq_self.mpr hin, List.nil_append]
  numbers i name hname := by
    refine ⟨fun hi ↦ ?_, ?_⟩
    · rcases getElem?_allocations_append h hi with ⟨-, -, hvar⟩ | ⟨hj, -, -⟩
      · simp [hvar] at hname
      · exact hj
    · rintro ⟨j, hj, rfl⟩
      rw [allocations_append, List.getElem?_append_right (Nat.le_add_left _ _),
        Nat.add_sub_cancel, hj]
  strictMono _ _ hlt := Nat.add_lt_add_right hlt _

end Append

/-- If a program is cut in two, **it takes as many rounds as the slower part**. -/
theorem roundsLeft_eq_max {own : Storage → Bool} {f g : Nat → Nat} {p q r : Program}
    (hq : Component own f p.instructions q.instructions)
    (hr : Component (fun t ↦ !own t) g p.instructions r.instructions) (o : Options) :
    (Solver.start p o).roundsLeft =
      max (Solver.start q o).roundsLeft (Solver.start r o).roundsLeft := by
  refine eq_of_forall_ge_iff fun k ↦ ?_
  rw [Nat.max_le, hq.roundsLeft_le_iff, hr.roundsLeft_le_iff, Solver.roundsLeft_le_iff]
  refine ⟨fun hsame ↦ ⟨fun t _ ↦ hsame t, fun t _ ↦ hsame t⟩, fun ⟨hown, hother⟩ t ↦ ?_⟩
  cases ht : own t with
  | true => exact hown t ht
  | false => exact hother t (by simp [ht])

/-- **Unrelated code does not interfere.**  If two programs share no name, the one followed by the
other has the entries of both, with the same sets, the locations of the second program numbered on
from those of the first; and it takes as many rounds as the slower of the two. -/
theorem Program.solve_append (p q : Program) (keep : Bool)
    (h : ∀ x ∈ mentioned p.instructions, x ∉ mentioned q.instructions) :
    let o : Options := { maxRounds := none, keepDerived := keep }
    let shift := (· + (allocations p.instructions).length)
    ∃ sol solp solq, Program.solve ⟨p.instructions ++ q.instructions⟩ o = .ok sol ∧
      p.solve o = .ok solp ∧ q.solve o = .ok solq ∧
      sol.environment.entries.Perm (solp.environment.entries ++
        solq.environment.entries.map fun entry ↦
          (entry.1.relabel id shift, entry.2.renumber shift)) ∧
      sol.rounds = max solp.rounds solq.rounds := by
  intro o shift
  let whole : Program := ⟨p.instructions ++ q.instructions⟩
  have hleft : Component _ id whole.instructions p.instructions := component_left h
  have hright : Component _ shift whole.instructions q.instructions := component_right h
  refine ⟨_, _, _, whole.solve_of_unlimited rfl, p.solve_of_unlimited rfl,
    q.solve_of_unlimited rfl, ?_, ?_⟩
  · have hperm := (hleft.entries_perm o).append (hright.entries_perm o)
    simp only [Storage.relabel_id, PointsToSet.renumber_id, List.map_id'] at hperm
    exact (List.filter_append_perm _ _).symm.trans hperm
  · change (Solver.start whole o).last.rounds =
      max (Solver.start p o).last.rounds (Solver.start q o).last.rounds
    simp only [Solver.rounds_last_start]
    exact roundsLeft_eq_max hleft hright o

/-- The first program is done after one round and the second one goes on, through its own heap. -/
theorem Program.solve_append_slower :
    let p : Program := ⟨[.alloca "a", .alloca "b", .store "a" "b", .load "c" "a"]⟩
    let q : Program := ⟨[.move "z" "y", .move "y" "x", .load "x" "u", .store "u" "v", .alloca "u",
      .alloca "v"]⟩
    let o : Options := { maxRounds := none, keepDerived := false }
    (∀ x ∈ mentioned p.instructions, x ∉ mentioned q.instructions) ∧
    ∃ sol solp solq, Program.solve ⟨p.instructions ++ q.instructions⟩ o = .ok sol ∧
      p.solve o = .ok solp ∧ q.solve o = .ok solq ∧
      sol.environment.entries.Perm (solp.environment.entries ++
        solq.environment.entries.map fun entry ↦
          (entry.1.relabel id (· + 2), entry.2.renumber (· + 2))) ∧
      solp.rounds < solq.rounds ∧ sol.rounds = solq.rounds := by
  intro p q o
  have hdisjoint : ∀ x ∈ mentioned p.instructions, x ∉ mentioned q.instructions := by decide
  obtain ⟨sol, solp, solq, hsol, hsolp, hsolq, hentries, hrounds⟩ :=
    Program.solve_append p q false hdisjoint
  have hp : (p.solve o).toOption.map (·.rounds) = some 1 := by decide +kernel
  have hq : (q.solve o).toOption.map (·.rounds) = some 3 := by decide +kernel
  rw [hsolp] at hp
  rw [hsolq] at hq
  have hp : solp.rounds = 1 := Option.some.inj hp
  have hq : solq.rounds = 3 := Option.some.inj hq
  exact ⟨hdisjoint, sol, solp, solq, hsol, hsolp, hsolq, hentries, by omega, by omega⟩

end PointsTo
