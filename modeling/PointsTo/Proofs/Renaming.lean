import Mathlib.Order.Monotone.Basic
import PointsTo.Proofs.Explanation
import PointsTo.Proofs.RoundLimit
import PointsTo.Proofs.Translation

/-!
# Names do not matter

Entries are kept in the order of names, inclusions are told apart by names, and a variable may even
be spelled like a location.  Still, nothing that a round does depends on a name, and on numbers of
locations only as far as their order goes.  Give all variables other names, no two the same, and all
locations other numbers, in the same order (`relabel`).  Then whatever a round did before it does
now, on relabelled data: this is shown for sets, environments, passes, derived inclusions, and
finally for a round (`Solver.round_relabel`).  So two whole runs agree, with their counts of rounds
and the order of their inclusions.

The names of a program can be told apart under a renaming that confuses names which the program does
not mention.  It makes no difference, because on the names that are mentioned it agrees with one
that confuses no names at all (`exists_injective_eqOn`).

A renaming that does confuse names of the program still translates it, so no fact is lost.
-/

set_option autoImplicit false

namespace PointsTo

open Std (ExtTreeSet ExtTreeMap)

/-! ## Lists and names -/

/-- Erasing repetitions does not look at what the members are. -/
theorem eraseDups_map_of_injective {α β : Type} [BEq α] [LawfulBEq α] [BEq β] [LawfulBEq β]
    {g : α → β} (hg : Function.Injective g) :
    ∀ xs : List α, (xs.map g).eraseDups = xs.eraseDups.map g
  | [] => rfl
  | x :: xs => by
    have hfilter : (fun b ↦ !b == g x) ∘ g = fun a ↦ !a == x := by
      funext a
      simp [hg.eq_iff]
    rw [List.map_cons, List.eraseDups_cons, List.eraseDups_cons, List.map_cons, List.filter_map,
      hfilter, eraseDups_map_of_injective hg]
termination_by xs => xs.length
decreasing_by
  rw [List.length_cons]
  exact Nat.lt_succ_of_le (List.length_filter_le ..)

/-- What is picked from the instructions one by one can be picked from the renamed ones. -/
theorem filterMap_rename {α β : Type} {r : String → String} {pick : Instruction → Option α}
    {pick' : Instruction → Option β} {g : α → β} (h : ∀ i, pick' (i.rename r) = (pick i).map g)
    (is : List Instruction) :
    (is.map (Instruction.rename r)).filterMap pick' = (is.filterMap pick).map g := by
  rw [List.filterMap_map, List.map_filterMap]
  exact List.filterMap_congr fun i _ ↦ h i

theorem allocations_rename (r : String → String) (is : List Instruction) :
    allocations (is.map (Instruction.rename r)) = (allocations is).map r :=
  filterMap_rename (fun i ↦ by cases i <;> rfl) is

/-- A renaming that tells the names of a list apart agrees there with one that tells all names
apart: the others receive names that are too long to be among the new ones. -/
theorem exists_injective_eqOn {r : String → String} {names : List String}
    (h : Set.InjOn r {x | x ∈ names}) :
    ∃ g : String → String, Function.Injective g ∧ ∀ x ∈ names, g x = r x := by
  obtain ⟨n, hn⟩ : ∃ n, ∀ x ∈ names, (r x).length < n := by
    clear h
    induction names with
    | nil => exact ⟨0, by simp⟩
    | cons x names ih =>
      obtain ⟨n, hn⟩ := ih
      refine ⟨max n ((r x).length + 1), List.forall_mem_cons.mpr ⟨by omega, fun y hy ↦ ?_⟩⟩
      have := hn y hy
      omega
  let pad := String.ofList (List.replicate n '_')
  have hlong : ∀ x, n ≤ (pad ++ x).length := by
    intro x
    rw [String.length_append, String.length_ofList, List.length_replicate]
    omega
  refine ⟨fun x ↦ if x ∈ names then r x else pad ++ x, ?_, fun x hx ↦ if_pos hx⟩
  intro x y hxy
  dsimp only at hxy
  split at hxy <;> split at hxy
  · next hx hy => exact h hx hy hxy
  · next hx _ =>
    have := hn x hx
    have := hlong y
    rw [hxy] at *
    omega
  · next _ hy =>
    have := hn y hy
    have := hlong x
    rw [hxy] at *
    omega
  · exact String.append_right_inj pad |>.mp hxy

namespace Storage

theorem relabel_injective {r : String → String} {f : Nat → Nat} (hr : Function.Injective r)
    (hf : Function.Injective f) : Function.Injective (Storage.relabel r f) := by
  intro s t h
  cases s with
  | var x =>
    cases t with
    | var y => exact congrArg Storage.var (hr (Storage.var.inj h))
    | loc _ => cases h
  | loc k =>
    cases t with
    | var _ => cases h
    | loc l => exact congrArg (Storage.loc ∘ Location.mk) (hf (Location.mk.inj (Storage.loc.inj h)))

end Storage

/-! ## Sets -/

namespace PointsToSet

variable {f : Nat → Nat}

@[simp] theorem renumber_id (a : PointsToSet) : a.renumber id = a :=
  ExtTreeSet.ext_mem fun l ↦ by simp [mem_renumber]

@[simp] theorem renumber_empty (f : Nat → Nat) : renumber f ∅ = ∅ :=
  ExtTreeSet.ext_mem fun l ↦ by simp [mem_renumber]

theorem renumber_union (f : Nat → Nat) (a b : PointsToSet) :
    (a ∪ b).renumber f = a.renumber f ∪ b.renumber f := by
  refine ExtTreeSet.ext_mem fun l ↦ ?_
  simp only [mem_renumber, ExtTreeSet.mem_union_iff, or_and_right, exists_or]

/-- If numbers keep their order, so does the list of the members. -/
theorem toList_renumber (hf : StrictMono f) (a : PointsToSet) :
    (a.renumber f).toList = a.toList.map (Location.renumber f) := by
  have hlt : ∀ k l : Location, compare k l = .lt ↔ k.index < l.index :=
    fun _ _ ↦ Nat.compare_eq_lt
  have hordered : ∀ b : PointsToSet, b.toList.Pairwise fun k l ↦ k.index < l.index :=
    fun b ↦ b.ordered_toList.imp (hlt _ _).mp
  have hmap : (a.toList.map (Location.renumber f)).Pairwise fun k l ↦ k.index < l.index :=
    List.pairwise_map.mpr ((hordered a).imp fun h ↦ hf h)
  -- two lists in order with the same members
  refine List.Perm.eq_of_pairwise (fun k l _ _ hkl hlk ↦ ?_) (hordered _) hmap ?_
  · omega
  · refine (List.perm_ext_iff_of_nodup (nodup_toList _) (hmap.imp fun h heq ↦ ?_)).mpr fun l ↦ ?_
    · exact Nat.lt_irrefl _ (heq ▸ h)
    · rw [ExtTreeSet.mem_toList, mem_renumber, List.mem_map]
      simp only [ExtTreeSet.mem_toList]

theorem size_renumber (hf : StrictMono f) (a : PointsToSet) : (a.renumber f).size = a.size := by
  rw [← ExtTreeSet.length_toList, toList_renumber hf, List.length_map, ExtTreeSet.length_toList]

end PointsToSet

/-! ## Environments -/

namespace Environment

/-- The environment under other names and numbers. -/
def relabel (r : String → String) (f : Nat → Nat) (e : Environment) : Environment :=
  ⟨ExtTreeMap.ofList (e.entries.map fun entry ↦ (entry.1.relabel r f, entry.2.renumber f))⟩

/-- An update under other names and numbers. -/
def Update.relabel (r : String → String) (f : Nat → Nat) (u : Update) : Update :=
  ⟨u.environment.relabel r f, u.grew⟩

theorem mem_relabel {r : String → String} {f : Nat → Nat} {e : Environment} {t : Storage} :
    t ∈ e.relabel r f ↔ ∃ s, s ∈ e ∧ s.relabel r f = t := by
  refine ExtTreeMap.mem_ofList.trans ?_
  rw [List.contains_iff_mem, List.map_map, List.mem_map]
  constructor
  · rintro ⟨⟨s, a⟩, hs, rfl⟩
    exact ⟨s, (mem_entries.mp hs).1, rfl⟩
  · rintro ⟨s, hs, rfl⟩
    exact ⟨(s, e.pointsTo s), mem_entries.mpr ⟨hs, rfl⟩, rfl⟩

section Relabel

variable {r : String → String} {f : Nat → Nat} (hr : Function.Injective r) (hf : StrictMono f)
include hr hf

theorem pointsTo_relabel (e : Environment) (s : Storage) :
    (e.relabel r f).pointsTo (s.relabel r f) = (e.pointsTo s).renumber f := by
  have hinj := Storage.relabel_injective hr hf.injective
  by_cases hs : s ∈ e
  · refine ExtTreeMap.getD_ofList_of_mem Std.ReflCmp.compare_self ?_
      (List.mem_map.mpr ⟨_, mem_entries.mpr ⟨hs, rfl⟩, rfl⟩)
    refine List.pairwise_map.mpr (e.sets.distinct_keys_toList.imp fun hne heq ↦ ?_)
    rw [Std.compare_eq_iff_eq] at hne heq
    exact hne (hinj heq)
  · have ht : ¬ s.relabel r f ∈ e.relabel r f := by
      rintro h
      obtain ⟨u, hu, heq⟩ := mem_relabel.mp h
      exact hs (hinj heq ▸ hu)
    rw [pointsTo_of_not_mem hs, pointsTo_of_not_mem ht, PointsToSet.renumber_empty]

/-- The facts of a relabelled environment are the relabelled facts. -/
theorem mem_pointsTo_relabel {e : Environment} {t : Storage} {l : Location} :
    l ∈ (e.relabel r f).pointsTo t ↔
      ∃ s k, k ∈ e.pointsTo s ∧ s.relabel r f = t ∧ k.renumber f = l := by
  refine ⟨fun h ↦ ?_, ?_⟩
  · obtain ⟨s, -, rfl⟩ := mem_relabel.mp (mem_of_mem_pointsTo h)
    rw [pointsTo_relabel hr hf, PointsToSet.mem_renumber] at h
    obtain ⟨k, hk, rfl⟩ := h
    exact ⟨s, k, hk, rfl, rfl⟩
  · rintro ⟨s, k, hk, rfl, rfl⟩
    rw [pointsTo_relabel hr hf]
    exact PointsToSet.mem_renumber.mpr ⟨k, hk, rfl⟩

/-- **Entries and sets determine the relabelled environment.** -/
theorem eq_relabel {e e' : Environment} (hmem : ∀ t, t ∈ e' ↔ ∃ s, s ∈ e ∧ s.relabel r f = t)
    (hsets : ∀ s, e'.pointsTo (s.relabel r f) = (e.pointsTo s).renumber f) :
    e' = e.relabel r f := by
  refine eq_of_mem_iff_of_pointsTo_eq (fun t ↦ (hmem t).trans mem_relabel.symm) fun t ↦ ?_
  by_cases ht : t ∈ e'
  · obtain ⟨s, -, rfl⟩ := (hmem t).mp ht
    rw [hsets, pointsTo_relabel hr hf]
  · rw [pointsTo_of_not_mem ht, pointsTo_of_not_mem fun h ↦ ht ((hmem t).mpr (mem_relabel.mp h))]

theorem relabel_set (e : Environment) (s : Storage) (a : PointsToSet) :
    (e.set s a).relabel r f = (e.relabel r f).set (s.relabel r f) (a.renumber f) := by
  have hinj := Storage.relabel_injective hr hf.injective
  refine (eq_relabel hr hf (fun t ↦ ?_) fun u ↦ ?_).symm
  · rw [mem_set, eq_comm]
    simp only [mem_set, mem_relabel, or_and_right, exists_or, exists_eq_left]
  · simp only [pointsTo_set, hinj.eq_iff, pointsTo_relabel hr hf]
    split <;> rfl

theorem relabel_materialize (e : Environment) (s : Storage) :
    (e.materialize s).relabel r f = (e.relabel r f).materialize (s.relabel r f) := by
  refine (eq_relabel hr hf (fun t ↦ ?_) fun u ↦ ?_).symm
  · rw [mem_materialize, eq_comm]
    simp only [mem_materialize, mem_relabel, or_and_right, exists_or, exists_eq_left]
  · rw [pointsTo_materialize, pointsTo_materialize, pointsTo_relabel hr hf]

theorem relabel_materializeAll (e : Environment) (ss : List Storage) :
    (e.materializeAll ss).relabel r f =
      (e.relabel r f).materializeAll (ss.map (Storage.relabel r f)) := by
  induction ss generalizing e with
  | nil => rfl
  | cons s ss ih =>
    rw [materializeAll, List.foldl_cons, List.map_cons, materializeAll, List.foldl_cons,
      ← relabel_materialize hr hf]
    exact ih _

theorem unite_relabel (e : Environment) (dst src : Storage) :
    (e.relabel r f).unite (dst.relabel r f) (src.relabel r f) =
      (e.unite dst src).relabel r f := by
  simp only [unite, Update.relabel, pointsTo_relabel hr hf, ← PointsToSet.renumber_union,
    PointsToSet.size_renumber hf, relabel_set hr hf, relabel_materialize hr hf]

end Relabel

end Environment

/-! ## Inclusions and passes -/

namespace Inclusion

/-- The inclusion under other names and numbers. -/
def relabel (r : String → String) (f : Nat → Nat) (i : Inclusion) : Inclusion :=
  ⟨i.dst.relabel r f, i.src.relabel r f⟩

/-- A growth under other names and numbers. -/
def Growth.relabel (r : String → String) (f : Nat → Nat) (g : Growth) : Growth :=
  ⟨g.inclusion.relabel r f, g.set.renumber f⟩

/-- A pass under other names and numbers. -/
def Propagation.relabel (r : String → String) (f : Nat → Nat) (p : Propagation) : Propagation :=
  ⟨p.environment.relabel r f, p.growths.map (Growth.relabel r f)⟩

theorem Propagation.grew_relabel (r : String → String) (f : Nat → Nat) (p : Propagation) :
    (p.relabel r f).grew = p.grew := by
  rw [grew, grew, relabel, List.isEmpty_map]

theorem relabel_injective {r : String → String} {f : Nat → Nat} (hr : Function.Injective r)
    (hf : Function.Injective f) : Function.Injective (Inclusion.relabel r f) := by
  have hinj := Storage.relabel_injective hr hf
  intro i j h
  cases i
  cases j
  obtain ⟨hdst, hsrc⟩ := Inclusion.mk.inj h
  exact congrArg₂ Inclusion.mk (hinj hdst) (hinj hsrc)

theorem storeReferences_rename (r : String → String) (f : Nat → Nat) (is : List Instruction) :
    storeReferences (is.map (Instruction.rename r)) =
      (storeReferences is).map (Storage.relabel r f) :=
  filterMap_rename (fun i ↦ by cases i <;> rfl) is

theorem loadReferences_rename (r : String → String) (f : Nat → Nat) (is : List Instruction) :
    loadReferences (is.map (Instruction.rename r)) =
      (loadReferences is).map (Storage.relabel r f) :=
  filterMap_rename (fun i ↦ by cases i <;> rfl) is

section Relabel

variable {r : String → String} {f : Nat → Nat} (hr : Function.Injective r) (hf : StrictMono f)
include hr hf

/-- **A pass does the same under other names and numbers.** -/
theorem propagate_relabel (is : List Inclusion) (e : Environment) :
    propagate (is.map (relabel r f)) (e.relabel r f) = (propagate is e).relabel r f := by
  induction is generalizing e with
  | nil => rfl
  | cons i is ih =>
    have hevaluate : (i.relabel r f).evaluate (e.relabel r f) = (i.evaluate e).relabel r f :=
      Environment.unite_relabel hr hf e i.dst i.src
    simp only [List.map_cons, propagate, hevaluate, Environment.Update.relabel, ih,
      Propagation.relabel, Propagation.mk.injEq, true_and]
    split
    · rw [List.map_cons, Growth.relabel, ← Environment.pointsTo_relabel hr hf]
      rfl
    · rfl

/-- Inclusions that instructions give one by one are the same under other names and numbers. -/
theorem eraseDups_flatMap_rename {give give' : Instruction → List Inclusion}
    (h : ∀ i, give' (i.rename r) = (give i).map (relabel r f)) (is : List Instruction) :
    ((is.map (Instruction.rename r)).flatMap give').eraseDups =
      ((is.flatMap give).eraseDups).map (relabel r f) := by
  rw [← eraseDups_map_of_injective (relabel_injective hr hf.injective), List.flatMap_map,
    List.map_flatMap]
  simp only [h]

theorem ofMoves_rename (is : List Instruction) :
    ofMoves (is.map (Instruction.rename r)) = (ofMoves is).map (relabel r f) :=
  eraseDups_flatMap_rename hr hf (fun i ↦ by cases i <;> rfl) is

/-- So are those that one instruction gives for the locations in a set. -/
theorem map_toList_pointsTo_relabel {give give' : Location → Inclusion}
    (h : ∀ l, give' (l.renumber f) = (give l).relabel r f) (e : Environment) (s : Storage) :
    ((e.relabel r f).pointsTo (s.relabel r f)).toList.map give' =
      ((e.pointsTo s).toList.map give).map (relabel r f) := by
  rw [Environment.pointsTo_relabel hr hf, PointsToSet.toList_renumber hf, List.map_map,
    List.map_map]
  exact List.map_congr_left fun l _ ↦ h l

theorem ofStores_rename (is : List Instruction) (e : Environment) :
    ofStores (is.map (Instruction.rename r)) (e.relabel r f) =
      (ofStores is e).map (relabel r f) := by
  refine eraseDups_flatMap_rename hr hf (fun i ↦ ?_) is
  cases i with
  | store reference src =>
    exact map_toList_pointsTo_relabel hr hf (fun _ ↦ rfl) e (.var reference)
  | alloca _ | move _ _ | load _ _ => rfl

theorem ofLoads_rename (is : List Instruction) (e : Environment) :
    ofLoads (is.map (Instruction.rename r)) (e.relabel r f) =
      (ofLoads is e).map (relabel r f) := by
  refine eraseDups_flatMap_rename hr hf (fun i ↦ ?_) is
  cases i with
  | load dst reference =>
    exact map_toList_pointsTo_relabel hr hf (fun _ ↦ rfl) e (.var reference)
  | alloca _ | move _ _ | store _ _ => rfl

end Relabel

end Inclusion

/-! ## Rounds and runs -/

/-- The program with other names. -/
def Program.rename (r : String → String) (p : Program) : Program :=
  ⟨p.instructions.map (Instruction.rename r)⟩

/-- The solution under other names and numbers. -/
def Solution.relabel (r : String → String) (f : Nat → Nat) (sol : Solution) : Solution :=
  { sol with
    environment := sol.environment.relabel r f
    moves := sol.moves.map (Inclusion.relabel r f)
    stores := sol.stores.map (Inclusion.relabel r f)
    loads := sol.loads.map (Inclusion.relabel r f) }

namespace Solver

/-- A state under other names and numbers. -/
def relabel (r : String → String) (f : Nat → Nat) (s : Solver) : Solver :=
  { s with
    program := s.program.rename r
    environment := s.environment.relabel r f
    stores := s.stores.map (Inclusion.relabel r f)
    loads := s.loads.map (Inclusion.relabel r f) }

/-- A round under other names and numbers. -/
def Round.relabel (r : String → String) (f : Nat → Nat) (x : Round) : Round where
  knownPass := x.knownPass.relabel r f
  stores := x.stores.map (Inclusion.relabel r f)
  storePass := x.storePass.relabel r f
  loads := x.loads.map (Inclusion.relabel r f)
  loadPass := x.loadPass.relabel r f
  reloadPass := x.reloadPass.relabel r f

theorem Round.changed_relabel (r : String → String) (f : Nat → Nat) (x : Round) :
    (x.relabel r f).changed = x.changed := by
  simp only [changed, Round.relabel, Inclusion.Propagation.grew_relabel]

section Relabel

variable {r : String → String} {f : Nat → Nat} (hr : Function.Injective r) (hf : StrictMono f)
include hr hf

theorem known_relabel (s : Solver) :
    (s.relabel r f).known = s.known.map (Inclusion.relabel r f) := by
  have hmoves : (s.relabel r f).moves = s.moves.map (Inclusion.relabel r f) :=
    Inclusion.ofMoves_rename hr hf s.program.instructions
  rw [known, known, hmoves, List.map_append, List.map_append]
  change _ ++ (if s.options.keepDerived then _ else _) ++ _ = _
  cases s.options.keepDerived <;> rfl

/-- The passes of a round, one after the other. -/
theorem nextRound_relabel (s : Solver) :
    (s.relabel r f).nextRound = s.nextRound.relabel r f := by
  rw [nextRound, known_relabel hr hf]
  simp only [relabel, Program.rename, Inclusion.propagate_relabel hr hf,
    Inclusion.ofStores_rename hr hf, Inclusion.ofLoads_rename hr hf,
    Inclusion.storeReferences_rename r f, Inclusion.loadReferences_rename r f,
    Inclusion.Propagation.relabel, ← Environment.relabel_materializeAll hr hf]
  rfl

/-- **A round does the same under other names and numbers.** -/
theorem round_relabel (s : Solver) : (s.relabel r f).round = s.round.relabel r f := by
  cases h : s.atFixedPoint with
  | true => rw [round_of_atFixedPoint h, round_of_atFixedPoint (s := s.relabel r f) h]
  | false =>
    have h' : (s.relabel r f).atFixedPoint = false := h
    simp only [round, nextRound_relabel hr hf, Round.changed_relabel, h, h']
    rfl

theorem iterate_relabel (s : Solver) (k : Nat) :
    Solver.round^[k] (s.relabel r f) = (Solver.round^[k] s).relabel r f :=
  (Function.Semiconj.iterate_right (fun t ↦ (round_relabel hr hf t).symm) k s).symm

theorem roundsLeft_relabel (s : Solver) : (s.relabel r f).roundsLeft = s.roundsLeft :=
  roundsLeft_of_semiconj (fun t ↦ (round_relabel hr hf t).symm) (fun _ ↦ rfl) s

theorem solution_relabel (s : Solver) :
    (s.relabel r f).solution = s.solution.relabel r f := by
  have hmoves : (s.relabel r f).moves = s.moves.map (Inclusion.relabel r f) :=
    Inclusion.ofMoves_rename hr hf s.program.instructions
  have hlocations : (s.relabel r f).locations = s.locations := by
    rw [locations_eq, locations_eq, relabel, Program.rename, allocations_rename, List.length_map]
  rw [solution, hmoves, hlocations]
  rfl

/-- **So does a run**, whatever its outcome. -/
theorem run_relabel (s : Solver) : (s.relabel r f).run = Solution.relabel r f <$> s.run := by
  have hround : Function.Semiconj (relabel r f) round round := fun t ↦ (round_relabel hr hf t).symm
  have hfixed : ∀ t : Solver, (t.relabel r f).atFixedPoint = t.atFixedPoint := fun _ ↦ rfl
  have hoptions : (s.relabel r f).options = s.options := rfl
  rw [run_eq, run_eq, last_of_semiconj hround hfixed, roundsLeft_of_semiconj hround hfixed,
    solution_relabel hr hf, hoptions]
  cases s.options.maxRounds with
  | none => rfl
  | some n =>
    dsimp only
    rw [apply_ite (Solution.relabel r f <$> ·)]
    rfl

end Relabel

end Solver

/-! ## From the start -/

/-- Allocations give the same facts and entries under other names. -/
theorem Environment.seed_rename {r : String → String} (hr : Function.Injective r)
    (is : List Instruction) (a : Allocator) :
    (seed (is.map (Instruction.rename r)) a).1 = (seed is a).1.relabel r id := by
  have hallocs : ∀ (i : Nat) (name : String),
      (allocations (is.map (Instruction.rename r)))[i]? = some name ↔
        ∃ x, (allocations is)[i]? = some x ∧ r x = name := by
    intro i name
    rw [allocations_rename, List.getElem?_map, Option.map_eq_some_iff]
  refine eq_relabel hr strictMono_id (fun t ↦ ?_) fun s ↦ ?_
  · simp only [mem_seed, hallocs]
    constructor
    · rintro ⟨i, _, ⟨x, hi, rfl⟩, rfl | rfl⟩
      · exact ⟨.var x, ⟨i, x, hi, .inl rfl⟩, rfl⟩
      · exact ⟨.loc ⟨a.allocated + i⟩, ⟨i, x, hi, .inr rfl⟩, rfl⟩
    · rintro ⟨_, ⟨i, x, hi, rfl | rfl⟩, rfl⟩
      · exact ⟨i, r x, ⟨x, hi, rfl⟩, .inl rfl⟩
      · exact ⟨i, r x, ⟨x, hi, rfl⟩, .inr rfl⟩
  · rw [PointsToSet.renumber_id]
    refine ExtTreeSet.ext_mem fun l ↦ ?_
    simp only [mem_pointsTo_seed, hallocs]
    constructor
    · rintro ⟨i, _, ⟨x, hi, rfl⟩, hs, rfl⟩
      exact ⟨i, x, hi, Storage.relabel_injective hr Function.injective_id hs, rfl⟩
    · rintro ⟨i, x, hi, rfl, rfl⟩
      exact ⟨i, r x, ⟨x, hi, rfl⟩, rfl, rfl⟩

/-- **The solution of the renamed program is the renamed solution**, if no names are confused.  The
same goes for failures. -/
theorem Program.solve_rename_of_injective {r : String → String} (hr : Function.Injective r)
    (p : Program) (o : Options) :
    (p.rename r).solve o = Solution.relabel r id <$> p.solve o := by
  have hstart : Solver.start (p.rename r) o = (Solver.start p o).relabel r id := by
    rw [Solver.start, Program.rename, Environment.seed_rename hr]
    rfl
  rw [solve, hstart, Solver.run_relabel hr strictMono_id]
  rfl

/-! ## Names that the program mentions -/

section Congr

variable {g r : String → String} {is : List Instruction}

theorem Program.rename_congr {p : Program} (h : ∀ x ∈ mentioned p.instructions, g x = r x) :
    p.rename g = p.rename r := by
  refine congrArg Program.mk (List.map_congr_left fun i hi ↦ ?_)
  have hnames : ∀ x ∈ i.names, g x = r x := fun x hx ↦ h x (mem_mentioned hi hx)
  cases i <;> simp_all [Instruction.rename, Instruction.names]

theorem Storage.relabel_congr (h : ∀ x ∈ mentioned is, g x = r x) {s : Storage}
    (hs : s ∈ storages is) : s.relabel g id = s.relabel r id := by
  cases s with
  | loc l => rfl
  | var x => exact congrArg Storage.var (h x (mem_mentioned_of_var_mem hs))

/-- The inclusions of a solution lead between storage that the program mentions. -/
theorem Program.map_relabel_congr {p : Program} {o : Options} {sol : Solution}
    (ho : o.maxRounds = none) (hsolve : p.solve o = .ok sol)
    (h : ∀ x ∈ mentioned p.instructions, g x = r x) {js : List Inclusion}
    (hjs : js ⊆ sol.inclusions) :
    js.map (Inclusion.relabel g id) = js.map (Inclusion.relabel r id) := by
  obtain ⟨k, -, hrun⟩ := Solver.run_of_unlimited (s := Solver.start p o) ho
  have hsol : sol = (Solver.round^[k] (Solver.start p o)).solution :=
    Except.ok.inj (hsolve.symm.trans hrun)
  refine List.map_congr_left fun i hi ↦ ?_
  have hi := hjs hi
  rw [hsol, Solver.inclusions_solution] at hi
  have hwithin := (Solver.within_iterate p o k).recorded i hi
  exact congrArg₂ Inclusion.mk (Storage.relabel_congr h hwithin.dst.storage_mem)
    (Storage.relabel_congr h hwithin.src.storage_mem)

end Congr

/-- A program translates to the renamed program, whether or not names are confused. -/
theorem translates_rename (r : String → String) (is : List Instruction) :
    Translates r id is (is.map (Instruction.rename r)) where
  alloca i name hi := by rw [allocations_rename, List.getElem?_map, id, hi]; rfl
  other i hi _ := List.mem_map_of_mem hi

/-- **Names do not matter.**  Under any renaming, a variable's new name may point to whatever the
variable may point to, and locations lose nothing either.  If the renaming does not confuse names
that the program mentions, the solution of the renamed program is the renamed solution: it takes as
many rounds, has the same sets and the corresponding entries, and lists the same inclusions in the
same order. -/
theorem Program.solve_rename (p : Program) (r : String → String) (keep : Bool) :
    let o : Options := { maxRounds := none, keepDerived := keep }
    ∃ sol sol', p.solve o = .ok sol ∧ (p.rename r).solve o = .ok sol' ∧
      (∀ x l, l ∈ sol.environment.pointsTo (.var x) →
        l ∈ sol'.environment.pointsTo (.var (r x))) ∧
      (∀ k l, l ∈ sol.environment.pointsTo (.loc k) → l ∈ sol'.environment.pointsTo (.loc k)) ∧
      (Set.InjOn r {x | x ∈ mentioned p.instructions} →
        sol'.rounds = sol.rounds ∧ sol'.locations = sol.locations ∧
        (∀ x ∈ mentioned p.instructions,
          sol'.environment.pointsTo (.var (r x)) = sol.environment.pointsTo (.var x)) ∧
        (∀ k, sol'.environment.pointsTo (.loc k) = sol.environment.pointsTo (.loc k)) ∧
        (∀ t, t ∈ sol'.environment ↔ ∃ s, s ∈ sol.environment ∧ s.relabel r id = t) ∧
        sol'.moves = sol.moves.map (Inclusion.relabel r id) ∧
        sol'.derived = sol.derived.map (Inclusion.relabel r id)) := by
  intro o
  obtain ⟨sol, hsolve, hfacts, hentries⟩ := p.exists_solution (o := o) rfl
  obtain ⟨sol', hsolve', hfacts', -⟩ := (p.rename r).exists_solution (o := o) rfl
  have hkept : ∀ s l, l ∈ sol.environment.pointsTo s →
      l ∈ sol'.environment.pointsTo (s.relabel r id) := by
    intro s l hl
    exact (hfacts' _ _).mpr (((hfacts s l).mp hl).relabel (translates_rename r p.instructions))
  refine ⟨sol, sol', hsolve, hsolve', fun x ↦ hkept (.var x), fun k ↦ hkept (.loc k),
    fun hinj ↦ ?_⟩
  -- on the names of the program the renaming agrees with one that confuses no names
  obtain ⟨g, hg, hgr⟩ := exists_injective_eqOn hinj
  have hsol' : sol' = sol.relabel g id := by
    have hrename := p.solve_rename_of_injective hg o
    rw [Program.rename_congr hgr, hsolve, hsolve'] at hrename
    exact Except.ok.inj hrename
  have hsets : ∀ s, (sol.environment.relabel g id).pointsTo (s.relabel g id) =
      sol.environment.pointsTo s := by
    intro s
    rw [Environment.pointsTo_relabel hg strictMono_id, PointsToSet.renumber_id]
  have hmap : ∀ js ⊆ sol.inclusions, js.map (Inclusion.relabel g id) =
      js.map (Inclusion.relabel r id) := fun _ ↦ p.map_relabel_congr (o := o) rfl hsolve hgr
  rw [hsol']
  refine ⟨rfl, rfl, fun x hx ↦ ?_, fun k ↦ hsets (.loc k), fun t ↦ ?_, ?_, ?_⟩
  · rw [← hgr x hx]
    exact hsets (.var x)
  · refine Environment.mem_relabel.trans (exists_congr fun s ↦ and_congr_right fun hs ↦ ?_)
    rw [Storage.relabel_congr hgr ((hentries s).mp hs).storage_mem]
  · exact hmap _ (List.subset_append_left _ _)
  · rw [← hmap _ (List.subset_append_right _ _)]
    exact List.map_append.symm

/-- Two variables take the names that their locations are written with, crosswise. -/
theorem Program.solve_rename_crosswise :
    let p : Program := ⟨[.alloca "a", .alloca "b", .store "a" "b", .load "c" "a", .move "b" "c"]⟩
    let r : String → String := fun x ↦
      if x = "a" then (Location.mk 1).render else if x = "b" then (Location.mk 0).render else x
    Set.InjOn r {x | x ∈ mentioned p.instructions} ∧
    ∃ sol sol', p.solve {} = .ok sol ∧ (p.rename r).solve {} = .ok sol' ∧
      sol'.rounds = sol.rounds ∧ sol'.locations = sol.locations ∧
      sol'.environment.pointsTo (.var "ref_1") = sol.environment.pointsTo (.var "a") ∧
      sol'.environment.pointsTo (.loc ⟨0⟩) = sol.environment.pointsTo (.loc ⟨0⟩) ∧
      (∀ t, t ∈ sol'.environment ↔ ∃ s, s ∈ sol.environment ∧ s.relabel r id = t) ∧
      sol'.moves = sol.moves.map (Inclusion.relabel r id) ∧
      sol'.derived = sol.derived.map (Inclusion.relabel r id) := by
  intro p r
  have hdistinct : ∀ x ∈ mentioned p.instructions, ∀ y ∈ mentioned p.instructions,
      r x = r y → x = y := by decide
  have hinj : Set.InjOn r {x | x ∈ mentioned p.instructions} :=
    fun x hx y hy h ↦ hdistinct x hx y hy h
  obtain ⟨sol, sol', hsolve, hsolve', -, -, hrest⟩ := Program.solve_rename p r true
  obtain ⟨hrounds, hlocations, hvars, hlocs, hentries, hmoves, hderived⟩ := hrest hinj
  exact ⟨hinj, sol, sol', hsolve, hsolve', hrounds, hlocations, hvars "a" (by decide), hlocs _,
    hentries, hmoves, hderived⟩

end PointsTo
