import PointsTo.Inclusion.Sweep
import PointsTo.Proofs.ChangeReport
import PointsTo.Proofs.RecordedInclusions

/-!
# What a sweep finds

A sweep changes the environment that it reads, and leaves inclusions out for two reasons.  Neither
shows in what it finds.  The entries that it makes are empty, so each reference is found as it was
at the start; and an inclusion between a variable and a location never has the same storage on both
sides.  So a sweep lists what its instructions give in turn, repetitions erased
(`Inclusion.sweep_eq`), and it is the derivation of inclusions that rounds are made of
(`Inclusion.sweep_store`, `Inclusion.sweep_load`).

What is listed comes in the order of first occurrence.  For two inclusions this is the order of the
first instructions that give them, and if that is the same instruction, the order of their locations
(`Inclusion.Access.Precedes`).
-/

set_option autoImplicit false

namespace PointsTo

open Std

namespace Inclusion

/-! ## What an instruction gives -/

namespace Access

variable {kind : Access} {name : String} {l m : Location}

/-- What an instruction gives in an environment, by location. -/
def given (kind : Access) (e : Environment) (j : Instruction) : List Inclusion :=
  match kind.names? j with
  | none => []
  | some (reference, name) => (e.pointsTo (.var reference)).toList.map (kind.inclusion name)

/-- The reference of an instruction that goes through one in this way. -/
def reference? (kind : Access) (j : Instruction) : Option Storage :=
  (kind.names? j).map fun names ↦ .var names.1

/-- The place of the first instruction that gives an inclusion. -/
def placeOf (kind : Access) (is : List Instruction) (e : Environment) (i : Inclusion) : Nat :=
  is.findIdx fun j ↦ (kind.given e j).contains i

/-- The inclusions have the same variable, and the first one has the smaller location. -/
def Ascends (kind : Access) (i j : Inclusion) : Prop :=
  ∃ name l m, i = kind.inclusion name l ∧ j = kind.inclusion name m ∧ l.index < m.index

/-- The one inclusion comes up before the other: in an earlier instruction, or in the same one at a
smaller location. -/
def Precedes (kind : Access) (is : List Instruction) (e : Environment) (i j : Inclusion) : Prop :=
  kind.placeOf is e i < kind.placeOf is e j ∨
    kind.placeOf is e i = kind.placeOf is e j ∧ kind.Ascends i j

/-- **Variables and locations are different storage.** -/
theorem isSelf_inclusion (kind : Access) (name : String) (l : Location) :
    (kind.inclusion name l).isSelf = false := by
  cases kind with
  | store => simp [inclusion, isSelf]
  | load => simp [inclusion, isSelf]

theorem inclusion_inj {name' : String} (h : kind.inclusion name l = kind.inclusion name' m) :
    l = m := by
  cases kind with
  | store => exact Storage.loc.inj (congrArg dst h)
  | load => exact Storage.loc.inj (congrArg src h)

theorem isSelf_of_mem_given {e : Environment} {j : Instruction} {i : Inclusion}
    (h : i ∈ kind.given e j) : i.isSelf = false := by
  rw [given] at h
  split at h
  · cases h
  · obtain ⟨l, -, rfl⟩ := List.mem_map.mp h
    exact isSelf_inclusion ..

theorem ascends_given (kind : Access) (e : Environment) (j : Instruction) :
    (kind.given e j).Pairwise kind.Ascends := by
  rw [given]
  split
  · exact .nil
  · refine List.pairwise_map.mpr (ExtTreeSet.ordered_toList.imp fun {l m} h ↦ ?_)
    exact ⟨_, l, m, rfl, rfl, Nat.compare_eq_lt.mp h⟩

theorem Ascends.ne {i j : Inclusion} (h : kind.Ascends i j) : i ≠ j := by
  obtain ⟨name, l, m, rfl, rfl, hlt⟩ := h
  intro heq
  rw [inclusion_inj heq] at hlt
  exact Nat.lt_irrefl _ hlt

theorem Precedes.ne {is : List Instruction} {e : Environment} {i j : Inclusion}
    (h : kind.Precedes is e i j) : i ≠ j := by
  rcases h with hlt | ⟨-, h⟩
  · rintro rfl
    exact Nat.lt_irrefl _ hlt
  · exact h.ne

theorem given_congr {e e' : Environment} (h : ∀ s, e.pointsTo s = e'.pointsTo s) :
    kind.given e = kind.given e' := by
  funext j
  simp only [given, h]

end Access

/-! ## The sweep -/

/-- Inclusions between different storage are listed without repetition. -/
theorem foldl_collect {is js : List Inclusion} (h : ∀ j ∈ js, j.isSelf = false) :
    js.foldl collect is.eraseDups = (is ++ js).eraseDups := by
  induction js generalizing is with
  | nil => rw [List.foldl_nil, List.append_nil]
  | cons j js ih =>
    have hself : j.isSelf = false := h j List.mem_cons_self
    have hcollect : collect is.eraseDups j = (is ++ [j]).eraseDups := by
      rw [collect, eraseDups_concat, hself, Bool.false_or]
      simp only [List.contains_iff_mem, List.mem_eraseDups]
    rw [List.foldl_cons, hcollect, ih fun k hk ↦ h k (List.mem_cons_of_mem _ hk),
      List.append_assoc, List.singleton_append]

/-- **One instruction** makes an entry for its reference and lists what it gives. -/
theorem Sweep.step_eq (kind : Access) (e : Environment) (is : List Inclusion) (j : Instruction) :
    Sweep.step kind ⟨e, is.eraseDups⟩ j =
      ⟨e.materializeAll (kind.reference? j).toList, (is ++ kind.given e j).eraseDups⟩ := by
  have hself : ∀ i ∈ kind.given e j, i.isSelf = false := fun _ ↦ Access.isSelf_of_mem_given
  rw [← foldl_collect hself, Sweep.step, Access.given, Access.reference?]
  cases kind.names? j with
  | none => rfl
  | some names =>
    dsimp only
    rw [Environment.pointsTo_materialize]
    rfl

/-- The invariant of the loop, from any environment and any list. -/
theorem foldl_step (kind : Access) (js : List Instruction) (e : Environment)
    (is : List Inclusion) :
    js.foldl (Sweep.step kind) ⟨e, is.eraseDups⟩ =
      ⟨e.materializeAll (js.filterMap kind.reference?),
        (is ++ js.flatMap (kind.given e)).eraseDups⟩ := by
  induction js generalizing e is with
  | nil => rw [List.flatMap_nil, List.append_nil]; rfl
  | cons j js ih =>
    -- the entry is empty, so the later instructions find the same sets
    have hgiven : kind.given (e.materializeAll (kind.reference? j).toList) = kind.given e :=
      Access.given_congr fun t ↦ Environment.pointsTo_materializeAll ..
    rw [List.foldl_cons, Sweep.step_eq, ih, hgiven, List.flatMap_cons, List.append_assoc]
    congr 1
    rw [List.filterMap_cons]
    cases kind.reference? j with
    | none => rfl
    | some s => rfl

/-- **A sweep lists what the instructions give in turn, repetitions erased.** -/
theorem sweep_eq (kind : Access) (is : List Instruction) (e : Environment) :
    sweep kind is e = ⟨e.materializeAll (is.filterMap kind.reference?),
      (is.flatMap (kind.given e)).eraseDups⟩ :=
  foldl_step kind is e []

/-- **Sweeping over the stores is how rounds derive their inclusions.** -/
theorem sweep_store (is : List Instruction) (e : Environment) :
    sweep .store is e = ⟨e.materializeAll (storeReferences is), ofStores is e⟩ := by
  have hgiven : Access.store.given e = ofStore e := by funext j; cases j <;> rfl
  have hreference : is.filterMap Access.store.reference? = storeReferences is := by
    refine List.filterMap_congr fun j _ ↦ ?_
    cases j <;> rfl
  rw [sweep_eq, hgiven, hreference, ofStores]

/-- **Sweeping over the loads is how rounds derive their inclusions.** -/
theorem sweep_load (is : List Instruction) (e : Environment) :
    sweep .load is e = ⟨e.materializeAll (loadReferences is), ofLoads is e⟩ := by
  have hgiven : Access.load.given e = ofLoad e := by funext j; cases j <;> rfl
  have hreference : is.filterMap Access.load.reference? = loadReferences is := by
    refine List.filterMap_congr fun j _ ↦ ?_
    cases j <;> rfl
  rw [sweep_eq, hgiven, hreference, ofLoads]

/-- **The inclusions of a sweep are in order.** -/
theorem precedes_sweep (kind : Access) (is : List Instruction) (e : Environment) :
    (sweep kind is e).inclusions.Pairwise (kind.Precedes is e) := by
  have hascends := kind.ascends_given e
  rw [sweep_eq]
  exact pairwise_eraseDups_flatMap hascends (fun j ↦ (hascends j).imp fun h ↦ h.ne) is

theorem pointsTo_sweep (kind : Access) (is : List Instruction) (e : Environment) (t : Storage) :
    (sweep kind is e).environment.pointsTo t = e.pointsTo t := by
  rw [sweep_eq]
  exact Environment.pointsTo_materializeAll ..

/-- **A sweep over a larger environment finds more.** -/
theorem sweep_mono (kind : Access) (is : List Instruction) {e f : Environment} (h : e ≤ f) :
    (sweep kind is e).inclusions ⊆ (sweep kind is f).inclusions := by
  cases kind with
  | store => rw [sweep_store, sweep_store]; exact ofStores_mono is h
  | load => rw [sweep_load, sweep_load]; exact ofLoads_mono is h

/-- **What a sweep finds**, whatever the instructions and the environment.  Over the stores it lists
the inclusions into every location of a reference, over the loads those out of every location, all
of them and no others.  None is listed twice, they come up in the order of the list, and none has to
be left out for having the same storage on both sides.  The sets stay as they are, and the only new
entries are those of the references.  From an environment above, at least the same is derived. -/
theorem sweep_outcome (is : List Instruction) (e : Environment) :
    (∀ i, i ∈ (sweep .store is e).inclusions ↔ ∃ reference src l, .store reference src ∈ is ∧
      l ∈ e.pointsTo (.var reference) ∧ i = ⟨.loc l, .var src⟩) ∧
    (∀ i, i ∈ (sweep .load is e).inclusions ↔ ∃ dst reference l, .load dst reference ∈ is ∧
      l ∈ e.pointsTo (.var reference) ∧ i = ⟨.var dst, .loc l⟩) ∧
    (∀ t, t ∈ (sweep .store is e).environment ↔
      (∃ reference src, .store reference src ∈ is ∧ t = .var reference) ∨ t ∈ e) ∧
    (∀ t, t ∈ (sweep .load is e).environment ↔
      (∃ dst reference, .load dst reference ∈ is ∧ t = .var reference) ∨ t ∈ e) ∧
    ∀ kind : Access,
      (sweep kind is e).inclusions.Nodup ∧
      (sweep kind is e).inclusions.Pairwise (kind.Precedes is e) ∧
      (∀ name l, (kind.inclusion name l).isSelf = false) ∧
      (∀ t, (sweep kind is e).environment.pointsTo t = e.pointsTo t) ∧
      ∀ f, (e.compare? f).isLE = true →
        (sweep kind is e).inclusions ⊆ (sweep kind is f).inclusions := by
  refine ⟨fun i ↦ ?_, fun i ↦ ?_, fun t ↦ ?_, fun t ↦ ?_, fun kind ↦ ?_⟩
  · rw [sweep_store]; exact mem_ofStores
  · rw [sweep_load]; exact mem_ofLoads
  · rw [sweep_store, Environment.mem_materializeAll, mem_storeReferences]
  · rw [sweep_load, Environment.mem_materializeAll, mem_loadReferences]
  · have hordered := precedes_sweep kind is e
    refine ⟨hordered.imp fun h ↦ h.ne, hordered, kind.isSelf_inclusion, pointsTo_sweep kind is e,
      fun f hf ↦ ?_⟩
    exact sweep_mono kind is (Environment.isLE_compare?_iff.mp hf)

-- the second store gives two inclusions again; the third one has nowhere to store to
example :
    let p : PointsToSet := .ofList [Location.mk 0, Location.mk 4]
    let q : PointsToSet := .ofList [Location.mk 4, Location.mk 2, Location.mk 0]
    let is : List Instruction := [.store "p" "x", .load "y" "p", .store "q" "x", .store "r" "x"]
    let w := sweep .store is ((Environment.empty.set (.var "p") p).set (.var "q") q)
    w.inclusions = [⟨.loc ⟨0⟩, .var "x"⟩, ⟨.loc ⟨4⟩, .var "x"⟩, ⟨.loc ⟨2⟩, .var "x"⟩] ∧
      w.environment.keys = [.var "p", .var "q", .var "r"] := by decide +kernel

end Inclusion

end PointsTo
