import PointsTo.Instruction.Basic
import PointsTo.Proofs.Propagation

/-!
# The rules behind the analysis

Read as a logic program, the instructions derive facts: an allocation makes its variable point to
the location of its number, a move, a load and a store pass on what is derived already.  `Derives`
is that logic program, and `Satisfies` says of an environment that it breaks none of the rules.
Neither mentions rounds, inclusions or an order of evaluation.

The rules have a least model, the derivable facts: an environment that satisfies the rules contains
all of them (`Satisfies.mem_of_derives`).  They are bounded as well.  Derivation invents neither
names nor locations, so a derivable fact is about storage that the program mentions and about a
location that it allocates (`Derives.storage_mem`, `Derives.location_lt`).
-/

set_option autoImplicit false

namespace PointsTo

/-! ## Allocations -/

/-- The variable that an instruction allocates to. -/
def Instruction.allocated : Instruction → Option String
  | .alloca name => some name
  | _ => none

/-- The variables of the allocations in order: the one at place `i` receives the location of
number `i`. -/
def allocations (is : List Instruction) : List String := is.filterMap Instruction.allocated

/-! ## Derivable facts -/

/-- What the instructions of a program make each storage point to, fact by fact. -/
inductive Derives (is : List Instruction) : Storage → Location → Prop
  | alloca {i : Nat} {name : String} (h : (allocations is)[i]? = some name) :
      Derives is (.var name) ⟨i⟩
  | move {dst src : String} {l : Location} (h : .move dst src ∈ is)
      (hl : Derives is (.var src) l) : Derives is (.var dst) l
  | load {dst reference : String} {k l : Location} (h : .load dst reference ∈ is)
      (hk : Derives is (.var reference) k) (hl : Derives is (.loc k) l) : Derives is (.var dst) l
  | store {reference src : String} {k l : Location} (h : .store reference src ∈ is)
      (hk : Derives is (.var reference) k) (hl : Derives is (.var src) l) : Derives is (.loc k) l

/-- The environment breaks none of the rules. -/
structure Satisfies (is : List Instruction) (e : Environment) : Prop where
  /-- Allocated variables point to their locations. -/
  alloca : ∀ i name, (allocations is)[i]? = some name → ⟨i⟩ ∈ e.pointsTo (.var name)
  /-- Moves are respected. -/
  move : ∀ dst src, .move dst src ∈ is → ∀ l, l ∈ e.pointsTo (.var src) → l ∈ e.pointsTo (.var dst)
  /-- Loads are respected, at every location that the reference points to. -/
  load : ∀ dst reference, .load dst reference ∈ is → ∀ k, k ∈ e.pointsTo (.var reference) →
    ∀ l, l ∈ e.pointsTo (.loc k) → l ∈ e.pointsTo (.var dst)
  /-- Stores are respected, at every location that the reference points to. -/
  store : ∀ reference src, .store reference src ∈ is → ∀ k, k ∈ e.pointsTo (.var reference) →
    ∀ l, l ∈ e.pointsTo (.var src) → l ∈ e.pointsTo (.loc k)

/-- **An environment that satisfies the rules contains every derivable fact.** -/
theorem Satisfies.mem_of_derives {is : List Instruction} {e : Environment} (h : Satisfies is e)
    {s : Storage} {l : Location} (hd : Derives is s l) : l ∈ e.pointsTo s := by
  induction hd with
  | alloca hi => exact h.alloca _ _ hi
  | move hi _ ih => exact h.move _ _ hi _ ih
  | load hi _ _ ihk ihl => exact h.load _ _ hi _ ihk _ ihl
  | store hi _ _ ihk ihl => exact h.store _ _ hi _ ihk _ ihl

/-! ## Bounds on derivable facts -/

/-- The variables that a program mentions, each once. -/
def mentioned (is : List Instruction) : List String := (is.flatMap Instruction.names).eraseDups

/-- All that a program can make point somewhere: its variables and its locations. -/
def storages (is : List Instruction) : List Storage :=
  (mentioned is).map Storage.var ++ (List.range (allocations is).length).map fun i ↦ .loc ⟨i⟩

theorem length_storages (is : List Instruction) :
    (storages is).length = (mentioned is).length + (allocations is).length := by
  rw [storages, List.length_append, List.length_map, List.length_map, List.length_range]

theorem mem_mentioned {is : List Instruction} {i : Instruction} (hi : i ∈ is) {name : String}
    (hn : name ∈ i.names) : name ∈ mentioned is := by
  rw [mentioned, List.mem_eraseDups, List.mem_flatMap]
  exact ⟨i, hi, hn⟩

theorem exists_of_mem_mentioned {is : List Instruction} {name : String}
    (h : name ∈ mentioned is) : ∃ i ∈ is, name ∈ i.names := by
  rwa [mentioned, List.mem_eraseDups, List.mem_flatMap] at h

theorem var_mem_storages {is : List Instruction} {i : Instruction} (hi : i ∈ is) {name : String}
    (hn : name ∈ i.names) : Storage.var name ∈ storages is :=
  List.mem_append_left _ (List.mem_map_of_mem (mem_mentioned hi hn))

theorem mem_mentioned_of_var_mem {is : List Instruction} {name : String}
    (h : .var name ∈ storages is) : name ∈ mentioned is := by
  simpa [storages] using h

theorem loc_mem_storages {is : List Instruction} {l : Location}
    (h : l.index < (allocations is).length) : Storage.loc l ∈ storages is :=
  List.mem_append_right _ (List.mem_map.mpr ⟨l.index, List.mem_range.mpr h, rfl⟩)

theorem location_lt_of_loc_mem {is : List Instruction} {l : Location}
    (h : .loc l ∈ storages is) : l.index < (allocations is).length := by
  obtain ⟨i, hi, rfl⟩ : ∃ i < (allocations is).length, Location.mk i = l := by
    simpa [storages] using h
  exact hi

theorem alloca_mem_of_getElem? {is : List Instruction} {i : Nat} {name : String}
    (h : (allocations is)[i]? = some name) : .alloca name ∈ is := by
  obtain ⟨j, hj, hn⟩ := List.mem_filterMap.mp (List.mem_of_getElem? h)
  cases j with
  | alloca _ => cases hn; exact hj
  | move _ _ | load _ _ | store _ _ => cases hn

theorem exists_getElem?_of_alloca_mem {is : List Instruction} {name : String}
    (h : .alloca name ∈ is) : ∃ i : Nat, (allocations is)[i]? = some name :=
  List.mem_iff_getElem?.mp (List.mem_filterMap.mpr ⟨_, h, rfl⟩)

/-- Derivation invents no location. -/
theorem Derives.location_lt {is : List Instruction} {s : Storage} {l : Location}
    (h : Derives is s l) : l.index < (allocations is).length := by
  induction h with
  | alloca hi => exact (List.getElem?_eq_some_iff.mp hi).1
  | move _ _ ih => exact ih
  | load _ _ _ _ ihl => exact ihl
  | store _ _ _ _ ihl => exact ihl

/-- Derivation invents no storage. -/
theorem Derives.storage_mem {is : List Instruction} {s : Storage} {l : Location}
    (h : Derives is s l) : s ∈ storages is := by
  cases h with
  | alloca hi =>
    exact var_mem_storages (alloca_mem_of_getElem? hi) (by simp [Instruction.names])
  | move hi _ => exact var_mem_storages hi (by simp [Instruction.names])
  | load hi _ _ => exact var_mem_storages hi (by simp [Instruction.names])
  | store _ hk _ => exact loc_mem_storages hk.location_lt

end PointsTo
