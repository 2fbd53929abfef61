import PointsTo.Inclusion.Basic
import PointsTo.Instruction.Basic

/-!
# The inclusions of a program

A move gives one inclusion, which holds once and for all.  A store or a load gives one for each
location that its reference points to, so these depend on an environment and have to be derived
again as it grows.

Inclusions are listed by instruction, in the order of the program, and for one instruction by
location; one that several instructions give is listed where it comes first.  Deriving the
inclusions of stores or loads gives every reference an entry, even one that points to nothing.
-/

set_option autoImplicit false

namespace PointsTo.Inclusion

/-- The inclusion that a move gives. -/
def ofMove : Instruction → List Inclusion
  | .move dst src => [⟨.var dst, .var src⟩]
  | _ => []

/-- The inclusions of all moves. -/
def ofMoves (is : List Instruction) : List Inclusion := (is.flatMap ofMove).eraseDups

/-- The inclusions that a store gives: into every location of its reference. -/
def ofStore (e : Environment) : Instruction → List Inclusion
  | .store reference src =>
    (e.pointsTo (.var reference)).toList.map fun l ↦ ⟨.loc l, .var src⟩
  | _ => []

/-- The inclusions of all stores. -/
def ofStores (is : List Instruction) (e : Environment) : List Inclusion :=
  (is.flatMap (ofStore e)).eraseDups

/-- The inclusions that a load gives: out of every location of its reference. -/
def ofLoad (e : Environment) : Instruction → List Inclusion
  | .load dst reference =>
    (e.pointsTo (.var reference)).toList.map fun l ↦ ⟨.var dst, .loc l⟩
  | _ => []

/-- The inclusions of all loads. -/
def ofLoads (is : List Instruction) (e : Environment) : List Inclusion :=
  (is.flatMap (ofLoad e)).eraseDups

/-- The references that stores write through. -/
def storeReferences (is : List Instruction) : List Storage :=
  is.filterMap fun i ↦ match i with
    | .store reference _ => some (.var reference)
    | _ => none

/-- The references that loads read through. -/
def loadReferences (is : List Instruction) : List Storage :=
  is.filterMap fun i ↦ match i with
    | .load _ reference => some (.var reference)
    | _ => none

theorem mem_ofMoves {is : List Instruction} {i : Inclusion} :
    i ∈ ofMoves is ↔ ∃ dst src, .move dst src ∈ is ∧ i = ⟨.var dst, .var src⟩ := by
  rw [ofMoves, List.mem_eraseDups, List.mem_flatMap]
  constructor
  · rintro ⟨j, hj, hi⟩
    cases j with
    | move dst src => exact ⟨dst, src, hj, by simpa [ofMove] using hi⟩
    | alloca _ | load _ _ | store _ _ => simp [ofMove] at hi
  · rintro ⟨dst, src, hj, rfl⟩
    exact ⟨_, hj, by simp [ofMove]⟩

theorem mem_ofStores {is : List Instruction} {e : Environment} {i : Inclusion} :
    i ∈ ofStores is e ↔ ∃ reference src l, .store reference src ∈ is ∧
      l ∈ e.pointsTo (.var reference) ∧ i = ⟨.loc l, .var src⟩ := by
  rw [ofStores, List.mem_eraseDups, List.mem_flatMap]
  constructor
  · rintro ⟨j, hj, hi⟩
    cases j with
    | store reference src =>
      simp only [ofStore, List.mem_map, Std.ExtTreeSet.mem_toList] at hi
      obtain ⟨l, hl, rfl⟩ := hi
      exact ⟨reference, src, l, hj, hl, rfl⟩
    | alloca _ | move _ _ | load _ _ => simp [ofStore] at hi
  · rintro ⟨reference, src, l, hj, hl, rfl⟩
    exact ⟨_, hj, by simpa [ofStore] using hl⟩

theorem mem_ofLoads {is : List Instruction} {e : Environment} {i : Inclusion} :
    i ∈ ofLoads is e ↔ ∃ dst reference l, .load dst reference ∈ is ∧
      l ∈ e.pointsTo (.var reference) ∧ i = ⟨.var dst, .loc l⟩ := by
  rw [ofLoads, List.mem_eraseDups, List.mem_flatMap]
  constructor
  · rintro ⟨j, hj, hi⟩
    cases j with
    | load dst reference =>
      simp only [ofLoad, List.mem_map, Std.ExtTreeSet.mem_toList] at hi
      obtain ⟨l, hl, rfl⟩ := hi
      exact ⟨dst, reference, l, hj, hl, rfl⟩
    | alloca _ | move _ _ | store _ _ => simp [ofLoad] at hi
  · rintro ⟨dst, reference, l, hj, hl, rfl⟩
    exact ⟨_, hj, by simpa [ofLoad] using hl⟩

end PointsTo.Inclusion
