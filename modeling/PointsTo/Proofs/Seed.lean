import PointsTo.Proofs.Derivation

/-!
# The environment before the first round

Allocations are folded over in order, each taking the next location.  The general statements are
about that fold, from any environment and any count of locations handed out before; what the
analysis starts from is the case of an empty environment.  It holds one fact for each allocation
(`Environment.mem_pointsTo_seed`, `Environment.size_seed`), and has entries for the two ends of
these facts (`Environment.mem_seed`).

An allocator is where it is because of the locations that it has handed out (`Allocator.draw`).  The
allocations go on from there, so what they take was never handed out before
(`Environment.Seeded`).
-/

set_option autoImplicit false

namespace PointsTo

namespace Environment

open Std

theorem allocated_foldl_seedStep (is : List Instruction) (e : Environment) (a : Allocator) :
    (is.foldl seedStep (e, a)).2.allocated = a.allocated + (allocations is).length := by
  induction is generalizing e a with
  | nil => rfl
  | cons i is ih =>
    rw [List.foldl_cons]
    cases i with
    | alloca name =>
      rw [seedStep, ih, Allocator.fresh]
      change a.allocated + 1 + (allocations is).length = a.allocated + ((allocations is).length + 1)
      omega
    | move _ _ | load _ _ | store _ _ => exact ih e a

/-- An allocation adds the one fact that its variable points to the next location. -/
theorem mem_pointsTo_seedStep_alloca {e : Environment} {a : Allocator} {name : String}
    {s : Storage} {l : Location} :
    l ∈ (seedStep (e, a) (.alloca name)).1.pointsTo s ↔
      l ∈ e.pointsTo s ∨ s = .var name ∧ l = ⟨a.allocated⟩ := by
  rw [seedStep, Allocator.fresh, pointsTo_materialize, pointsTo_insert]
  split
  · next hs =>
    rw [ExtTreeSet.mem_insert, Std.compare_eq_iff_eq, hs, eq_comm, or_comm]
    simp only [true_and]
  · next hs => simp only [hs, false_and, or_false]

/-- What holds at some place of a list holds at the front or further on. -/
theorem exists_getElem?_cons {α : Type} {x : α} {xs : List α} {P : Nat → α → Prop} :
    (∃ i y, (x :: xs)[i]? = some y ∧ P i y) ↔ P 0 x ∨ ∃ i y, xs[i]? = some y ∧ P (i + 1) y := by
  constructor
  · rintro ⟨i, y, hy, hP⟩
    cases i with
    | zero => cases hy; exact .inl hP
    | succ i => exact .inr ⟨i, y, hy, hP⟩
  · rintro (hP | ⟨i, y, hy, hP⟩)
    · exact ⟨0, x, rfl, hP⟩
    · exact ⟨i + 1, y, hy, hP⟩

theorem mem_pointsTo_foldl_seedStep {is : List Instruction} {e : Environment} {a : Allocator}
    {s : Storage} {l : Location} :
    l ∈ (is.foldl seedStep (e, a)).1.pointsTo s ↔ l ∈ e.pointsTo s ∨
      ∃ i name, (allocations is)[i]? = some name ∧ s = .var name ∧ l = ⟨a.allocated + i⟩ := by
  induction is generalizing e a with
  | nil => simp [allocations]
  | cons i is ih =>
    rw [List.foldl_cons]
    cases i with
    | alloca name =>
      rw [show seedStep (e, a) (.alloca name) =
          ((seedStep (e, a) (.alloca name)).1, ⟨a.allocated + 1⟩) from rfl,
        ih, mem_pointsTo_seedStep_alloca, or_assoc,
        show allocations (.alloca name :: is) = name :: allocations is from rfl,
        exists_getElem?_cons]
      simp only [Nat.add_zero, Nat.add_assoc, Nat.add_comm 1]
    | move _ _ | load _ _ | store _ _ => exact ih

/-- An allocation makes entries for its variable and for the next location. -/
theorem mem_seedStep_alloca {e : Environment} {a : Allocator} {name : String} {s : Storage} :
    s ∈ (seedStep (e, a) (.alloca name)).1 ↔
      s ∈ e ∨ s = .var name ∨ s = .loc ⟨a.allocated⟩ := by
  rw [seedStep, Allocator.fresh, mem_materialize, mem_insert, or_comm,
    or_comm (a := s = .var name), or_assoc]

theorem mem_foldl_seedStep {is : List Instruction} {e : Environment} {a : Allocator}
    {s : Storage} :
    s ∈ (is.foldl seedStep (e, a)).1 ↔ s ∈ e ∨
      ∃ i name, (allocations is)[i]? = some name ∧
        (s = .var name ∨ s = .loc ⟨a.allocated + i⟩) := by
  induction is generalizing e a with
  | nil => simp [allocations]
  | cons i is ih =>
    rw [List.foldl_cons]
    cases i with
    | alloca name =>
      rw [show seedStep (e, a) (.alloca name) =
          ((seedStep (e, a) (.alloca name)).1, ⟨a.allocated + 1⟩) from rfl,
        ih, mem_seedStep_alloca, or_assoc,
        show allocations (.alloca name :: is) = name :: allocations is from rfl,
        exists_getElem?_cons]
      simp only [Nat.add_zero, Nat.add_assoc, Nat.add_comm 1]
    | move _ _ | load _ _ | store _ _ => exact ih

/-- **The analysis starts from the facts that the allocations give.** -/
theorem mem_pointsTo_seed {is : List Instruction} {a : Allocator} {s : Storage} {l : Location} :
    l ∈ (seed is a).1.pointsTo s ↔ ∃ i name, (allocations is)[i]? = some name ∧
      s = .var name ∧ l = ⟨a.allocated + i⟩ := by
  rw [seed, mem_pointsTo_foldl_seedStep, pointsTo_empty]
  simp only [ExtTreeSet.not_mem_empty, false_or]

theorem mem_pointsTo_seed_of_getElem? {is : List Instruction} {i : Nat} {name : String}
    (h : (allocations is)[i]? = some name) : ⟨i⟩ ∈ (seed is {}).1.pointsTo (.var name) :=
  mem_pointsTo_seed.mpr ⟨i, name, h, rfl, by rw [Nat.zero_add]⟩

/-- **The analysis starts with entries for allocated variables and for their locations.** -/
theorem mem_seed {is : List Instruction} {a : Allocator} {s : Storage} :
    s ∈ (seed is a).1 ↔ ∃ i name, (allocations is)[i]? = some name ∧
      (s = .var name ∨ s = .loc ⟨a.allocated + i⟩) := by
  rw [seed, mem_foldl_seedStep]
  simp only [not_mem_empty, false_or]

/-- Each allocation gives one fact. -/
theorem size_seed (is : List Instruction) (a : Allocator) :
    (seed is a).1.size = (allocations is).length := by
  have hperm : (seed is a).1.facts.Perm ((allocations is).zipIdx.map fun x ↦
      (Storage.var x.1, Location.mk (a.allocated + x.2))) := by
    rw [List.perm_ext_iff_of_nodup (nodup_facts _)]
    · rintro ⟨s, l⟩
      rw [mem_facts, mem_pointsTo_seed, List.mem_map]
      constructor
      · rintro ⟨i, name, hi, rfl, rfl⟩
        exact ⟨(name, i), List.mk_mem_zipIdx_iff_getElem?.mpr hi, rfl⟩
      · rintro ⟨⟨name, i⟩, hi, heq⟩
        cases heq
        exact ⟨i, name, List.mk_mem_zipIdx_iff_getElem?.mp hi, rfl, rfl⟩
    · -- a name may repeat, but the places are all different
      have hnd : ((allocations is).zipIdx.map Prod.snd).Nodup := by
        rw [List.zipIdx_map_snd]; exact List.nodup_range' _
      refine (List.Nodup.of_map _ hnd).map ?_
      rintro ⟨m, i⟩ ⟨n, j⟩ h
      simpa using h
  rw [← length_facts, hperm.length_eq, List.length_map, List.length_zipIdx]

end Environment

/-! ## From any allocator -/

namespace Allocator

/-- The locations that a new allocator hands out in its first calls, and the allocator after
them. -/
def draw : Nat → List Location × Allocator
  | 0 => ([], {})
  | n + 1 =>
    let (drawn, a) := draw n
    let (l, a) := a.fresh
    (drawn ++ [l], a)

theorem draw_eq (n : Nat) : draw n = ((List.range n).map Location.mk, ⟨n⟩) := by
  induction n with
  | zero => rfl
  | succ n ih => rw [draw, ih, List.range_succ, List.map_append]; rfl

theorem mem_draw {n : Nat} {l : Location} : l ∈ (draw n).1 ↔ l.index < n := by
  rw [draw_eq, List.mem_map]
  constructor
  · rintro ⟨i, hi, rfl⟩
    exact List.mem_range.mp hi
  · exact fun h ↦ ⟨l.index, List.mem_range.mpr h, rfl⟩

end Allocator

namespace Environment

open Std

/-- What the allocations of a program give after `n` locations were handed out. -/
structure Seeded (is : List Instruction) (n : Nat) (e : Environment) (a : Allocator) : Prop where
  /-- Each allocation has taken one location. -/
  allocated : a.allocated = n + (allocations is).length
  /-- A variable points to the locations of its allocations, which take the next numbers. -/
  facts : ∀ x l, l ∈ e.pointsTo (.var x) ↔ ∃ i, (allocations is)[i]? = some x ∧ l = ⟨n + i⟩
  /-- The locations that have an entry are those that were taken. -/
  locations : ∀ l, .loc l ∈ e ↔ n ≤ l.index ∧ l.index < n + (allocations is).length
  /-- Nothing is kept in a location. -/
  empty : ∀ l, e.pointsTo (.loc l) = ∅
  /-- The variables that have an entry are those that are allocated to. -/
  names : ∀ x, .var x ∈ e ↔ .alloca x ∈ is
  /-- One variable points to each location that was taken. -/
  owner : ∀ l, .loc l ∈ e → ∃! x, l ∈ e.pointsTo (.var x)
  /-- There are as many facts as allocations. -/
  size : e.size = (allocations is).length
  /-- No location that was handed out before has an entry, and nothing points to one. -/
  fresh : ∀ l ∈ (Allocator.draw n).1, ¬ .loc l ∈ e ∧ ∀ t, l ∉ e.pointsTo t

section Seeded

variable {is : List Instruction} {a : Allocator}

theorem mem_pointsTo_var_seed {x : String} {l : Location} :
    l ∈ (seed is a).1.pointsTo (.var x) ↔
      ∃ i, (allocations is)[i]? = some x ∧ l = ⟨a.allocated + i⟩ := by
  rw [mem_pointsTo_seed]
  refine exists_congr fun i ↦ ⟨?_, ?_⟩
  · rintro ⟨name, hi, hx, hl⟩
    cases hx
    exact ⟨hi, hl⟩
  · rintro ⟨hi, hl⟩
    exact ⟨x, hi, rfl, hl⟩

theorem pointsTo_loc_seed (l : Location) : (seed is a).1.pointsTo (.loc l) = ∅ := by
  refine ExtTreeSet.eq_empty_iff_forall_not_mem.mpr fun k hk ↦ ?_
  obtain ⟨_, _, _, hs, _⟩ := mem_pointsTo_seed.mp hk
  cases hs

theorem loc_mem_seed {l : Location} :
    .loc l ∈ (seed is a).1 ↔
      a.allocated ≤ l.index ∧ l.index < a.allocated + (allocations is).length := by
  rw [mem_seed]
  constructor
  · rintro ⟨i, name, hi, hs | hs⟩
    · cases hs
    · cases hs
      have hlt : i < (allocations is).length := (List.getElem?_eq_some_iff.mp hi).1
      exact ⟨Nat.le_add_right .., Nat.add_lt_add_left hlt _⟩
  · rintro ⟨hle, hlt⟩
    have hi : l.index - a.allocated < (allocations is).length := by omega
    refine ⟨_, _, List.getElem?_eq_getElem hi, .inr ?_⟩
    rw [Nat.add_sub_cancel' hle]

theorem var_mem_seed {x : String} : .var x ∈ (seed is a).1 ↔ .alloca x ∈ is := by
  rw [mem_seed]
  constructor
  · rintro ⟨i, name, hi, hs | hs⟩
    · cases hs
      exact alloca_mem_of_getElem? hi
    · cases hs
  · intro h
    obtain ⟨i, hi⟩ := exists_getElem?_of_alloca_mem h
    exact ⟨i, x, hi, .inl rfl⟩

/-- Facts are about locations that the program took. -/
theorem loc_mem_seed_of_mem_pointsTo {t : Storage} {l : Location}
    (h : l ∈ (seed is a).1.pointsTo t) : .loc l ∈ (seed is a).1 := by
  obtain ⟨i, name, hi, -, rfl⟩ := mem_pointsTo_seed.mp h
  exact mem_seed.mpr ⟨i, name, hi, .inr rfl⟩

/-- **One variable points to each location**: the place of its allocation tells which. -/
theorem existsUnique_owner {l : Location} (h : .loc l ∈ (seed is a).1) :
    ∃! x, l ∈ (seed is a).1.pointsTo (.var x) := by
  obtain ⟨i, name, hi, hs | hs⟩ := mem_seed.mp h
  · cases hs
  · cases hs
    refine ⟨name, mem_pointsTo_var_seed.mpr ⟨i, hi, rfl⟩, fun x hx ↦ ?_⟩
    obtain ⟨j, hj, hij⟩ := mem_pointsTo_var_seed.mp hx
    have hij : i = j := Nat.add_left_cancel (congrArg Location.index hij)
    exact Option.some_inj.mp (hj.symm.trans (hij ▸ hi))

end Seeded

/-- **Allocations take fresh locations**, one each and in order, however many were handed out
before. -/
theorem seeded_seed (is : List Instruction) (n : Nat) :
    (Allocator.draw n).2.allocated = n ∧
      Seeded is n (seed is (Allocator.draw n).2).1 (seed is (Allocator.draw n).2).2 := by
  have hallocated : (Allocator.draw n).2.allocated = n := by rw [Allocator.draw_eq]
  have hfresh : ∀ l ∈ (Allocator.draw n).1, ¬ .loc l ∈ (seed is (Allocator.draw n).2).1 := by
    intro l hl hmem
    have hle := (loc_mem_seed.mp hmem).1
    rw [hallocated] at hle
    exact Nat.not_lt.mpr hle (Allocator.mem_draw.mp hl)
  refine ⟨hallocated, ?_⟩
  constructor
  case allocated => rw [seed, allocated_foldl_seedStep, hallocated]
  case facts => intro x l; rw [mem_pointsTo_var_seed, hallocated]
  case locations => intro l; rw [loc_mem_seed, hallocated]
  case empty => exact pointsTo_loc_seed
  case names => exact fun x ↦ var_mem_seed
  case owner => exact fun l ↦ existsUnique_owner
  case size => exact size_seed is _
  case fresh =>
    exact fun l hl ↦ ⟨hfresh l hl, fun t ht ↦ hfresh l hl (loc_mem_seed_of_mem_pointsTo ht)⟩

end Environment

end PointsTo
