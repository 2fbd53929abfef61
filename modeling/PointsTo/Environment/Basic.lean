import PointsTo.Instruction.Basic
import PointsTo.PointsToSet

/-!
# Environments

An environment maps storage to points-to sets.  Storage without an entry points to nothing, so
reading never fails; but an entry with an empty set is an entry all the same, and shows wherever the
entries of an environment are listed.  `Environment.materialize` is the operation that makes one.

Two views describe an environment completely: `pointsTo`, the set at each storage, and `∈`, the
storage that has an entry.  Each operation below comes with what it does to both.

Environments are ordered by inclusion at every storage, `Environment.compare?`.  There an entry with
an empty set counts as little as no entry, so two environments can compare equal without being the
same.

The analysis starts from `Environment.seed`.  Each allocation takes a fresh location, in the order
of the program.  Its variable points to that location, and the location has an entry of its own,
which is empty.
-/

set_option autoImplicit false

namespace PointsTo

open Std

/-- What each storage points to. -/
@[ext] structure Environment where
  /-- The entries, in the order of their storage. -/
  sets : ExtTreeMap Storage PointsToSet := ∅
deriving DecidableEq

namespace Environment

/-! ## Reading -/

/-- The environment without entries. -/
def empty : Environment := ⟨∅⟩

/-- The set at some storage, `none` if it has no entry. -/
def get? (e : Environment) (s : Storage) : Option PointsToSet := e.sets[s]?

/-- The set at some storage, empty if it has no entry. -/
def pointsTo (e : Environment) (s : Storage) : PointsToSet := e.sets.getD s ∅

/-- Whether some storage has an entry. -/
def contains (e : Environment) (s : Storage) : Bool := e.sets.contains s

instance : Membership Storage Environment := ⟨fun e s ↦ s ∈ e.sets⟩

theorem contains_iff_mem {e : Environment} {s : Storage} : e.contains s = true ↔ s ∈ e :=
  ExtTreeMap.contains_iff_mem

/-- The storage that has an entry, in order. -/
def keys (e : Environment) : List Storage := e.sets.keys

theorem mem_keys {e : Environment} {s : Storage} : s ∈ e.keys ↔ s ∈ e := ExtTreeMap.mem_keys

/-- The entries in order. -/
def entries (e : Environment) : List (Storage × PointsToSet) := e.sets.toList

/-- How many entries there are. -/
def length (e : Environment) : Nat := e.sets.size

/-- Whether there is no entry. -/
def isEmpty (e : Environment) : Bool := e.sets.isEmpty

/-- How many facts "this storage may point to that location" the environment holds. -/
def size (e : Environment) : Nat := e.entries.foldr (fun entry n ↦ entry.2.size + n) 0

/-- Whether two variables may point to the same location. -/
def mayAlias (e : Environment) (a b : String) : Bool :=
  (e.pointsTo (.var a)).intersects (e.pointsTo (.var b))

@[simp] theorem pointsTo_empty (s : Storage) : empty.pointsTo s = ∅ := by
  simp [pointsTo, empty]

@[simp] theorem not_mem_empty (s : Storage) : ¬ s ∈ empty := ExtTreeMap.not_mem_empty

/-- Storage that points somewhere has an entry. -/
theorem mem_of_mem_pointsTo {e : Environment} {s : Storage} {l : Location}
    (h : l ∈ e.pointsTo s) : s ∈ e := by
  by_cases hs : s ∈ e.sets
  · exact hs
  · rw [pointsTo, ExtTreeMap.getD_eq_fallback hs] at h
    exact absurd h ExtTreeSet.not_mem_empty

/-! ## Writing -/

/-- The environment with that set at that storage. -/
def set (e : Environment) (s : Storage) (a : PointsToSet) : Environment := ⟨e.sets.insert s a⟩

theorem pointsTo_set (e : Environment) (s t : Storage) (a : PointsToSet) :
    (e.set s a).pointsTo t = if t = s then a else e.pointsTo t := by
  simp [pointsTo, set, ExtTreeMap.getD_insert, @eq_comm _ t s]

theorem mem_set {e : Environment} {s t : Storage} {a : PointsToSet} :
    t ∈ e.set s a ↔ t = s ∨ t ∈ e := by
  refine ExtTreeMap.mem_insert.trans ?_
  rw [Std.compare_eq_iff_eq, eq_comm]; rfl

/-- The environment with an entry for that storage, empty if it had none. -/
def materialize (e : Environment) (s : Storage) : Environment := ⟨e.sets.insertIfNew s ∅⟩

@[simp] theorem pointsTo_materialize (e : Environment) (s t : Storage) :
    (e.materialize s).pointsTo t = e.pointsTo t := by
  rw [pointsTo, materialize, ExtTreeMap.getD_insertIfNew, pointsTo]
  split
  · next h =>
    rw [LawfulEqCmp.eq_of_compare h.1] at h ⊢
    rw [ExtTreeMap.getD_eq_fallback h.2]
  · rfl

theorem mem_materialize {e : Environment} {s t : Storage} :
    t ∈ e.materialize s ↔ t = s ∨ t ∈ e := by
  refine ExtTreeMap.mem_insertIfNew.trans ?_
  rw [Std.compare_eq_iff_eq, eq_comm]; rfl

/-- The environment with an entry for each storage in the list. -/
def materializeAll (e : Environment) (ss : List Storage) : Environment := ss.foldl materialize e

@[simp] theorem pointsTo_materializeAll (e : Environment) (ss : List Storage) (t : Storage) :
    (e.materializeAll ss).pointsTo t = e.pointsTo t := by
  induction ss generalizing e with
  | nil => rfl
  | cons s ss ih => rw [materializeAll, List.foldl_cons]; exact (ih _).trans (by simp)

theorem mem_materializeAll {e : Environment} {ss : List Storage} {t : Storage} :
    t ∈ e.materializeAll ss ↔ t ∈ ss ∨ t ∈ e := by
  induction ss generalizing e with
  | nil => simp [materializeAll]
  | cons s ss ih =>
    rw [materializeAll, List.foldl_cons]
    refine ih.trans ?_
    rw [mem_materialize, List.mem_cons]
    exact ⟨fun h ↦ h.elim (.inl ∘ .inr) (·.elim (.inl ∘ .inl) .inr),
      fun h ↦ h.elim (·.elim (.inr ∘ .inl) .inl) (.inr ∘ .inr)⟩

/-- An environment after a write, and whether the write added a fact. -/
structure Update where
  /-- The environment after the write. -/
  environment : Environment
  /-- Whether it holds a fact that the one before did not. -/
  grew : Bool

/-- Adds one location to the set at some storage. -/
def insert (e : Environment) (s : Storage) (l : Location) : Update :=
  ⟨e.set s ((e.pointsTo s).insert l), !(e.pointsTo s).contains l⟩

/-- Adds all that `src` points to to the set at `dst`.  Both have an entry afterwards. -/
def unite (e : Environment) (dst src : Storage) : Update :=
  let union := e.pointsTo dst ∪ e.pointsTo src
  ⟨(e.materialize src).set dst union, union.size != (e.pointsTo dst).size⟩

theorem pointsTo_insert (e : Environment) (s t : Storage) (l : Location) :
    (e.insert s l).environment.pointsTo t =
      if t = s then (e.pointsTo s).insert l else e.pointsTo t :=
  pointsTo_set ..

theorem mem_insert {e : Environment} {s t : Storage} {l : Location} :
    t ∈ (e.insert s l).environment ↔ t = s ∨ t ∈ e :=
  mem_set

theorem pointsTo_unite (e : Environment) (dst src t : Storage) :
    (e.unite dst src).environment.pointsTo t =
      if t = dst then e.pointsTo dst ∪ e.pointsTo src else e.pointsTo t := by
  rw [unite, pointsTo_set, pointsTo_materialize]

theorem mem_unite {e : Environment} {dst src t : Storage} :
    t ∈ (e.unite dst src).environment ↔ t = dst ∨ t = src ∨ t ∈ e := by
  rw [unite, mem_set, mem_materialize]

/-- **A union reports growth only if there is a new fact.** -/
theorem exists_of_grew_unite {e : Environment} {dst src : Storage}
    (h : (e.unite dst src).grew = true) : ∃ l, l ∈ e.pointsTo src ∧ l ∉ e.pointsTo dst := by
  apply Classical.byContradiction
  intro hn
  have heq : e.pointsTo dst ∪ e.pointsTo src = e.pointsTo dst := by
    refine ExtTreeSet.ext_mem fun l ↦ ?_
    rw [ExtTreeSet.mem_union_iff]
    refine ⟨fun hl ↦ hl.elim id fun hs ↦ ?_, .inl⟩
    exact Classical.byContradiction fun hd ↦ hn ⟨l, hs, hd⟩
  simp [unite, heq] at h

/-! ## Comparing -/

/-- Compares two environments at some storage. -/
def compareAt (a b : Environment) (s : Storage) : Comparison :=
  (a.pointsTo s).compare? (b.pointsTo s)

/-- Compares two environments, storage by storage over the entries of both. -/
def compare? (a b : Environment) : Comparison :=
  (a.keys ++ b.keys).foldl (fun c s ↦ c.both (compareAt a b s)) (some .eq)

/-! ## Before the first round -/

/-- The effect of one instruction on the environment and on the locations handed out. -/
def seedStep : Environment × Allocator → Instruction → Environment × Allocator
  | (e, a), .alloca name =>
    let (l, a) := a.fresh
    ((e.insert (.var name) l).environment.materialize (.loc l), a)
  | ea, _ => ea

/-- The facts that the allocations of a program give, with locations from an allocator. -/
def seed (is : List Instruction) (a : Allocator) : Environment × Allocator :=
  is.foldl seedStep (empty, a)

end Environment

end PointsTo
