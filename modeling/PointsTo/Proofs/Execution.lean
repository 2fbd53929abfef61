import Mathlib.Logic.Function.Basic
import PointsTo.Proofs.LeastSolution

/-!
# Programs that run, and what the analysis says about them

The analysis never runs a program.  This file does: a `Memory` holds objects, every one of them
created by some allocation of the program, and an instruction changes it in the obvious way.  There
is no control flow, so an execution is any list of places in the program, each of them as often and
in whatever order.  One allocation may thus create many objects, and objects may refer to each
other in circles.

What an execution does is covered by the analysis: abstract every object to the location of the
allocation that made it, and each reference in memory is a fact of the environment
(`Environment.Covers`).  An instruction keeps this as soon as the environment satisfies the rules of
the program (`Environment.Covers.execute`), so the statement about executions is an induction over
their length.  Variables that hold the same object therefore may alias.
-/

set_option autoImplicit false

namespace PointsTo

/-! ## Memory -/

/-- Something that an allocation created. -/
structure Object where
  /-- The location that stands for all objects of that allocation. -/
  site : Location
  /-- Tells the objects apart: no two that are created in one execution have the same number. -/
  serial : Nat
deriving DecidableEq

/-- The state of an execution. -/
structure Memory where
  /-- The object that a variable holds. -/
  held : String → Option Object := fun _ ↦ none
  /-- The object that is kept inside another one. -/
  content : Object → Option Object := fun _ ↦ none
  /-- How many objects there are. -/
  created : Nat := 0

namespace Memory

/-- The location that stands for the objects of the allocation at that place of a program. -/
def siteAt (is : List Instruction) (n : Nat) : Location := ⟨(allocations (is.take n)).length⟩

/-- The memory after the instruction at that place of a program. -/
def execute (is : List Instruction) (m : Memory) (n : Nat) : Memory :=
  match is[n]? with
  | some (.alloca name) =>
    let o : Object := ⟨siteAt is n, m.created⟩
    { held := Function.update m.held name (some o)
      content := Function.update m.content o none
      created := m.created + 1 }
  | some (.move dst src) =>
    { m with held := Function.update m.held dst (m.held src) }
  | some (.load dst reference) =>
    match m.held reference with
    | some o => { m with held := Function.update m.held dst (m.content o) }
    | none => m
  | some (.store reference src) =>
    match m.held reference with
    | some o => { m with content := Function.update m.content o (m.held src) }
    | none => m
  | none => m

/-- The memory after the instructions at these places, one after the other, from empty variables. -/
def run (is : List Instruction) (schedule : List Nat) : Memory := schedule.foldl (execute is) {}

/-- The location of an allocation is its number among the allocations. -/
theorem getElem?_allocations_siteAt {is : List Instruction} {n : Nat} {name : String}
    (h : is[n]? = some (.alloca name)) : (allocations is)[(siteAt is n).index]? = some name := by
  obtain ⟨hn, hi⟩ := List.getElem?_eq_some_iff.mp h
  have hsplit : is = is.take n ++ .alloca name :: is.drop (n + 1) := by
    rw [← hi, List.getElem_cons_drop, List.take_append_drop]
  have hallocs : allocations is
      = allocations (is.take n) ++ name :: allocations (is.drop (n + 1)) := by
    conv_lhs => rw [hsplit]
    rw [allocations, List.filterMap_append]
    rfl
  rw [hallocs, siteAt, List.getElem?_append_right (Nat.le_refl _), Nat.sub_self]
  rfl

end Memory

/-! ## What the analysis covers -/

namespace Environment

/-- Each reference in memory, abstracted to locations, is a fact of the environment. -/
structure Covers (e : Environment) (m : Memory) : Prop where
  /-- What a variable holds. -/
  held : ∀ x o, m.held x = some o → o.site ∈ e.pointsTo (.var x)
  /-- What an object contains. -/
  content : ∀ o o', m.content o = some o' → o'.site ∈ e.pointsTo (.loc o.site)

theorem covers_empty (e : Environment) : e.Covers {} where
  held _ _ h := by cases h
  content _ _ h := by cases h

variable {e : Environment} {m : Memory}

/-- Writing a variable, with a reference that the environment knows. -/
theorem Covers.write (h : e.Covers m) {x : String} {v : Option Object}
    (hv : ∀ o, v = some o → o.site ∈ e.pointsTo (.var x)) :
    e.Covers { m with held := Function.update m.held x v } where
  held y o hy := by
    by_cases hxy : y = x
    · subst hxy
      exact hv o (by simpa using hy)
    · have hy : Function.update m.held x v y = some o := hy
      rw [Function.update_of_ne hxy] at hy
      exact h.held y o hy
  content := h.content

/-- Writing into an object, with a reference that the environment knows. -/
theorem Covers.fill (h : e.Covers m) {o : Object} {v : Option Object}
    (hv : ∀ o', v = some o' → o'.site ∈ e.pointsTo (.loc o.site)) :
    e.Covers { m with content := Function.update m.content o v } where
  held := h.held
  content q o' hq := by
    by_cases hqo : q = o
    · subst hqo
      exact hv o' (by simpa using hq)
    · have hq : Function.update m.content o v q = some o' := hq
      rw [Function.update_of_ne hqo] at hq
      exact h.content q o' hq

/-- **One instruction.**  If the environment satisfies the rules of the program, it goes on covering
the memory. -/
theorem Covers.execute (h : e.Covers m) {is : List Instruction} (hs : Satisfies is e) (n : Nat) :
    e.Covers (m.execute is n) := by
  rw [Memory.execute]
  split
  · next name hi =>
    -- the new object is empty, and its site is the location of its allocation
    have hfill := h.fill (o := ⟨Memory.siteAt is n, m.created⟩) (v := none) (by simp)
    refine ⟨(hfill.write ?_).held, hfill.content⟩
    rintro o ⟨rfl⟩
    exact hs.alloca _ _ (Memory.getElem?_allocations_siteAt hi)
  · next dst src hi =>
    refine h.write fun o ho ↦ ?_
    exact hs.move dst src (List.mem_of_getElem? hi) _ (h.held src o ho)
  · next dst reference hi =>
    split
    · next r hr =>
      refine h.write fun o ho ↦ ?_
      exact hs.load dst reference (List.mem_of_getElem? hi) _ (h.held reference r hr) _
        (h.content r o ho)
    · exact h
  · next reference src hi =>
    split
    · next r hr =>
      refine h.fill fun o ho ↦ ?_
      exact hs.store reference src (List.mem_of_getElem? hi) _ (h.held reference r hr) _
        (h.held src o ho)
    · exact h
  · exact h

/-- **Any number of instructions.** -/
theorem covers_run {is : List Instruction} (hs : Satisfies is e) (schedule : List Nat) :
    e.Covers (Memory.run is schedule) := by
  have hrun : ∀ m : Memory, e.Covers m → e.Covers (schedule.foldl (Memory.execute is) m) := by
    induction schedule with
    | nil => exact fun m hm ↦ hm
    | cons n schedule ih => exact fun m hm ↦ ih _ (hm.execute hs n)
  exact hrun {} (covers_empty e)

/-- Variables that hold the same object may alias. -/
theorem Covers.mayAlias (h : e.Covers m) {x y : String} {o : Object}
    (hx : m.held x = some o) (hy : m.held y = some o) : e.mayAlias x y = true := by
  rw [Environment.mayAlias, PointsToSet.intersects_iff]
  exact ⟨o.site, h.held x o hx, h.held y o hy⟩

end Environment

/-- **The analysis covers every execution**: what a variable holds and what an object contains is
among the locations that the analysis gives for it, and variables that hold the same object may
alias. -/
theorem Program.analyze_covers (p : Program) :
    ∃ e, p.analyze = .ok e ∧ ∀ schedule,
      (∀ x o, (Memory.run p.instructions schedule).held x = some o →
        o.site ∈ e.pointsTo (.var x)) ∧
      (∀ o o', (Memory.run p.instructions schedule).content o = some o' →
        o'.site ∈ e.pointsTo (.loc o.site)) ∧
      ∀ x y o, (Memory.run p.instructions schedule).held x = some o →
        (Memory.run p.instructions schedule).held y = some o → e.mayAlias x y = true := by
  obtain ⟨s, hsolve, -, -, hsat, -⟩ := p.exists_settled (o := {}) rfl
  refine ⟨s.environment, ?_, fun schedule ↦ ?_⟩
  · rw [Program.analyze, hsolve]
    rfl
  · have hcovers := Environment.covers_run hsat schedule
    exact ⟨hcovers.held, hcovers.content, fun _ _ _ ↦ hcovers.mayAlias⟩

-- `a = alloca; b = alloca; *a = b; c = *a`: a pointer goes through the second object of its site
example :
    let m := Memory.run [.alloca "a", .alloca "b", .store "a" "b", .load "c" "a"] [0, 0, 1, 1, 2, 3]
    m.held "b" = some ⟨⟨1⟩, 3⟩ ∧ m.held "c" = some ⟨⟨1⟩, 3⟩ := by decide

end PointsTo
