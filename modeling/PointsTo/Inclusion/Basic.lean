import PointsTo.Environment.Basic

/-!
# Inclusions

An inclusion says that one storage points to all that another points to.  Evaluating it makes it
true by adding what is missing.  Propagating along a list of inclusions evaluates each of them once,
in order, every one in the environment that the one before has left.

A single pass need not make all of them true: a later inclusion may add to the source of an earlier
one.  What a pass does add is reported as its `growths`, one for each inclusion that added
something, and there are none exactly when nothing was missing.
-/

set_option autoImplicit false

namespace PointsTo

/-- The constraint that `dst` points to all that `src` points to. -/
structure Inclusion where
  /-- The storage whose set includes the other. -/
  dst : Storage
  /-- The storage whose set is included. -/
  src : Storage
deriving DecidableEq, Ord

namespace Inclusion

/-- The written form of an inclusion. -/
def render (i : Inclusion) : String :=
  "Alias(" ++ i.dst.render ++ ") >= Alias(" ++ i.src.render ++ ")"

/-- Whether both sides are the same storage. -/
def isSelf (i : Inclusion) : Bool := i.dst == i.src

/-- Adds to `dst` what it lacks of `src`. -/
def evaluate (i : Inclusion) (e : Environment) : Environment.Update := e.unite i.dst i.src

/-- An inclusion that added something, and the set at its `dst` right afterwards. -/
structure Growth where
  /-- The inclusion that was evaluated. -/
  inclusion : Inclusion
  /-- All that its `dst` points to now. -/
  set : PointsToSet

/-- An environment after a pass over some inclusions, and what the pass added. -/
structure Propagation where
  /-- The environment after the pass. -/
  environment : Environment
  /-- The inclusions that added something, in the order of the pass. -/
  growths : List Growth

/-- Whether a pass added something. -/
def Propagation.grew (p : Propagation) : Bool := !p.growths.isEmpty

/-- Evaluates each inclusion once, in order. -/
def propagate : List Inclusion → Environment → Propagation
  | [], e => ⟨e, []⟩
  | i :: is, e =>
    let u := i.evaluate e
    let p := propagate is u.environment
    ⟨p.environment,
      if u.grew then ⟨i, u.environment.pointsTo i.dst⟩ :: p.growths else p.growths⟩

@[simp] theorem propagate_nil (e : Environment) : propagate [] e = ⟨e, []⟩ := rfl

theorem environment_propagate_cons (i : Inclusion) (is : List Inclusion) (e : Environment) :
    (propagate (i :: is) e).environment = (propagate is (i.evaluate e).environment).environment :=
  rfl

/-- Evaluating an inclusion keeps every fact. -/
theorem mem_evaluate {i : Inclusion} {e : Environment} {s : Storage} {l : Location}
    (h : l ∈ e.pointsTo s) : l ∈ (i.evaluate e).environment.pointsTo s := by
  rw [evaluate, Environment.pointsTo_unite]
  split
  · next hs => rw [hs] at h; exact Std.ExtTreeSet.mem_union_of_left h
  · exact h

/-- **A pass keeps every fact.** -/
theorem mem_propagate {is : List Inclusion} {e : Environment} {s : Storage} {l : Location}
    (h : l ∈ e.pointsTo s) : l ∈ (propagate is e).environment.pointsTo s := by
  induction is generalizing e with
  | nil => exact h
  | cons i is ih => exact ih (mem_evaluate h)

/-- Every fact after an evaluation was there before, or moves a location to the `dst`. -/
theorem exists_of_mem_evaluate {i : Inclusion} {e : Environment} {s : Storage} {l : Location}
    (h : l ∈ (i.evaluate e).environment.pointsTo s) :
    l ∈ e.pointsTo s ∨ s = i.dst ∧ l ∈ e.pointsTo i.src := by
  rw [evaluate, Environment.pointsTo_unite] at h
  split at h
  · next hs =>
    rw [Std.ExtTreeSet.mem_union_iff] at h
    exact h.imp (fun hl ↦ hs ▸ hl) fun hl ↦ ⟨hs, hl⟩
  · exact .inl h

/-- **A pass brings no location from outside**, and moves locations to the `dst`s only. -/
theorem exists_of_mem_propagate {is : List Inclusion} {e : Environment} {s : Storage}
    {l : Location} (h : l ∈ (propagate is e).environment.pointsTo s) :
    l ∈ e.pointsTo s ∨ (∃ i ∈ is, i.dst = s) ∧ ∃ t, l ∈ e.pointsTo t := by
  induction is generalizing e with
  | nil => exact .inl h
  | cons i is ih =>
    rcases ih h with hl | ⟨⟨j, hj, hs⟩, t, hl⟩
    · rcases exists_of_mem_evaluate hl with hl | ⟨hs, hl⟩
      · exact .inl hl
      · exact .inr ⟨⟨i, List.mem_cons_self, hs.symm⟩, _, hl⟩
    · refine .inr ⟨⟨j, List.mem_cons_of_mem _ hj, hs⟩, ?_⟩
      rcases exists_of_mem_evaluate hl with hl | ⟨-, hl⟩
      · exact ⟨_, hl⟩
      · exact ⟨_, hl⟩

/-- **A pass that reports growth adds a fact.** -/
theorem exists_of_grew_propagate {is : List Inclusion} {e : Environment}
    (h : (propagate is e).grew = true) :
    ∃ s l, l ∈ (propagate is e).environment.pointsTo s ∧ l ∉ e.pointsTo s := by
  induction is generalizing e with
  | nil => simp [Propagation.grew] at h
  | cons i is ih =>
    cases hg : (i.evaluate e).grew with
    | true =>
      obtain ⟨l, hl, hn⟩ := Environment.exists_of_grew_unite hg
      refine ⟨i.dst, l, ?_, hn⟩
      rw [environment_propagate_cons]
      refine mem_propagate ?_
      rw [evaluate, Environment.pointsTo_unite, if_pos rfl]
      exact Std.ExtTreeSet.mem_union_of_right hl
    | false =>
      have h' : (propagate is (i.evaluate e).environment).grew = true := by
        simpa [Propagation.grew, propagate, hg] using h
      obtain ⟨s, l, hl, hn⟩ := ih h'
      exact ⟨s, l, hl, fun hs ↦ hn (mem_evaluate hs)⟩

end Inclusion

end PointsTo
