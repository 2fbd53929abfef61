import Mathlib.Data.Nat.Find
import PointsTo.Proofs.Explanation

/-!
# Passes to saturation

One pass over a list of inclusions need not satisfy them, since a later inclusion may add to the
source of an earlier one, and what it leaves depends on the order of the list.  Here passes over the
same list are repeated until one of them adds nothing.

* **How many add something.**  At most as many as the list has destinations, counted without
  repetition.  The argument follows a single location.  Only destinations receive it, and a pass
  that moves it nowhere has found it wherever it has to be, so that no later pass moves it either
  (`Inclusion.mem_passes_of_still`).  Up to that point every pass moves it to a new destination
  (`Inclusion.lt_length_holders`).
* **Where they end.**  With the facts that chains of inclusions lead to from those at the start
  (`Inclusion.mem_passes_iff_flows`).  These chains are what the constraint graph searches, so a set
  at the end is the union of the sets from which its storage can be reached.

Neither the chains nor the entries that are made depend on the order of the list or on repetitions
in it, and so the end does not.
-/

set_option autoImplicit false

namespace PointsTo.Inclusion

open Std Relation ConstraintGraph

/-- The environment after some passes over the same inclusions. -/
def passes (is : List Inclusion) (e : Environment) (k : Nat) : Environment :=
  (fun e ↦ (propagate is e).environment)^[k] e

/-- The storage that the inclusions add to, each once. -/
def destinations (is : List Inclusion) : List Storage := (is.map dst).eraseDups

/-- Of the passes from an environment, the first `n` report growth and the others do not. -/
def SaturatesAfter (is : List Inclusion) (e : Environment) (n : Nat) : Prop :=
  ∀ k, (propagate is (passes is e k)).grew = true ↔ k < n

variable {is js : List Inclusion} {e : Environment} {s t : Storage} {l : Location} {k n : Nat}

theorem passes_succ (is : List Inclusion) (e : Environment) (k : Nat) :
    passes is e (k + 1) = (propagate is (passes is e k)).environment :=
  Function.iterate_succ_apply' ..

theorem mem_destinations : s ∈ destinations is ↔ ∃ i ∈ is, i.dst = s := by
  rw [destinations, List.mem_eraseDups, List.mem_map]

theorem mem_passes_succ (h : l ∈ (passes is e k).pointsTo s) :
    l ∈ (passes is e (k + 1)).pointsTo s := by
  rw [passes_succ]
  exact mem_propagate h

theorem mem_passes_of_mem (h : l ∈ e.pointsTo s) (k : Nat) : l ∈ (passes is e k).pointsTo s :=
  Function.Iterate.rec (fun e : Environment ↦ l ∈ e.pointsTo s) h (fun _ ↦ mem_propagate) k

/-! ## One location at a time -/

/-- The destinations that point to some location after some passes. -/
def holders (is : List Inclusion) (e : Environment) (l : Location) (k : Nat) : List Storage :=
  (destinations is).filter fun s ↦ ((passes is e k).pointsTo s).contains l

theorem mem_holders :
    s ∈ holders is e l k ↔ s ∈ destinations is ∧ l ∈ (passes is e k).pointsTo s := by
  rw [holders, List.mem_filter, ExtTreeSet.contains_iff_mem]

/-- **A location that stays where it is for one pass stays there.**  Its storage is closed under the
inclusions then. -/
theorem mem_passes_of_still
    (h : ∀ s, l ∈ (passes is e (k + 1)).pointsTo s → l ∈ (passes is e k).pointsTo s)
    (hl : l ∈ (passes is e (k + 2)).pointsTo s) : l ∈ (passes is e (k + 1)).pointsTo s := by
  -- other locations may still move, so the closed set of facts leaves them open
  have hclosed : ∀ i ∈ is, ∀ m, (m = l → l ∈ (passes is e k).pointsTo i.src) →
      m = l → l ∈ (passes is e k).pointsTo i.dst := by
    intro i hi m hsrc hm
    refine h i.dst ?_
    rw [passes_succ]
    exact mem_propagate_dst hi (hsrc hm)
  rw [passes_succ] at hl
  refine mem_passes_succ (forall_of_mem_propagate
    (F := fun s m ↦ m = l → l ∈ (passes is e k).pointsTo s) hclosed ?_ s l hl rfl)
  rintro s m hm rfl
  exact h s hm

/-- A pass that moves a location moves it to a new destination. -/
theorem length_holders_lt (hl : l ∈ (passes is e (k + 1)).pointsTo s)
    (hn : l ∉ (passes is e k).pointsTo s) :
    (holders is e l k).length < (holders is e l (k + 1)).length := by
  have hdst : s ∈ destinations is := by
    rw [passes_succ] at hl
    rcases exists_of_mem_propagate hl with hl | ⟨hdst, -⟩
    · exact absurd hl hn
    · exact mem_destinations.mpr hdst
  refine length_lt_of_subset_of_mem (y := s) ((nodup_eraseDups _).filter _) ?_
    (mem_holders.mpr ⟨hdst, hl⟩) fun h ↦ hn (mem_holders.mp h).2
  intro t ht
  obtain ⟨hdst, hl⟩ := mem_holders.mp ht
  exact mem_holders.mpr ⟨hdst, mem_passes_succ hl⟩

/-- **A location that a pass moves has at least as many holders as there were passes.**  The
induction is on the passes: the one before has moved it as well, or this one would not. -/
theorem lt_length_holders (hl : l ∈ (passes is e (k + 1)).pointsTo s)
    (hn : l ∉ (passes is e k).pointsTo s) : k < (holders is e l (k + 1)).length := by
  induction k generalizing s with
  | zero => exact Nat.lt_of_le_of_lt (Nat.zero_le _) (length_holders_lt hl hn)
  | succ k ih =>
    have hmoved : ∃ t, l ∈ (passes is e (k + 1)).pointsTo t ∧ l ∉ (passes is e k).pointsTo t := by
      by_contra hstill
      push Not at hstill
      exact hn (mem_passes_of_still hstill hl)
    obtain ⟨t, ht, hnt⟩ := hmoved
    exact Nat.lt_of_le_of_lt (ih ht hnt) (length_holders_lt hl hn)

/-! ## The number of passes -/

/-- **A pass that reports growth is among the first ones**, as many as there are destinations. -/
theorem lt_length_destinations_of_grew (h : (propagate is (passes is e k)).grew = true) :
    k < (destinations is).length := by
  obtain ⟨s, l, hl, hn⟩ := exists_of_grew_propagate h
  rw [← passes_succ] at hl
  exact Nat.lt_of_lt_of_le (lt_length_holders hl hn) (List.length_filter_le ..)

/-- After a pass without growth there is none with growth. -/
theorem grew_passes_of_succ (h : (propagate is (passes is e (k + 1))).grew = true) :
    (propagate is (passes is e k)).grew = true := by
  by_contra hg
  have hsame := pointsTo_propagate_of_grew_eq_false (Bool.eq_false_iff.mpr hg)
  rw [← passes_succ] at hsame
  obtain ⟨i, hi, hn⟩ := grew_propagate_iff.mp h
  exact hg (grew_propagate_iff.mpr ⟨i, hi, fun hh ↦ hn ((holds_congr hsame).mpr hh)⟩)

theorem grew_passes_of_le {m : Nat} (hm : m ≤ k)
    (h : (propagate is (passes is e k)).grew = true) :
    (propagate is (passes is e m)).grew = true := by
  induction k, hm using Nat.le_induction with
  | base => exact h
  | succ k _ ih => exact ih (grew_passes_of_succ h)

/-- **Passes come to an end**, and there are no more with growth than there are destinations. -/
theorem exists_saturatesAfter (is : List Inclusion) (e : Environment) :
    ∃ n ≤ (destinations is).length, SaturatesAfter is e n := by
  have hlast : ¬ (propagate is (passes is e (destinations is).length)).grew = true :=
    fun h ↦ Nat.lt_irrefl _ (lt_length_destinations_of_grew h)
  have hstill : ∃ k, ¬ (propagate is (passes is e k)).grew = true := ⟨_, hlast⟩
  refine ⟨Nat.find hstill, Nat.find_min' hstill hlast, fun k ↦ ⟨fun hk ↦ ?_, fun hk ↦ ?_⟩⟩
  · by_contra hle
    exact Nat.find_spec hstill (grew_passes_of_le (Nat.not_lt.mp hle) hk)
  · exact not_not.mp (Nat.find_min hstill hk)

theorem SaturatesAfter.holds (h : SaturatesAfter is e n) (hk : n ≤ k) :
    ∀ i ∈ is, i.Holds (passes is e k) :=
  holds_of_grew_eq_false (Bool.eq_false_iff.mpr fun hg ↦ Nat.not_lt.mpr hk ((h k).mp hg))

/-! ## Where the passes end -/

theorem exists_flows_of_mem_passes (h : l ∈ (passes is e k).pointsTo t) :
    ∃ s, l ∈ e.pointsTo s ∧ ReflTransGen (Flows is) s t := by
  induction k generalizing t l with
  | zero => exact ⟨t, h, .refl⟩
  | succ k ih =>
    rw [passes_succ] at h
    refine forall_of_mem_propagate
      (F := fun t l ↦ ∃ s, l ∈ e.pointsTo s ∧ ReflTransGen (Flows is) s t) ?_ (fun _ _ ↦ ih) t l h
    rintro i hi l ⟨s, hl, hs⟩
    exact ⟨s, hl, hs.tail hi⟩

/-- **Saturated facts are those that chains of inclusions lead to.** -/
theorem mem_passes_iff_flows (h : ∀ i ∈ is, i.Holds (passes is e k)) :
    l ∈ (passes is e k).pointsTo t ↔ ∃ s, l ∈ e.pointsTo s ∧ ReflTransGen (Flows is) s t := by
  refine ⟨exists_flows_of_mem_passes, ?_⟩
  rintro ⟨s, hl, hs⟩
  exact Environment.mem_pointsTo_of_flows h hs (mem_passes_of_mem hl k)

/-- The entries after the first pass, and after every later one. -/
theorem mem_environment_passes_succ :
    t ∈ passes is e (k + 1) ↔ t ∈ e ∨ ∃ i ∈ is, t = i.dst ∨ t = i.src := by
  induction k with
  | zero => exact mem_environment_propagate
  | succ k ih => rw [passes_succ, mem_environment_propagate, ih, or_assoc, or_self]

/-- **Saturation does not depend on the order of the inclusions**, or on repetitions. -/
theorem SaturatesAfter.passes_congr {m : Nat} (hi : SaturatesAfter is e n)
    (hj : SaturatesAfter js e m) (h : ∀ i, i ∈ js ↔ i ∈ is) :
    passes js e (m + 1) = passes is e (n + 1) := by
  refine Environment.eq_of_mem_iff_of_pointsTo_eq (fun t ↦ ?_) fun t ↦ ?_
  · simp only [mem_environment_passes_succ, h]
  · have hflows : Flows js = Flows is := funext₂ fun s t ↦ propext (h _)
    refine ExtTreeSet.ext_mem fun l ↦ ?_
    rw [mem_passes_iff_flows (hj.holds (Nat.le_succ m)),
      mem_passes_iff_flows (hi.holds (Nat.le_succ n)), hflows]

end PointsTo.Inclusion

namespace PointsTo

open Inclusion

/-- The constraint graph knows where the facts of its environment can get. -/
theorem ConstraintGraph.Represents.flows_iff_reachable {e : Environment} {is : List Inclusion}
    {g : ConstraintGraph} (h : Represents e (storageOf e is) is g) {s t : Storage} {l : Location}
    (hl : l ∈ e.pointsTo s) :
    Relation.ReflTransGen (Flows is) s t ↔ t = s ∨ ∃ r, g.reachable s = .ok r ∧ t ∈ r := by
  have hs : s ∈ storageOf e is :=
    List.mem_append_left _ (Environment.mem_keys.mpr (Environment.mem_of_mem_pointsTo hl))
  obtain ⟨r, hr, hmem⟩ := h.reachable hs
  constructor
  · exact fun ht ↦ .inr ⟨r, hr, (hmem t).mpr ht⟩
  · rintro (rfl | ⟨r', hr', ht⟩)
    · exact .refl
    · rw [hr, Except.ok.injEq] at hr'
      exact (hmem t).mp (hr' ▸ ht)

/-- **Repeated passes end at reachability.**  They report growth at most as often as there are
destinations.  In the end each storage has the sets of all storage from which the constraint graph
reaches it; and any list of the same inclusions leads to the same environment, entries included. -/
theorem Inclusion.passes_saturate (e : Environment) (is : List Inclusion) :
    ∃ n g, n ≤ (is.map Inclusion.dst).eraseDups.length ∧ SaturatesAfter is e n ∧
      ConstraintGraph.build e is = .ok g ∧
      (∀ t l, l ∈ (passes is e (n + 1)).pointsTo t ↔
        ∃ s, (t = s ∨ ∃ r, g.reachable s = .ok r ∧ t ∈ r) ∧ l ∈ e.pointsTo s) ∧
      ∀ js, (∀ i, i ∈ js ↔ i ∈ is) →
        ∃ m, SaturatesAfter js e m ∧ passes js e (m + 1) = passes is e (n + 1) := by
  obtain ⟨n, hn, hsat⟩ := exists_saturatesAfter is e
  obtain ⟨g, hg, hrep⟩ := ConstraintGraph.represents_build e is
  refine ⟨n, g, hn, hsat, hg, fun t l ↦ ?_, fun js hjs ↦ ?_⟩
  · rw [mem_passes_iff_flows (hsat.holds (Nat.le_succ n))]
    refine exists_congr fun s ↦ ?_
    rw [and_comm]
    exact and_congr_left fun hl ↦ hrep.flows_iff_reachable hl
  · obtain ⟨m, -, hm⟩ := exists_saturatesAfter js e
    exact ⟨m, hm, hsat.passes_congr hm hjs⟩

-- `c` includes `b` and `b` includes `a`: as listed, each pass gets one inclusion further, and the
-- bound is reached; the other way round one pass is enough
example :
    let is : List Inclusion := [⟨.var "c", .var "b"⟩, ⟨.var "b", .var "a"⟩]
    let e := (Environment.empty.insert (.var "a") ⟨0⟩).environment
    (destinations is).length = 2 ∧ (propagate is (passes is e 1)).grew = true ∧
      (propagate is (passes is e 2)).grew = false ∧
      (propagate is.reverse (passes is.reverse e 1)).grew = false := by decide +kernel

end PointsTo
