import PointsTo.Inclusion.Basic
import PointsTo.Proofs.Facts

/-!
# What a pass over inclusions achieves

`Inclusion.evaluate` and `Inclusion.propagate` change an environment in place, each inclusion in
what the ones before it have left.  Here is what can be said about the outcome without mentioning
the order:

* a pass stays inside every set of facts that contains the environment and is closed under the
  inclusions (`Inclusion.forall_of_mem_propagate`), so it adds nothing but consequences of them;
* a pass reports growth exactly if one of the inclusions fails in the environment it starts from
  (`Inclusion.grew_propagate_iff`), and exactly if there are more facts after it.  If it reports
  none, all of them hold and nothing has moved;
* a pass gives an entry to both sides of each of its inclusions, and to nothing else
  (`Inclusion.mem_environment_propagate`);
* a pass over a larger environment ends in a larger one (`Inclusion.propagate_mono`).  More
  inclusions lead further as well if those of the shorter pass are `Inclusion.Flat`: none of them
  adds to the source of another one, so that the pass moves only what was there before it.
-/

set_option autoImplicit false

namespace PointsTo.Inclusion

open Std

/-- The environment satisfies the inclusion. -/
def Holds (i : Inclusion) (e : Environment) : Prop :=
  ∀ l, l ∈ e.pointsTo i.src → l ∈ e.pointsTo i.dst

/-- Whether an inclusion holds depends on the sets only. -/
theorem holds_congr {i : Inclusion} {e e' : Environment}
    (h : ∀ s, e.pointsTo s = e'.pointsTo s) : i.Holds e ↔ i.Holds e' := by
  rw [Holds, Holds, h, h]

/-! ## One inclusion -/

/-- Evaluating an inclusion reports growth exactly if it did not hold. -/
theorem grew_evaluate_iff {i : Inclusion} {e : Environment} :
    (i.evaluate e).grew = true ↔ ¬ i.Holds e := by
  constructor
  · intro hg hi
    obtain ⟨l, hs, hd⟩ := Environment.exists_of_grew_unite hg
    exact hd (hi l hs)
  · intro hn
    rw [Holds] at hn
    push Not at hn
    obtain ⟨l, hs, hd⟩ := hn
    have hlt := PointsToSet.size_lt_size_union hs hd
    rw [evaluate, Environment.unite, bne_iff_ne]
    exact Nat.ne_of_gt hlt

/-- Evaluating an inclusion that holds moves nothing. -/
theorem pointsTo_evaluate_of_holds {i : Inclusion} {e : Environment} (h : i.Holds e)
    (s : Storage) : (i.evaluate e).environment.pointsTo s = e.pointsTo s := by
  refine ExtTreeSet.ext_mem fun l ↦ ⟨fun hl ↦ ?_, mem_evaluate⟩
  rcases exists_of_mem_evaluate hl with hl | ⟨rfl, hsrc⟩
  · exact hl
  · exact h l hsrc

/-! ## A pass -/

theorem le_propagate (is : List Inclusion) (e : Environment) :
    e ≤ (propagate is e).environment :=
  fun _ _ ↦ mem_propagate

/-- **A pass adds only consequences of its inclusions**: whatever contains the environment and is
closed under the inclusions contains the environment after the pass. -/
theorem forall_of_mem_propagate {F : Storage → Location → Prop} {is : List Inclusion}
    (hF : ∀ i ∈ is, ∀ l, F i.src l → F i.dst l) {e : Environment}
    (he : ∀ s l, l ∈ e.pointsTo s → F s l) :
    ∀ s l, l ∈ (propagate is e).environment.pointsTo s → F s l := by
  induction is generalizing e with
  | nil => exact he
  | cons i is ih =>
    rw [environment_propagate_cons]
    refine ih (fun j hj ↦ hF j (List.mem_cons_of_mem _ hj)) ?_
    intro s l hl
    rcases exists_of_mem_evaluate hl with hl | ⟨rfl, hsrc⟩
    · exact he s l hl
    · exact hF i List.mem_cons_self l (he _ l hsrc)

theorem grew_propagate_cons (i : Inclusion) (is : List Inclusion) (e : Environment) :
    (propagate (i :: is) e).grew =
      ((i.evaluate e).grew || (propagate is (i.evaluate e).environment).grew) := by
  rw [Propagation.grew, propagate]
  cases (i.evaluate e).grew with
  | true => rfl
  | false => rfl

/-- **A pass reports growth exactly if one of its inclusions fails beforehand.** -/
theorem grew_propagate_iff {is : List Inclusion} {e : Environment} :
    (propagate is e).grew = true ↔ ∃ i ∈ is, ¬ i.Holds e := by
  induction is generalizing e with
  | nil => simp [Propagation.grew]
  | cons i is ih =>
    rw [grew_propagate_cons, Bool.or_eq_true, grew_evaluate_iff, ih, List.exists_mem_cons_iff]
    by_cases hi : i.Holds e
    · -- nothing has moved, so the rest of the pass starts from the same sets
      simp only [holds_congr (pointsTo_evaluate_of_holds hi)]
    · simp only [hi, not_false_eq_true, true_or]

/-- A pass without growth found all its inclusions satisfied. -/
theorem holds_of_grew_eq_false {is : List Inclusion} {e : Environment}
    (h : (propagate is e).grew = false) : ∀ i ∈ is, i.Holds e := by
  intro i hi
  by_contra hn
  rw [grew_propagate_iff.mpr ⟨i, hi, hn⟩] at h
  exact absurd h (by simp)

/-- A pass over inclusions that hold moves nothing. -/
theorem pointsTo_propagate_of_holds {is : List Inclusion} {e : Environment}
    (h : ∀ i ∈ is, i.Holds e) (s : Storage) :
    (propagate is e).environment.pointsTo s = e.pointsTo s := by
  refine Environment.pointsTo_eq_of_le_of_le ?_ (le_propagate is e) s
  exact forall_of_mem_propagate (F := fun s l ↦ l ∈ e.pointsTo s) h fun _ _ hl ↦ hl

/-- **A pass without growth moves nothing.** -/
theorem pointsTo_propagate_of_grew_eq_false {is : List Inclusion} {e : Environment}
    (h : (propagate is e).grew = false) (s : Storage) :
    (propagate is e).environment.pointsTo s = e.pointsTo s :=
  pointsTo_propagate_of_holds (holds_of_grew_eq_false h) s

/-- A pass leaves the environment below whatever satisfies its inclusions. -/
theorem propagate_le_of_holds {is : List Inclusion} {e f : Environment} (hle : e ≤ f)
    (h : ∀ i ∈ is, i.Holds f) : (propagate is e).environment ≤ f :=
  forall_of_mem_propagate (F := fun s l ↦ l ∈ f.pointsTo s) h hle

/-- A pass moves nothing to storage that is no destination. -/
theorem pointsTo_propagate_of_ne_dst {is : List Inclusion} {e : Environment} {t : Storage}
    (h : ∀ i ∈ is, i.dst ≠ t) : (propagate is e).environment.pointsTo t = e.pointsTo t := by
  refine ExtTreeSet.ext_mem fun l ↦ ⟨fun hl ↦ ?_, mem_propagate⟩
  rcases exists_of_mem_propagate hl with hl | ⟨⟨i, hi, ht⟩, -⟩
  · exact hl
  · exact absurd ht (h i hi)

/-- **A pass reports growth exactly if it ends with more facts.** -/
theorem grew_propagate_iff_size_lt {is : List Inclusion} {e : Environment} :
    (propagate is e).grew = true ↔ e.size < (propagate is e).environment.size := by
  rw [Environment.size_lt_iff_lt_of_le (le_propagate is e)]
  constructor
  · intro hg
    obtain ⟨s, l, hl, hn⟩ := exists_of_grew_propagate hg
    exact lt_of_le_not_ge (le_propagate is e) fun hge ↦ hn (hge s l hl)
  · intro hlt
    by_contra hg
    have hsame := pointsTo_propagate_of_grew_eq_false (Bool.eq_false_iff.mpr hg)
    exact (lt_iff_le_not_ge.mp hlt).2 fun s l hl ↦ hsame s ▸ hl

/-! ## Entries -/

/-- **A pass gives both sides of its inclusions an entry**, and nothing else. -/
theorem mem_environment_propagate {is : List Inclusion} {e : Environment} {t : Storage} :
    t ∈ (propagate is e).environment ↔ t ∈ e ∨ ∃ i ∈ is, t = i.dst ∨ t = i.src := by
  induction is generalizing e with
  | nil => simp
  | cons i is ih =>
    rw [environment_propagate_cons, ih, evaluate, Environment.mem_unite, List.exists_mem_cons_iff,
      or_rotate, or_rotate, or_assoc]

/-! ## More facts, more inclusions -/

theorem evaluate_mono (i : Inclusion) {e e' : Environment} (h : e ≤ e') :
    (i.evaluate e).environment ≤ (i.evaluate e').environment := by
  intro s l hl
  rcases exists_of_mem_evaluate hl with hl | ⟨rfl, hsrc⟩
  · exact mem_evaluate (h s l hl)
  · rw [evaluate, Environment.pointsTo_unite, if_pos rfl]
    exact ExtTreeSet.mem_union_of_right (h _ l hsrc)

/-- **A pass from a larger environment ends in a larger one.** -/
theorem propagate_mono (is : List Inclusion) {e e' : Environment} (h : e ≤ e') :
    (propagate is e).environment ≤ (propagate is e').environment := by
  induction is generalizing e e' with
  | nil => exact h
  | cons i is ih => exact ih (evaluate_mono i h)

theorem environment_propagate_append (is js : List Inclusion) (e : Environment) :
    (propagate (is ++ js) e).environment =
      (propagate js (propagate is e).environment).environment := by
  induction is generalizing e with
  | nil => rfl
  | cons i is ih => exact ih _

/-- What a source points to before a pass its destination points to after it. -/
theorem mem_propagate_dst {is : List Inclusion} {i : Inclusion} (hi : i ∈ is) {e : Environment}
    {l : Location} (hl : l ∈ e.pointsTo i.src) :
    l ∈ (propagate is e).environment.pointsTo i.dst := by
  induction is generalizing e with
  | nil => cases hi
  | cons j is ih =>
    rw [environment_propagate_cons]
    rcases List.mem_cons.mp hi with rfl | hi
    · refine mem_propagate ?_
      rw [evaluate, Environment.pointsTo_unite, if_pos rfl]
      exact ExtTreeSet.mem_union_of_right hl
    · exact ih hi (mem_evaluate hl)

/-- No inclusion of the list adds to the source of one in the list. -/
def Flat (is : List Inclusion) : Prop := ∀ i ∈ is, ∀ j ∈ is, i.dst ≠ j.src

/-- **A pass over a flat list is one step**: each destination receives what the sources point to
before the pass. -/
theorem Flat.mem_propagate_iff {is : List Inclusion} (h : Flat is) {e : Environment} {s : Storage}
    {l : Location} :
    l ∈ (propagate is e).environment.pointsTo s ↔
      l ∈ e.pointsTo s ∨ ∃ i ∈ is, i.dst = s ∧ l ∈ e.pointsTo i.src := by
  constructor
  · intro hl
    induction is generalizing e with
    | nil => exact .inl hl
    | cons i is ih =>
      have htail : Flat is := fun j hj k hk ↦
        h j (List.mem_cons_of_mem _ hj) k (List.mem_cons_of_mem _ hk)
      rcases ih htail hl with hl | ⟨j, hj, hs, hsrc⟩
      · rcases exists_of_mem_evaluate hl with hl | ⟨hs, hsrc⟩
        · exact .inl hl
        · exact .inr ⟨i, List.mem_cons_self, hs.symm, hsrc⟩
      · -- the source of a later inclusion is as it was before the first one
        have hne : j.src ≠ i.dst := (h i List.mem_cons_self j (List.mem_cons_of_mem _ hj)).symm
        rw [evaluate, Environment.pointsTo_unite, if_neg hne] at hsrc
        exact .inr ⟨j, List.mem_cons_of_mem _ hj, hs, hsrc⟩
  · rintro (hl | ⟨i, hi, rfl, hl⟩)
    · exact mem_propagate hl
    · exact mem_propagate_dst hi hl

/-- **More inclusions lead further than a flat list.** -/
theorem Flat.propagate_le {is js : List Inclusion} (h : Flat is) (hsub : is ⊆ js)
    {e e' : Environment} (he : e ≤ e') :
    (propagate is e).environment ≤ (propagate js e').environment := by
  intro s l hl
  rcases h.mem_propagate_iff.mp hl with hl | ⟨i, hi, rfl, hsrc⟩
  · exact mem_propagate (he s l hl)
  · exact mem_propagate_dst (hsub hi) (he _ l hsrc)

/-! ## The outcome, in all -/

/-- **What a pass does**, whatever its inclusions and the environment.  It reports growth exactly if
one of the inclusions fails beforehand, and exactly if the number of facts grows.  It loses nothing
and makes entries for the sides of its inclusions only; it changes sets of destinations only; and it
stays below everything above the environment in which all its inclusions hold.  So a pass that
reports no growth has found all of them satisfied, and changed no set. -/
theorem propagate_outcome (is : List Inclusion) (e : Environment) :
    ((propagate is e).grew = true ↔ ∃ i ∈ is, ¬ i.Holds e) ∧
    ((propagate is e).grew = true ↔ e.size < (propagate is e).environment.size) ∧
    (∀ t l, l ∈ e.pointsTo t → l ∈ (propagate is e).environment.pointsTo t) ∧
    (∀ t, t ∈ (propagate is e).environment ↔ t ∈ e ∨ ∃ i ∈ is, t = i.dst ∨ t = i.src) ∧
    (∀ t, (∀ i ∈ is, i.dst ≠ t) → (propagate is e).environment.pointsTo t = e.pointsTo t) ∧
    (∀ f, e ≤ f → (∀ i ∈ is, i.Holds f) → (propagate is e).environment ≤ f) ∧
    ((propagate is e).grew = false →
      (∀ i ∈ is, i.Holds (propagate is e).environment) ∧
      ∀ t, (propagate is e).environment.pointsTo t = e.pointsTo t) := by
  refine ⟨grew_propagate_iff, grew_propagate_iff_size_lt, fun t l ↦ mem_propagate,
    fun t ↦ mem_environment_propagate, fun t ↦ pointsTo_propagate_of_ne_dst,
    fun f ↦ propagate_le_of_holds, fun hg ↦ ?_⟩
  have hsame := pointsTo_propagate_of_grew_eq_false hg
  exact ⟨fun i hi ↦ (holds_congr hsame).mpr (holds_of_grew_eq_false hg i hi), hsame⟩

end PointsTo.Inclusion
