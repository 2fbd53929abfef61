import PointsTo.Proofs.Facts

/-!
# Comparing is inclusion

Two sets are compared by their sizes first, which leaves one inclusion to test, and two environments
storage by storage over the entries of both, so that common entries are looked at twice.  Here both
comparisons are shown to be inclusion: they answer "below or equal" exactly if the left side is
included in the right one (`Environment.isLE_compare?_iff`), and likewise for "above or equal".  The
other answers are combinations of these two; "equal" is both of them.

Inclusion is a preorder, and sides that include each other compare as equal, so the tests read off a
comparison make a partial order up to equality (`partialOrderUpTo_of_preorder`).  For sets this is
equality proper.  Environments can compare as equal and differ in entries that hold nothing.
-/

set_option autoImplicit false

namespace PointsTo

open Std (ExtTreeSet)

/-! ## Combining outcomes -/

namespace Comparison

theorem isEQ_eq (c : Comparison) : c.isEQ = (c.isLE && c.isGE) := by
  rcases c with _ | _ | _ | _ <;> rfl

theorem isLE_both (a b : Comparison) : (a.both b).isLE = (a.isLE && b.isLE) := by
  rcases a with _ | _ | _ | _ <;> rcases b with _ | _ | _ | _ <;> rfl

theorem isGE_both (a b : Comparison) : (a.both b).isGE = (a.isGE && b.isGE) := by
  rcases a with _ | _ | _ | _ <;> rcases b with _ | _ | _ | _ <;> rfl

theorem eq_some_lt_iff (c : Comparison) : c = some .lt ↔ c.isLE = true ∧ ¬ c.isGE = true := by
  rcases c with _ | _ | _ | _ <;> decide

theorem eq_some_eq_iff (c : Comparison) : c = some .eq ↔ c.isLE = true ∧ c.isGE = true := by
  rcases c with _ | _ | _ | _ <;> decide

theorem eq_some_gt_iff (c : Comparison) : c = some .gt ↔ c.isGE = true ∧ ¬ c.isLE = true := by
  rcases c with _ | _ | _ | _ <;> decide

theorem eq_none_iff (c : Comparison) : c = none ↔ ¬ c.isLE = true ∧ ¬ c.isGE = true := by
  rcases c with _ | _ | _ | _ <;> decide

/-- The two tests together tell the outcome. -/
theorem eq_of_isLE_eq_of_isGE_eq {c d : Comparison} (hle : c.isLE = d.isLE)
    (hge : c.isGE = d.isGE) : c = d := by
  revert hle hge
  rcases c with _ | _ | _ | _ <;> rcases d with _ | _ | _ | _ <;> decide

/-- A test that a combination passes if both parts do is passed by a combination of many parts if
all of them do. -/
theorem foldl_both {P : Comparison → Bool} (hP : ∀ a b, P (a.both b) = (P a && P b))
    (f : Storage → Comparison) (ss : List Storage) (c : Comparison) :
    P (ss.foldl (fun c s ↦ c.both (f s)) c) = (P c && ss.all fun s ↦ P (f s)) := by
  induction ss generalizing c with
  | nil => simp
  | cons s ss ih => rw [List.foldl_cons, ih, hP, List.all_cons, Bool.and_assoc]

end Comparison

/-! ## Sets -/

namespace PointsToSet

variable {a b : PointsToSet}

theorem size_le_of_subset (h : ∀ l, l ∈ a → l ∈ b) : a.size ≤ b.size := by
  rw [← ExtTreeSet.length_toList, ← ExtTreeSet.length_toList]
  refine (nodup_toList a).length_le_of_subset fun l hl ↦ ?_
  rw [ExtTreeSet.mem_toList] at hl ⊢
  exact h l hl

/-- A set that is included in one of no more members is that set. -/
theorem eq_of_subset_of_size_le (h : ∀ l, l ∈ a → l ∈ b) (hsize : b.size ≤ a.size) : a = b := by
  refine ExtTreeSet.ext_mem fun l ↦ ⟨h l, fun hb ↦ ?_⟩
  by_contra ha
  have hlt := size_lt_size_union hb ha
  have hle : (a ∪ b).size ≤ b.size :=
    size_le_of_subset fun k hk ↦ (ExtTreeSet.mem_union_iff.mp hk).elim (h k) id
  omega

/-- **Comparing sets is inclusion.** -/
theorem isLE_compare?_iff : (a.compare? b).isLE = true ↔ ∀ l, l ∈ a → l ∈ b := by
  rw [compare?]
  cases hsize : compare a.size b.size with
  | lt =>
    dsimp only
    rw [← isSubset_iff]
    cases a.isSubset b with
    | true => exact iff_of_true rfl rfl
    | false => exact iff_of_false Bool.false_ne_true Bool.false_ne_true
  | eq =>
    have hsize := Nat.compare_eq_eq.mp hsize
    dsimp only
    split
    · next hab => exact iff_of_true rfl fun l hl ↦ hab ▸ hl
    · next hab =>
      refine iff_of_false Bool.false_ne_true fun h ↦ hab ?_
      exact eq_of_subset_of_size_le h (Nat.le_of_eq hsize.symm)
  | gt =>
    have hsize := Nat.compare_eq_gt.mp hsize
    have hn : ¬ ∀ l, l ∈ a → l ∈ b := fun h ↦ Nat.not_lt.mpr (size_le_of_subset h) hsize
    dsimp only
    split
    · exact iff_of_false Bool.false_ne_true hn
    · exact iff_of_false Bool.false_ne_true hn

/-- Comparing the other way round gives the opposite outcome. -/
theorem isGE_compare? (a b : PointsToSet) : (a.compare? b).isGE = (b.compare? a).isLE := by
  rw [compare?, compare?, ← Nat.compare_swap a.size b.size]
  cases compare a.size b.size with
  | lt => dsimp only [Ordering.swap]; split <;> rfl
  | gt => dsimp only [Ordering.swap]; split <;> rfl
  | eq =>
    dsimp only [Ordering.swap]
    by_cases hab : a = b
    · rw [if_pos hab, if_pos hab.symm]; rfl
    · rw [if_neg hab, if_neg (Ne.symm hab)]; rfl

theorem isGE_compare?_iff : (a.compare? b).isGE = true ↔ ∀ l, l ∈ b → l ∈ a := by
  rw [isGE_compare?, isLE_compare?_iff]

theorem eq_iff_subset_subset : a = b ↔ (∀ l, l ∈ a → l ∈ b) ∧ ∀ l, l ∈ b → l ∈ a := by
  refine ⟨fun h ↦ h ▸ ⟨fun _ ↦ id, fun _ ↦ id⟩, fun h ↦ ?_⟩
  exact ExtTreeSet.ext_mem fun l ↦ ⟨h.1 l, h.2 l⟩

theorem compare?_eq_eq_iff : a.compare? b = some .eq ↔ a = b := by
  rw [Comparison.eq_some_eq_iff, isLE_compare?_iff, isGE_compare?_iff, eq_iff_subset_subset]

theorem compare?_eq_lt_iff : a.compare? b = some .lt ↔ (∀ l, l ∈ a → l ∈ b) ∧ a ≠ b := by
  rw [Comparison.eq_some_lt_iff, isLE_compare?_iff, isGE_compare?_iff, Ne, eq_iff_subset_subset]
  exact and_congr_right fun h ↦ not_congr (and_iff_right h).symm

theorem compare?_eq_gt_iff : a.compare? b = some .gt ↔ (∀ l, l ∈ b → l ∈ a) ∧ b ≠ a := by
  rw [Comparison.eq_some_gt_iff, isLE_compare?_iff, isGE_compare?_iff, Ne, eq_iff_subset_subset]
  exact and_congr_right fun h ↦ not_congr (and_iff_right h).symm

theorem compare?_eq_none_iff :
    a.compare? b = none ↔ (¬ ∀ l, l ∈ a → l ∈ b) ∧ ¬ ∀ l, l ∈ b → l ∈ a := by
  rw [Comparison.eq_none_iff, isLE_compare?_iff, isGE_compare?_iff]

end PointsToSet

/-! ## Environments -/

namespace Environment

variable {a b : Environment}

/-- Storage without an entry on either side does not matter. -/
theorem forall_keys_iff {F : PointsToSet → PointsToSet → Prop} (hF : F ∅ ∅) :
    (∀ s ∈ a.keys ++ b.keys, F (a.pointsTo s) (b.pointsTo s)) ↔
      ∀ s, F (a.pointsTo s) (b.pointsTo s) := by
  refine ⟨fun h s ↦ ?_, fun h s _ ↦ h s⟩
  by_cases hs : s ∈ a.keys ++ b.keys
  · exact h s hs
  · rw [List.mem_append, mem_keys, mem_keys, not_or] at hs
    rw [pointsTo_of_not_mem hs.1, pointsTo_of_not_mem hs.2]
    exact hF

/-- **Comparing environments is inclusion at every storage.** -/
theorem isLE_compare?_iff : (a.compare? b).isLE = true ↔ a ≤ b := by
  rw [compare?, Comparison.foldl_both Comparison.isLE_both, Bool.and_eq_true, List.all_eq_true]
  simp only [compareAt, PointsToSet.isLE_compare?_iff]
  rw [forall_keys_iff (F := fun x y ↦ ∀ l, l ∈ x → l ∈ y) fun _ ↦ id]
  exact and_iff_right rfl

theorem isGE_compare?_iff : (a.compare? b).isGE = true ↔ b ≤ a := by
  rw [compare?, Comparison.foldl_both Comparison.isGE_both, Bool.and_eq_true, List.all_eq_true]
  simp only [compareAt, PointsToSet.isGE_compare?, PointsToSet.isLE_compare?_iff]
  rw [forall_keys_iff (F := fun x y ↦ ∀ l, l ∈ y → l ∈ x) fun _ ↦ id]
  exact and_iff_right rfl

/-- Environments compare as equal exactly if they have the same facts. -/
theorem isEQ_compare?_iff : (a.compare? b).isEQ = true ↔ a ≤ b ∧ b ≤ a := by
  rw [Comparison.isEQ_eq, Bool.and_eq_true, isLE_compare?_iff, isGE_compare?_iff]

/-- **The outcome is "less" exactly if the right side has all facts of the left one and more.** -/
theorem compare?_eq_lt_iff : a.compare? b = some .lt ↔ a < b := by
  rw [Comparison.eq_some_lt_iff, isLE_compare?_iff, isGE_compare?_iff, lt_iff_le_not_ge]

theorem compare?_eq_eq_iff : a.compare? b = some .eq ↔ a ≤ b ∧ b ≤ a := by
  rw [Comparison.eq_some_eq_iff, isLE_compare?_iff, isGE_compare?_iff]

theorem compare?_eq_gt_iff : a.compare? b = some .gt ↔ b < a := by
  rw [Comparison.eq_some_gt_iff, isLE_compare?_iff, isGE_compare?_iff, lt_iff_le_not_ge]

theorem compare?_eq_none_iff : a.compare? b = none ↔ ¬ a ≤ b ∧ ¬ b ≤ a := by
  rw [Comparison.eq_none_iff, isLE_compare?_iff, isGE_compare?_iff]

/-- To have all facts of an environment and more is to differ from it at some storage. -/
theorem lt_iff_le_exists_ne : a < b ↔ a ≤ b ∧ ∃ s, a.pointsTo s ≠ b.pointsTo s := by
  rw [lt_iff_le_not_ge, ← not_forall, forall_pointsTo_eq_iff]
  exact and_congr_right fun h ↦ not_congr (and_iff_right h).symm

/-- The outcome depends on the sets only, not on which storage has an entry. -/
theorem compare?_congr {a' b' : Environment} (ha : ∀ s, a.pointsTo s = a'.pointsTo s)
    (hb : ∀ s, b.pointsTo s = b'.pointsTo s) : a.compare? b = a'.compare? b' := by
  have hle : (a.compare? b).isLE = (a'.compare? b').isLE := by
    rw [Bool.eq_iff_iff, isLE_compare?_iff, isLE_compare?_iff]
    exact forall_congr' fun s ↦ by rw [ha, hb]
  have hge : (a.compare? b).isGE = (a'.compare? b').isGE := by
    rw [Bool.eq_iff_iff, isGE_compare?_iff, isGE_compare?_iff]
    exact forall_congr' fun s ↦ by rw [ha, hb]
  exact Comparison.eq_of_isLE_eq_of_isGE_eq hle hge

/-- An entry with an empty set adds nothing to storage without one. -/
theorem pointsTo_set_empty {s : Storage} (h : ¬ s ∈ a) (t : Storage) :
    (a.set s ∅).pointsTo t = a.pointsTo t := by
  rw [pointsTo_set]
  split
  · next hts => rw [hts, pointsTo_of_not_mem h]
  · rfl

end Environment

/-! ## A partial order up to equality -/

/-- One test is an equivalence, and the other a partial order once what the first one takes for
equal is taken for the same. -/
structure PartialOrderUpTo {α : Type} (eq le : α → α → Bool) : Prop where
  /-- The first test is an equivalence. -/
  equivalence : Equivalence fun a b ↦ eq a b = true
  /-- Equal sides are below each other. -/
  le_of_eq : ∀ a b, eq a b = true → le a b = true
  /-- What is below something is below all that is above it. -/
  trans : ∀ a b c, le a b = true → le b c = true → le a c = true
  /-- Sides that are below each other are equal. -/
  antisymm : ∀ a b, le a b = true → le b a = true → eq a b = true

/-- A test for a preorder is a partial order up to being below each other. -/
theorem partialOrderUpTo_of_preorder {α : Type} {eq le : α → α → Bool} {R : α → α → Prop}
    (hrefl : ∀ a, R a a) (htrans : ∀ a b c, R a b → R b c → R a c)
    (hle : ∀ a b, le a b = true ↔ R a b) (heq : ∀ a b, eq a b = true ↔ R a b ∧ R b a) :
    PartialOrderUpTo eq le := by
  refine ⟨⟨fun a ↦ ?_, fun {a b} h ↦ ?_, fun {a b c} hab hbc ↦ ?_⟩, fun a b h ↦ ?_,
    fun a b c hab hbc ↦ ?_, fun a b hab hba ↦ ?_⟩
  · exact (heq a a).mpr ⟨hrefl a, hrefl a⟩
  · exact (heq b a).mpr ((heq a b).mp h).symm
  · obtain ⟨hab, hba⟩ := (heq a b).mp hab
    obtain ⟨hbc, hcb⟩ := (heq b c).mp hbc
    exact (heq a c).mpr ⟨htrans a b c hab hbc, htrans c b a hcb hba⟩
  · exact (hle a b).mpr ((heq a b).mp h).1
  · exact (hle a c).mpr (htrans a b c ((hle a b).mp hab) ((hle b c).mp hbc))
  · exact (heq a b).mpr ⟨(hle a b).mp hab, (hle b a).mp hba⟩

/-- **Comparing is inclusion**, for environments at every storage and for sets, and each of the four
outcomes says what it should.  So on both the tests that are read off an outcome are an equivalence
and a partial order up to it; and storage without an entry compares like storage with an empty
set. -/
theorem comparing_is_inclusion :
    (∀ a b : Environment,
      (a.compare? b = some .eq ↔ ∀ s, a.pointsTo s = b.pointsTo s) ∧
      (a.compare? b = some .lt ↔
        (∀ s l, l ∈ a.pointsTo s → l ∈ b.pointsTo s) ∧ ∃ s, a.pointsTo s ≠ b.pointsTo s) ∧
      (a.compare? b = some .gt ↔
        (∀ s l, l ∈ b.pointsTo s → l ∈ a.pointsTo s) ∧ ∃ s, b.pointsTo s ≠ a.pointsTo s) ∧
      (a.compare? b = none ↔
        (¬ ∀ s l, l ∈ a.pointsTo s → l ∈ b.pointsTo s) ∧
          ¬ ∀ s l, l ∈ b.pointsTo s → l ∈ a.pointsTo s)) ∧
    (∀ a b : PointsToSet,
      (a.compare? b = some .eq ↔ a = b) ∧
      (a.compare? b = some .lt ↔ (∀ l, l ∈ a → l ∈ b) ∧ a ≠ b) ∧
      (a.compare? b = some .gt ↔ (∀ l, l ∈ b → l ∈ a) ∧ b ≠ a) ∧
      (a.compare? b = none ↔ (¬ ∀ l, l ∈ a → l ∈ b) ∧ ¬ ∀ l, l ∈ b → l ∈ a)) ∧
    PartialOrderUpTo (fun a b : Environment ↦ (a.compare? b).isEQ) (fun a b ↦ (a.compare? b).isLE) ∧
    PartialOrderUpTo (fun a b : PointsToSet ↦ a == b) (fun a b ↦ (a.compare? b).isLE) ∧
    ∀ (a b : Environment) (s : Storage), ¬ s ∈ a →
      (a.set s ∅).compare? b = a.compare? b ∧ b.compare? (a.set s ∅) = b.compare? a := by
  refine ⟨fun a b ↦ ⟨?_, ?_, ?_, ?_⟩, fun a b ↦ ⟨?_, ?_, ?_, ?_⟩, ?_, ?_, fun a b s hs ↦ ?_⟩
  · rw [Environment.compare?_eq_eq_iff, Environment.forall_pointsTo_eq_iff]
  · exact Environment.compare?_eq_lt_iff.trans Environment.lt_iff_le_exists_ne
  · exact Environment.compare?_eq_gt_iff.trans Environment.lt_iff_le_exists_ne
  · exact Environment.compare?_eq_none_iff
  · exact PointsToSet.compare?_eq_eq_iff
  · exact PointsToSet.compare?_eq_lt_iff
  · exact PointsToSet.compare?_eq_gt_iff
  · exact PointsToSet.compare?_eq_none_iff
  · exact partialOrderUpTo_of_preorder (R := (· ≤ ·)) le_refl (fun _ _ _ ↦ le_trans)
      (fun _ _ ↦ Environment.isLE_compare?_iff) fun _ _ ↦ Environment.isEQ_compare?_iff
  · refine partialOrderUpTo_of_preorder (R := fun a b ↦ ∀ l, l ∈ a → l ∈ b) (fun _ _ ↦ id)
      (fun _ _ _ hab hbc l ↦ hbc l ∘ hab l) (fun _ _ ↦ PointsToSet.isLE_compare?_iff) fun a b ↦ ?_
    rw [beq_iff_eq, PointsToSet.eq_iff_subset_subset]
  · have hsets := Environment.pointsTo_set_empty hs
    exact ⟨Environment.compare?_congr hsets fun _ ↦ rfl,
      Environment.compare?_congr (fun _ ↦ rfl) hsets⟩

end PointsTo
