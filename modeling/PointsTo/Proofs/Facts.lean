import Mathlib.Data.List.Nodup
import Mathlib.Order.Defs.PartialOrder
import PointsTo.Distinct
import PointsTo.Environment.Basic

/-!
# The facts of an environment

A fact says that some storage may point to some location.  What an environment knows is the list of
its facts, each of them once: `Environment.size` counts them, and an environment is below another
one if it has no fact that the other lacks.  Entries without a fact do not matter for either.

So the size is a rank for the order: it never drops from an environment to one above it, and it
rises as soon as there is a fact more.  The bounds on rounds rest on this.
-/

set_option autoImplicit false

namespace PointsTo

open Std

/-! ## Counting -/

/-- A list without repetition is shorter than one that has all its members and another one. -/
theorem length_lt_of_subset_of_mem {α : Type} {xs ys : List α} (hnd : xs.Nodup) (hsub : xs ⊆ ys)
    {y : α} (hy : y ∈ ys) (hn : y ∉ xs) : xs.length < ys.length := by
  have hcons : y :: xs ⊆ ys := List.cons_subset.mpr ⟨hy, hsub⟩
  exact (List.nodup_cons.mpr ⟨hn, hnd⟩).length_le_of_subset hcons

/-- A union that brings a new member is larger. -/
theorem PointsToSet.size_lt_size_union {a b : PointsToSet} {l : Location} (hb : l ∈ b)
    (ha : l ∉ a) : a.size < (a ∪ b).size := by
  rw [← ExtTreeSet.length_toList, ← ExtTreeSet.length_toList]
  refine length_lt_of_subset_of_mem (y := l) (nodup_toList a) ?_ ?_ ?_
  · intro k hk
    rw [ExtTreeSet.mem_toList] at hk ⊢
    exact ExtTreeSet.mem_union_of_left hk
  · exact ExtTreeSet.mem_toList.mpr (ExtTreeSet.mem_union_of_right hb)
  · exact fun h ↦ ha (ExtTreeSet.mem_toList.mp h)

namespace Environment

/-! ## Entries and facts -/

/-- The entries are the storage that has one, with the sets found there. -/
theorem mem_entries {e : Environment} {s : Storage} {a : PointsToSet} :
    (s, a) ∈ e.entries ↔ s ∈ e ∧ e.pointsTo s = a := by
  rw [entries, ExtTreeMap.mem_toList_iff_getElem?_eq_some, pointsTo,
    ExtTreeMap.getD_eq_getD_getElem?]
  constructor
  · intro h
    refine ⟨?_, by rw [h, Option.getD_some]⟩
    exact ExtTreeMap.mem_iff_isSome_getElem?.mpr (by rw [h, Option.isSome_some])
  · rintro ⟨hs, rfl⟩
    have hs : s ∈ e.sets := hs
    rw [ExtTreeMap.getElem?_eq_some_getElem hs, Option.getD_some]

/-- Each storage has one entry. -/
theorem nodup_fst_entries (e : Environment) : (e.entries.map Prod.fst).Nodup := by
  rw [entries, ExtTreeMap.map_fst_toList_eq_keys]
  exact ExtTreeMap.nodup_keys

theorem nodup_keys (e : Environment) : e.keys.Nodup := ExtTreeMap.nodup_keys

/-- The entries are the keys with their sets. -/
theorem entries_eq_map (e : Environment) : e.entries = e.keys.map fun s ↦ (s, e.pointsTo s) := by
  have hkeys : e.keys = e.entries.map Prod.fst := ExtTreeMap.map_fst_toList_eq_keys.symm
  rw [hkeys, List.map_map]
  refine (List.map_id _).symm.trans (List.map_congr_left ?_)
  rintro ⟨s, a⟩ ha
  rw [Function.comp_apply, (mem_entries.mp ha).2, id]

theorem get?_of_mem {e : Environment} {s : Storage} (h : s ∈ e) : e.get? s = some (e.pointsTo s) :=
  ExtTreeMap.mem_toList_iff_getElem?_eq_some.mp (mem_entries.mpr ⟨h, rfl⟩)

theorem get?_of_not_mem {e : Environment} {s : Storage} (h : ¬ s ∈ e) : e.get? s = none :=
  ExtTreeMap.getElem?_eq_none h

theorem pointsTo_of_not_mem {e : Environment} {s : Storage} (h : ¬ s ∈ e) : e.pointsTo s = ∅ :=
  ExtTreeMap.getD_eq_fallback h

/-- **Entries and sets determine an environment.** -/
theorem eq_of_mem_iff_of_pointsTo_eq {a b : Environment} (hmem : ∀ s, s ∈ a ↔ s ∈ b)
    (hsets : ∀ s, a.pointsTo s = b.pointsTo s) : a = b := by
  refine Environment.ext (ExtTreeMap.ext_getElem? fun s ↦ ?_)
  change a.get? s = b.get? s
  by_cases hs : s ∈ a
  · rw [get?_of_mem hs, get?_of_mem ((hmem s).mp hs), hsets]
  · rw [get?_of_not_mem hs, get?_of_not_mem fun hb ↦ hs ((hmem s).mpr hb)]

/-- What an environment knows, fact by fact. -/
def facts (e : Environment) : List (Storage × Location) :=
  e.entries.flatMap fun entry ↦ entry.2.toList.map fun l ↦ (entry.1, l)

theorem mem_facts {e : Environment} {s : Storage} {l : Location} :
    (s, l) ∈ e.facts ↔ l ∈ e.pointsTo s := by
  rw [facts, List.mem_flatMap]
  constructor
  · rintro ⟨⟨t, a⟩, ht, hl⟩
    obtain ⟨k, hk, heq⟩ := List.mem_map.mp hl
    cases heq
    rw [(mem_entries.mp ht).2]
    exact ExtTreeSet.mem_toList.mp hk
  · intro hl
    refine ⟨(s, e.pointsTo s), mem_entries.mpr ⟨mem_of_mem_pointsTo hl, rfl⟩, ?_⟩
    exact List.mem_map.mpr ⟨l, ExtTreeSet.mem_toList.mpr hl, rfl⟩

/-- Each fact is listed once. -/
theorem nodup_facts (e : Environment) : e.facts.Nodup := by
  rw [facts, List.nodup_flatMap]
  constructor
  · intro entry _
    refine (nodup_toList _).map fun k l h ↦ ?_
    exact (Prod.mk.inj h).2
  · refine e.sets.distinct_keys_toList.imp ?_
    intro a b hab f ha hb
    obtain ⟨k, -, hk⟩ := List.mem_map.mp ha
    obtain ⟨l, -, hl⟩ := List.mem_map.mp hb
    have hkeys : a.1 = b.1 := (Prod.mk.inj (hk.trans hl.symm)).1
    rw [hkeys] at hab
    exact hab ReflCmp.compare_self

/-- The size of an environment is the number of its facts. -/
theorem length_facts (e : Environment) : e.facts.length = e.size := by
  rw [facts, size]
  induction e.entries with
  | nil => rfl
  | cons entry es ih =>
    rw [List.flatMap_cons, List.length_append, List.length_map, ExtTreeSet.length_toList, ih,
      List.foldr_cons]

/-! ## The order by facts -/

/-- One environment is below another if the other has all its facts. -/
instance : Preorder Environment where
  le a b := ∀ s l, l ∈ a.pointsTo s → l ∈ b.pointsTo s
  le_refl _ _ _ h := h
  le_trans _ _ _ hab hbc s l h := hbc s l (hab s l h)

theorem materializeAll_mono {a b : Environment} (h : a ≤ b) (ss : List Storage) :
    a.materializeAll ss ≤ b.materializeAll ss := by
  intro s l hl
  rw [pointsTo_materializeAll] at hl ⊢
  exact h s l hl

/-- Environments that are below each other point to the same sets. -/
theorem pointsTo_eq_of_le_of_le {a b : Environment} (hab : a ≤ b) (hba : b ≤ a) (s : Storage) :
    a.pointsTo s = b.pointsTo s :=
  ExtTreeSet.ext_mem fun l ↦ ⟨hab s l, hba s l⟩

theorem forall_pointsTo_eq_iff {a b : Environment} :
    (∀ s, a.pointsTo s = b.pointsTo s) ↔ a ≤ b ∧ b ≤ a := by
  refine ⟨fun h ↦ ⟨fun s l hl ↦ h s ▸ hl, fun s l hl ↦ h s ▸ hl⟩, fun h ↦ ?_⟩
  exact pointsTo_eq_of_le_of_le h.1 h.2

theorem size_le_of_le {a b : Environment} (h : a ≤ b) : a.size ≤ b.size := by
  rw [← length_facts, ← length_facts]
  refine a.nodup_facts.length_le_of_subset ?_
  rintro ⟨s, l⟩ hf
  exact mem_facts.mpr (h s l (mem_facts.mp hf))

/-- **One fact more makes an environment larger.** -/
theorem size_lt_of_le_of_mem {a b : Environment} (h : a ≤ b) {s : Storage} {l : Location}
    (hb : l ∈ b.pointsTo s) (ha : l ∉ a.pointsTo s) : a.size < b.size := by
  rw [← length_facts, ← length_facts]
  refine length_lt_of_subset_of_mem a.nodup_facts ?_ (mem_facts.mpr hb) ?_
  · rintro ⟨t, k⟩ hf
    exact mem_facts.mpr (h t k (mem_facts.mp hf))
  · exact fun hf ↦ ha (mem_facts.mp hf)

theorem size_lt_of_lt {a b : Environment} (h : a < b) : a.size < b.size := by
  obtain ⟨hle, hn⟩ := lt_iff_le_not_ge.mp h
  have hn : ¬ ∀ s l, l ∈ b.pointsTo s → l ∈ a.pointsTo s := hn
  push Not at hn
  obtain ⟨s, l, hb, ha⟩ := hn
  exact size_lt_of_le_of_mem hle hb ha

/-- **From an environment to one above it, the size rises exactly if there is a new fact.** -/
theorem size_lt_iff_lt_of_le {a b : Environment} (h : a ≤ b) : a.size < b.size ↔ a < b := by
  refine ⟨fun hsize ↦ lt_of_le_not_ge h fun hba ↦ ?_, size_lt_of_lt⟩
  exact Nat.not_lt.mpr (size_le_of_le hba) hsize

end Environment

end PointsTo
