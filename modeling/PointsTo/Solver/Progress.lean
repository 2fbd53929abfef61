import PointsTo.Distinct
import PointsTo.Solver.Basic

/-!
# Rounds come to an end

A round moves locations between sets, but it neither invents a location nor writes to storage other
than the destinations of its inclusions.  These come from a fixed supply: the program's moves and
loads, the inclusions derived before, and the locations themselves.  So the facts that may still
turn up are among finitely many, which `Solver.missing` lists, and a round that changes something
leaves fewer of them (`Solver.room_round_lt`).
-/

set_option autoImplicit false

namespace PointsTo

/-! ## Locations in use -/

namespace Environment

/-- The locations that some storage points to. -/
def locations (e : Environment) : List Location := e.entries.flatMap fun entry ↦ entry.2.toList

theorem mem_locations {e : Environment} {l : Location} :
    l ∈ e.locations ↔ ∃ s, l ∈ e.pointsTo s := by
  rw [locations, List.mem_flatMap]
  constructor
  · rintro ⟨⟨s, a⟩, hs, hl⟩
    have hs := Std.ExtTreeMap.mem_toList_iff_getElem?_eq_some.mp hs
    refine ⟨s, ?_⟩
    rw [pointsTo, Std.ExtTreeMap.getD_eq_getD_getElem?, hs]
    exact Std.ExtTreeSet.mem_toList.mp hl
  · rintro ⟨s, hl⟩
    refine ⟨(s, e.pointsTo s), ?_, Std.ExtTreeSet.mem_toList.mpr hl⟩
    refine Std.ExtTreeMap.mem_toList_iff_getElem?_eq_some.mpr ?_
    have hs : s ∈ e.sets := mem_of_mem_pointsTo hl
    rw [pointsTo, Std.ExtTreeMap.getD_eq_getD_getElem?, Std.ExtTreeMap.getElem?_eq_some_getElem hs]
    rfl

/-- The second environment has grown out of the first: it keeps every fact, and a new fact moves a
location that was in use to storage in the list. -/
structure GrowsInto (targets : List Storage) (e e' : Environment) : Prop where
  /-- Every fact is kept. -/
  keeps : ∀ s l, l ∈ e.pointsTo s → l ∈ e'.pointsTo s
  /-- A new fact is about a target and about a location in use. -/
  fresh : ∀ s l, l ∈ e'.pointsTo s → l ∈ e.pointsTo s ∨ s ∈ targets ∧ l ∈ e.locations

namespace GrowsInto

variable {targets : List Storage} {e e' e'' : Environment}

/-- No new location comes into use. -/
theorem locations_subset (h : GrowsInto targets e e') {l : Location} (hl : l ∈ e'.locations) :
    l ∈ e.locations := by
  obtain ⟨s, hs⟩ := mem_locations.mp hl
  rcases h.fresh s l hs with h | ⟨-, h⟩
  · exact mem_locations.mpr ⟨s, h⟩
  · exact h

theorem trans (h : GrowsInto targets e e') (h' : GrowsInto targets e' e'') :
    GrowsInto targets e e'' where
  keeps s l hl := h'.keeps s l (h.keeps s l hl)
  fresh s l hl := by
    rcases h'.fresh s l hl with hl | ⟨hs, hl⟩
    · exact h.fresh s l hl
    · exact .inr ⟨hs, h.locations_subset hl⟩

theorem materializeAll (e : Environment) (ss : List Storage) :
    GrowsInto targets e (e.materializeAll ss) where
  keeps s l hl := by rwa [pointsTo_materializeAll]
  fresh s l hl := by rw [pointsTo_materializeAll] at hl; exact .inl hl

theorem propagate {is : List Inclusion} (h : ∀ i ∈ is, i.dst ∈ targets) (e : Environment) :
    GrowsInto targets e (Inclusion.propagate is e).environment where
  keeps _ _ hl := Inclusion.mem_propagate hl
  fresh s l hl := by
    rcases Inclusion.exists_of_mem_propagate hl with hl | ⟨⟨i, hi, hs⟩, t, ht⟩
    · exact .inl hl
    · exact .inr ⟨hs ▸ h i hi, mem_locations.mpr ⟨t, ht⟩⟩

end GrowsInto

end Environment

/-! ## The facts that may still turn up -/

namespace Solver

open Environment (GrowsInto mem_locations)

/-- The variables that loads write. -/
def loadTargets (s : Solver) : List Storage :=
  s.program.instructions.filterMap fun i ↦ match i with
    | .load dst _ => some (.var dst)
    | _ => none

/-- The storage that the rounds to come can write. -/
def targets (s : Solver) : List Storage :=
  (s.moves ++ s.stores ++ s.loads).map Inclusion.dst ++ s.loadTargets ++
    s.environment.locations.map Storage.loc

/-- The facts that may still turn up, each once. -/
def missing (s : Solver) : List (Storage × Location) :=
  ((s.targets.flatMap fun t ↦ s.environment.locations.map fun l ↦ (t, l)).filter fun f ↦
    !(s.environment.pointsTo f.1).contains f.2).eraseDups

/-- How many facts may still turn up. -/
def room (s : Solver) : Nat := s.missing.length

theorem mem_missing {s : Solver} {t : Storage} {l : Location} :
    (t, l) ∈ s.missing ↔
      t ∈ s.targets ∧ l ∈ s.environment.locations ∧ l ∉ s.environment.pointsTo t := by
  simp [missing, and_assoc, ← Std.ExtTreeSet.contains_iff_mem]

theorem dst_mem_targets_of_known {s : Solver} {i : Inclusion} (h : i ∈ s.known) :
    i.dst ∈ s.targets := by
  have h : i ∈ s.moves ++ s.stores ++ s.loads := by
    rw [known] at h
    split at h
    · exact h
    · rw [List.append_nil] at h
      rcases List.mem_append.mp h with h | h <;> simp [h]
  rw [targets, List.append_assoc]
  exact List.mem_append_left _ (List.mem_map_of_mem h)

theorem loc_mem_targets {s : Solver} {l : Location} (h : l ∈ s.environment.locations) :
    Storage.loc l ∈ s.targets :=
  List.mem_append_right _ (List.mem_map_of_mem h)

theorem var_mem_targets_of_load {s : Solver} {dst reference : String}
    (h : .load dst reference ∈ s.program.instructions) : Storage.var dst ∈ s.targets := by
  refine List.mem_append_left _ (List.mem_append_right _ ?_)
  exact List.mem_filterMap.mpr ⟨_, h, rfl⟩

/-! ## What a round does -/

theorem growsInto_knownPass (s : Solver) :
    GrowsInto s.targets s.environment s.nextRound.knownPass.environment :=
  .propagate (fun _ ↦ dst_mem_targets_of_known) _

theorem dst_mem_targets_of_stores {s : Solver} {i : Inclusion} (h : i ∈ s.nextRound.stores) :
    i.dst ∈ s.targets := by
  obtain ⟨reference, src, l, -, hl, rfl⟩ := Inclusion.mem_ofStores.mp h
  exact loc_mem_targets (s.growsInto_knownPass.locations_subset (mem_locations.mpr ⟨_, hl⟩))

theorem dst_mem_targets_of_loads {s : Solver} {i : Inclusion} (h : i ∈ s.nextRound.loads) :
    i.dst ∈ s.targets := by
  obtain ⟨dst, reference, l, hi, -, rfl⟩ := Inclusion.mem_ofLoads.mp h
  exact var_mem_targets_of_load hi

theorem growsInto_storePass (s : Solver) :
    GrowsInto s.targets s.nextRound.knownPass.environment s.nextRound.storePass.environment :=
  (GrowsInto.materializeAll _ _).trans (.propagate (fun _ ↦ dst_mem_targets_of_stores) _)

theorem growsInto_loadPass (s : Solver) :
    GrowsInto s.targets s.nextRound.storePass.environment s.nextRound.loadPass.environment :=
  (GrowsInto.materializeAll _ _).trans (.propagate (fun _ ↦ dst_mem_targets_of_loads) _)

theorem growsInto_reloadPass (s : Solver) :
    GrowsInto s.targets s.nextRound.loadPass.environment s.nextRound.environment :=
  .propagate (fun _ ↦ dst_mem_targets_of_loads) _

/-- **A round only moves locations in use to targets.** -/
theorem growsInto_nextRound (s : Solver) :
    GrowsInto s.targets s.environment s.nextRound.environment :=
  s.growsInto_knownPass.trans <| s.growsInto_storePass.trans <|
    s.growsInto_loadPass.trans s.growsInto_reloadPass

/-- A round that changes something adds a fact. -/
theorem exists_of_changed {s : Solver} (h : s.nextRound.changed = true) :
    ∃ t l, l ∈ s.nextRound.environment.pointsTo t ∧ l ∉ s.environment.pointsTo t := by
  have h₁ := s.growsInto_knownPass
  have h₂ := s.growsInto_storePass
  have h₃ := s.growsInto_loadPass
  have h₄ := s.growsInto_reloadPass
  simp only [Round.changed, Bool.or_eq_true] at h
  rcases h with ((h | h) | h) | h
  · obtain ⟨t, l, hl, hn⟩ := Inclusion.exists_of_grew_propagate h
    exact ⟨t, l, (h₂.trans (h₃.trans h₄)).keeps t l hl, hn⟩
  · obtain ⟨t, l, hl, hn⟩ := Inclusion.exists_of_grew_propagate h
    rw [Environment.pointsTo_materializeAll] at hn
    exact ⟨t, l, (h₃.trans h₄).keeps t l hl, fun hs ↦ hn (h₁.keeps t l hs)⟩
  · obtain ⟨t, l, hl, hn⟩ := Inclusion.exists_of_grew_propagate h
    rw [Environment.pointsTo_materializeAll] at hn
    exact ⟨t, l, h₄.keeps t l hl, fun hs ↦ hn ((h₁.trans h₂).keeps t l hs)⟩
  · obtain ⟨t, l, hl, hn⟩ := Inclusion.exists_of_grew_propagate h
    exact ⟨t, l, hl, fun hs ↦ hn ((h₁.trans (h₂.trans h₃)).keeps t l hs)⟩

/-- The state after a round that changed something. -/
theorem round_of_changed {s : Solver} (h : s.round.atFixedPoint = false) :
    s.nextRound.changed = true ∧
      s.round = { s with
        environment := s.nextRound.environment
        stores := s.nextRound.stores
        loads := s.nextRound.loads
        rounds := s.rounds + 1
        atFixedPoint := false } := by
  rw [round] at h ⊢
  split at h
  · next hs => rw [hs] at h; cases h
  · next hs =>
    have hc : s.nextRound.changed = true := by simpa using h
    refine ⟨hc, ?_⟩
    simp [hs, hc]

/-- No target comes up that was not one before. -/
theorem mem_targets_of_round {s : Solver} (h : s.round.atFixedPoint = false) {t : Storage}
    (ht : t ∈ s.round.targets) : t ∈ s.targets := by
  rw [(round_of_changed h).2] at ht
  rcases List.mem_append.mp ht with ht | ht
  · rcases List.mem_append.mp ht with ht | ht
    · obtain ⟨i, hi, rfl⟩ := List.mem_map.mp ht
      rcases List.mem_append.mp hi with hi | hi
      · rcases List.mem_append.mp hi with hi | hi
        · refine dst_mem_targets_of_known ?_
          rw [known, List.append_assoc]
          exact List.mem_append_left _ hi
        · exact dst_mem_targets_of_stores hi
      · exact dst_mem_targets_of_loads hi
    · exact List.mem_append_left _ (List.mem_append_right _ ht)
  · obtain ⟨l, hl, rfl⟩ := List.mem_map.mp ht
    exact loc_mem_targets (s.growsInto_nextRound.locations_subset hl)

/-- **A round that changes something leaves less room.** -/
theorem room_round_lt {s : Solver} (h : s.round.atFixedPoint = false) :
    s.round.room < s.room := by
  have he : s.round.environment = s.nextRound.environment := by rw [(round_of_changed h).2]
  have hg := s.growsInto_nextRound
  obtain ⟨t, l, hl, hn⟩ := exists_of_changed (round_of_changed h).1
  have hin : (t, l) ∈ s.missing := by
    rcases hg.fresh t l hl with hs | ⟨ht, hloc⟩
    · exact absurd hs hn
    · exact mem_missing.mpr ⟨ht, hloc, hn⟩
  have hout : (t, l) ∉ s.round.missing := by
    rw [mem_missing, he]
    exact fun hm ↦ hm.2.2 hl
  have hsub : (t, l) :: s.round.missing ⊆ s.missing := by
    rintro ⟨t', l'⟩ hm
    rcases List.mem_cons.mp hm with hm | hm
    · rw [hm]; exact hin
    · rw [mem_missing, he] at hm
      obtain ⟨ht, hloc, hno⟩ := hm
      exact mem_missing.mpr ⟨mem_targets_of_round h ht, hg.locations_subset hloc,
        fun hs ↦ hno (hg.keeps t' l' hs)⟩
  have hnd : ((t, l) :: s.round.missing).Nodup := List.nodup_cons.mpr ⟨hout, nodup_eraseDups _⟩
  exact hnd.length_le_of_subset hsub

end Solver

end PointsTo
