import Mathlib.Data.List.Nodup
import PointsTo.Environment.Printer
import PointsTo.Proofs.Entries
import Std.Data.String.ToNat

/-!
# What the JSON form of an environment keeps

The JSON form is an object whose keys are the written forms of storage.  Two locations are never
written alike, and neither are two variables; but a variable may be named like a location, and such
a name is valid.  Then the two entries share a key, and the object has the later one.  Locations come
after variables in the order of the entries, so that is always the location's: the variable's entry
is *hidden*, `Environment.isHidden`.

The object is built by inserting the entries in order.  `getElem?_insertMany_eq_or` says that the
last one of a name stays, which is the first that a search from the end finds, and
`Environment.find?_reverse_keys_eq_some_iff` that it is the one entry of that name that is not
hidden.  From there on the object is described by `Environment.WrittenIn` alone.

The locations of an analysis are those of the allocations, numbered from zero, so for a program the
hidden names can be read off its text: `Program.analyze_toJson`.  The shortest program with one is an
allocation to `ref_0`, `Program.analyze_toJson_lacks_variable`.
-/

set_option autoImplicit false

namespace PointsTo

open Std

/-! ## Written forms -/

theorem Location.render_injective {k l : Location} (h : k.render = l.render) : k = l := by
  cases k
  cases l
  exact congrArg Location.mk (Nat.repr_injective ((String.append_right_inj _).mp h))

/-- Different storage that is written alike is a location and a variable that has its name. -/
theorem Storage.render_eq_iff {s t : Storage} : s.render = t.render ↔
    s = t ∨ ∃ l : Location, s = .var l.render ∧ t = .loc l ∨ s = .loc l ∧ t = .var l.render := by
  refine ⟨fun h ↦ ?_, ?_⟩
  · cases s with
    | var x =>
      cases t with
      | var y => exact .inl (congrArg _ h)
      | loc l => exact .inr ⟨l, .inl ⟨congrArg _ h, rfl⟩⟩
    | loc k =>
      cases t with
      | var y => exact .inr ⟨k, .inr ⟨rfl, congrArg _ h.symm⟩⟩
      | loc l => exact .inl (congrArg _ (Location.render_injective h))
  · rintro (rfl | ⟨l, ⟨rfl, rfl⟩ | ⟨rfl, rfl⟩⟩) <;> rfl

/-! ## The last of equal keys -/

/-- A map that is made from a list has the last value for each key. -/
theorem getElem?_insertMany_eq_or {β : Type} (m : ExtTreeMap String β) (xs : List (String × β))
    (n : String) :
    (m.insertMany xs)[n]? = ((xs.reverse.find? fun x ↦ x.1 == n).map Prod.snd).or m[n]? := by
  induction xs generalizing m with
  | nil => simp
  | cons x xs ih =>
    rw [ExtTreeMap.insertMany_cons, ih, List.reverse_cons, List.find?_append]
    cases xs.reverse.find? fun x ↦ x.1 == n with
    | some y => rfl
    | none =>
      rw [ExtTreeMap.getElem?_insert]
      by_cases hx : x.1 = n <;> simp [hx]

namespace Environment

/-- Whether some storage has the name of a location that has an entry. -/
def isHidden (e : Environment) : Storage → Bool
  | .var x => e.keys.any fun t ↦ match t with
    | .var _ => false
    | .loc l => l.render == x
  | .loc _ => false

theorem isHidden_iff {e : Environment} {s : Storage} :
    e.isHidden s = true ↔ ∃ l, .loc l ∈ e ∧ s = .var l.render := by
  cases s with
  | loc k => simp [isHidden]
  | var x =>
    rw [isHidden, List.any_eq_true]
    refine ⟨fun ⟨t, ht, hx⟩ ↦ ?_, fun ⟨l, hl, hx⟩ ↦ ?_⟩
    · cases t with
      | var y => cases hx
      | loc l => exact ⟨l, mem_keys.mp ht, congrArg _ (beq_iff_eq.mp hx).symm⟩
    · exact ⟨.loc l, mem_keys.mpr hl, beq_iff_eq.mpr (Storage.var.inj hx).symm⟩

/-- Of two entries that are written alike, one is hidden. -/
theorem eq_of_render_eq {e : Environment} {s t : Storage} (hs : s ∈ e) (ht : t ∈ e)
    (hhs : e.isHidden s = false) (hht : e.isHidden t = false) (h : s.render = t.render) :
    s = t := by
  obtain hst | ⟨l, ⟨rfl, rfl⟩ | ⟨rfl, rfl⟩⟩ := Storage.render_eq_iff.mp h
  · exact hst
  · exact absurd (isHidden_iff.mpr ⟨l, ht, rfl⟩) (Bool.eq_false_iff.mp hhs)
  · exact absurd (isHidden_iff.mpr ⟨l, hs, rfl⟩) (Bool.eq_false_iff.mp hht)

theorem getElem?_written (e : Environment) (n : String) :
    e.written[n]? = (e.keys.reverse.find? fun s ↦ s.render == n).map fun s ↦
      (e.pointsTo s).toList.map Location.render := by
  rw [written, ExtTreeMap.ofList_eq_insertMany_empty, getElem?_insertMany_eq_or, entries_eq_map,
    List.map_map, ← List.map_reverse, List.find?_map, ExtTreeMap.getElem?_empty, Option.or_none,
    Option.map_map]
  rfl

/-- The last entry of a name is not hidden: a location of that name would come later. -/
theorem isHidden_of_find?_reverse_keys {e : Environment} {n : String} {s : Storage}
    (h : (e.keys.reverse.find? fun s ↦ s.render == n) = some s) :
    s ∈ e ∧ s.render = n ∧ e.isHidden s = false := by
  have hmem : s ∈ e := mem_keys.mp (List.mem_reverse.mp (List.mem_of_find?_eq_some h))
  obtain ⟨hn, later, earlier, hkeys, hlater⟩ := List.find?_eq_some_iff_append.mp h
  refine ⟨hmem, beq_iff_eq.mp hn, Bool.eq_false_iff.mpr fun hhidden ↦ ?_⟩
  obtain ⟨l, hl, rfl⟩ := isHidden_iff.mp hhidden
  have hl : .loc l ∈ later ++ .var l.render :: earlier := by
    rw [← hkeys]
    exact List.mem_reverse.mpr (mem_keys.mpr hl)
  rcases List.mem_append.mp hl with hl | hl
  · have hne := hlater _ hl
    rw [show (Storage.loc l).render = (Storage.var l.render).render from rfl, hn] at hne
    cases hne
  · have hl : .loc l ∈ earlier := (List.mem_cons.mp hl).resolve_left nofun
    have hsorted : e.keys.reverse.Pairwise fun s t ↦ compare t s = .lt :=
      List.pairwise_reverse.mpr ExtTreeMap.ordered_keys
    rw [hkeys] at hsorted
    cases (List.pairwise_cons.mp (List.pairwise_append.mp hsorted).2.1).1 _ hl

/-- **Each name stands for the one entry that is not hidden.** -/
theorem find?_reverse_keys_eq_some_iff {e : Environment} {n : String} {s : Storage} :
    (e.keys.reverse.find? fun s ↦ s.render == n) = some s ↔
      s ∈ e ∧ s.render = n ∧ e.isHidden s = false := by
  refine ⟨isHidden_of_find?_reverse_keys, fun ⟨hs, hn, hhs⟩ ↦ ?_⟩
  cases hfind : e.keys.reverse.find? fun s ↦ s.render == n with
  | none =>
    have hnone := List.find?_eq_none.mp hfind s (List.mem_reverse.mpr (mem_keys.mpr hs))
    exact absurd (beq_iff_eq.mpr hn) hnone
  | some t =>
    obtain ⟨ht, hnt, hht⟩ := isHidden_of_find?_reverse_keys hfind
    rw [eq_of_render_eq hs ht hhs hht (hn.trans hnt.symm)]

theorem getElem?_written_eq_some_iff {e : Environment} {n : String} {a : List String} :
    e.written[n]? = some a ↔ ∃ s, s ∈ e ∧ s.render = n ∧ e.isHidden s = false ∧
      a = (e.pointsTo s).toList.map Location.render := by
  rw [getElem?_written, Option.map_eq_some_iff]
  refine exists_congr fun s ↦ ?_
  rw [find?_reverse_keys_eq_some_iff, and_assoc, and_assoc, eq_comm (a := a)]

/-- Every entry that is not hidden is written. -/
theorem size_written_add (e : Environment) :
    e.written.size + (e.keys.filter e.isHidden).length = e.length := by
  have hperm : e.written.keys.Perm
      ((e.keys.filter fun s ↦ !e.isHidden s).map Storage.render) := by
    refine (List.perm_ext_iff_of_nodup ExtTreeMap.nodup_keys ?_).mpr fun n ↦ ?_
    · refine (e.nodup_keys.filter _).map_on fun s hs t ht h ↦ ?_
      simp only [List.mem_filter, mem_keys, Bool.not_eq_true'] at hs ht
      exact eq_of_render_eq hs.1 ht.1 hs.2 ht.2 h
    · rw [ExtTreeMap.mem_keys, ExtTreeMap.mem_iff_isSome_getElem?, Option.isSome_iff_exists]
      simp only [getElem?_written_eq_some_iff, List.mem_map, List.mem_filter, mem_keys,
        Bool.not_eq_true']
      refine ⟨fun ⟨a, s, hs, hn, hhs, _⟩ ↦ ⟨s, ⟨hs, hhs⟩, hn⟩, fun ⟨s, ⟨hs, hhs⟩, hn⟩ ↦ ?_⟩
      exact ⟨_, s, hs, hn, hhs, rfl⟩
  have hlength := hperm.length_eq
  have hkeys := e.keys.length_eq_length_filter_add e.isHidden
  rw [ExtTreeMap.length_keys, List.length_map] at hlength
  rw [keys, ExtTreeMap.length_keys] at hkeys
  rw [length, hkeys, hlength, keys]
  exact Nat.add_comm _ _

/-! ## The object -/

/-- The value lists what the storage points to, by the written forms of the locations and in the
order of their numbers. -/
def Lists (e : Environment) (s : Storage) (v : Json) : Prop :=
  ∃ ls : List Location, v = .array (ls.map fun l ↦ .text l.render) ∧
    (∀ l, l ∈ ls ↔ l ∈ e.pointsTo s) ∧ ls.Pairwise fun k l ↦ k.index < l.index

theorem lists_toList (e : Environment) (s : Storage) :
    e.Lists s (.array (((e.pointsTo s).toList.map Location.render).map Json.text)) := by
  refine ⟨(e.pointsTo s).toList, by rw [List.map_map]; rfl, fun _ ↦ ExtTreeSet.mem_toList, ?_⟩
  exact (e.pointsTo s).ordered_toList.imp Nat.compare_eq_lt.mp

/-- The object has the entries that are not hidden, each once and under its name. -/
structure WrittenIn (e : Environment) (fields : List (String × Json)) : Prop where
  /-- No name is repeated. -/
  nodup : (fields.map Prod.fst).Nodup
  /-- Every entry that is not hidden is there with all its locations. -/
  entry : ∀ s, s ∈ e → e.isHidden s = false → ∃ v, (s.render, v) ∈ fields ∧ e.Lists s v
  /-- There is nothing else. -/
  origin : ∀ n v, (n, v) ∈ fields →
    ∃ s, s ∈ e ∧ e.isHidden s = false ∧ s.render = n ∧ e.Lists s v
  /-- What is missing are the hidden entries. -/
  length : fields.length + (e.keys.filter e.isHidden).length = e.length

/-- **The JSON form of an environment has the entries that are not hidden.** -/
theorem exists_writtenIn (e : Environment) :
    ∃ fields, e.toJson = .record fields ∧ e.WrittenIn fields := by
  refine ⟨_, rfl, ?_, fun s hs hhs ↦ ?_, fun n v hv ↦ ?_, ?_⟩
  · rw [List.map_map]
    exact (ExtTreeMap.map_fst_toList_eq_keys (t := e.written)).symm ▸ ExtTreeMap.nodup_keys
  · refine ⟨_, List.mem_map.mpr ⟨(s.render, _), ?_, rfl⟩, e.lists_toList s⟩
    rw [ExtTreeMap.mem_toList_iff_getElem?_eq_some, getElem?_written_eq_some_iff]
    exact ⟨s, hs, rfl, hhs, rfl⟩
  · obtain ⟨⟨n', a⟩, ha, heq⟩ := List.mem_map.mp hv
    cases heq
    rw [ExtTreeMap.mem_toList_iff_getElem?_eq_some, getElem?_written_eq_some_iff] at ha
    obtain ⟨s, hs, hn, hhs, rfl⟩ := ha
    exact ⟨s, hs, hhs, hn, e.lists_toList s⟩
  · rw [List.length_map, ExtTreeMap.length_toList]
    exact e.size_written_add

end Environment

/-- **The JSON form of an analysis lacks the variables that are named like a location of the
program**, and nothing else.  Every other entry is there under its name, with its locations in
order.  So all entries are there exactly if no variable with an entry has such a name. -/
theorem Program.analyze_toJson (p : Program) :
    ∃ e fields, p.analyze = .ok e ∧ e.toJson = .record fields ∧ e.WrittenIn fields ∧
      (∀ s, e.isHidden s = true ↔
        ∃ l : Location, l.index < (allocations p.instructions).length ∧ s = .var l.render) ∧
      (fields.length = e.length ↔
        ∀ l : Location, l.index < (allocations p.instructions).length → ¬ .var l.render ∈ e) := by
  obtain ⟨e, he, -, hentries⟩ := p.exists_analyze
  obtain ⟨fields, hfields, hwritten⟩ := e.exists_writtenIn
  have hlocation : ∀ l, .loc l ∈ e ↔ l.index < (allocations p.instructions).length :=
    fun l ↦ (hentries _).trans ⟨HasEntry.location_lt, .location⟩
  have hhidden : ∀ s, e.isHidden s = true ↔
      ∃ l : Location, l.index < (allocations p.instructions).length ∧ s = .var l.render := by
    intro s
    simp only [Environment.isHidden_iff, hlocation]
  refine ⟨e, fields, he, hfields, hwritten, hhidden, ?_⟩
  have hnone : fields.length = e.length ↔ e.keys.filter e.isHidden = [] := by
    rw [← hwritten.length, ← List.length_eq_zero_iff]
    omega
  rw [hnone, List.filter_eq_nil_iff]
  refine ⟨fun h l hl hmem ↦ ?_, fun h s hs hhs ↦ ?_⟩
  · exact h _ (Environment.mem_keys.mpr hmem) ((hhidden _).mpr ⟨l, hl, rfl⟩)
  · obtain ⟨l, hl, rfl⟩ := (hhidden s).mp hhs
    exact h l hl (Environment.mem_keys.mp hs)

/-- A variable that is named like its own location: the program is accepted and the variable points
to the location, but its entry is not in the JSON form. -/
theorem Program.analyze_toJson_lacks_variable :
    let p : Program := ⟨[.alloca "ref_0"]⟩
    Program.ofInstructions p.instructions = .ok p ∧
      ∃ e, p.analyze = .ok e ∧ e.length = 2 ∧ (e.pointsTo (.var "ref_0")).toList = [⟨0⟩] ∧
        e.toJson = .record [("ref_0", .array [])] := by
  intro p
  have hanalyze : (fun e ↦ (e.length, (e.pointsTo (.var "ref_0")).toList, e.written.toList)) <$>
      p.analyze = .ok (2, [⟨0⟩], [("ref_0", [])]) := by decide +kernel
  refine ⟨by decide +kernel, ?_⟩
  cases he : p.analyze with
  | error _ => rw [he] at hanalyze; cases hanalyze
  | ok e =>
    rw [he] at hanalyze
    obtain ⟨hlength, hvar, hwritten⟩ := by simpa using Except.ok.inj hanalyze
    refine ⟨e, rfl, hlength, hvar, ?_⟩
    rw [Environment.toJson, hwritten]
    rfl

end PointsTo
