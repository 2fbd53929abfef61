import PointsTo.Inclusion.Json
import PointsTo.Proofs.ProgramJson

/-!
# Values and their compact JSON text

Locations, storage, inclusions and instructions all have a JSON form, and their forms are nested in
each other.  A plain value is read back from its text, `Json.parse_write`, so what is left for each
type is the way from the JSON value to the value of the type.

There is one thing that can go wrong on it.  An index has to be below 2^64, and a location whose
number is not is written like any other and then refused.  `Fits` says of a value that all its
locations have such numbers, and `Json.RoundTrips` that this is just what makes it come back.  Names
are arbitrary, and a value without locations always comes back.

Two values that come back have different texts, since a text is read to one value only.  For storage
this goes further than its written form does: a variable may be called what a location is written
as, and then the tag still tells them apart.
-/

set_option autoImplicit false

namespace PointsTo

namespace Json

/-! ## Compact text -/

theorem parse_compact {v : Json} (h : Plain v) : parse v.compact = some v :=
  parse_write blank_compact h

theorem compact_inj {u v : Json} (hu : Plain u) (hv : Plain v) (h : u.compact = v.compact) :
    u = v := by
  have hparse := parse_compact hu
  rw [h, parse_compact hv, Option.some_inj] at hparse
  exact hparse.symm

/-- The values of a type come back from their compact text exactly if they fit, and no two of those
have the same text. -/
structure RoundTrips {α : Type} (toJson : α → Json) (ofJson? : Json → Option α)
    (fits : α → Prop) : Prop where
  /-- A value that fits is read back, and no other is. -/
  reads_iff : ∀ a, (parse (toJson a).compact).bind ofJson? = some a ↔ fits a
  /-- Two values have two texts. -/
  compact_ne : ∀ a b, fits a → fits b → a ≠ b → (toJson a).compact ≠ (toJson b).compact

/-- **Only the way from the JSON value has to be looked at**, the text takes care of itself. -/
theorem roundTrips_of_plain {α : Type} {toJson : α → Json} {ofJson? : Json → Option α}
    {fits : α → Prop} (hplain : ∀ a, Plain (toJson a))
    (hfits : ∀ a, ofJson? (toJson a) = some a ↔ fits a) : RoundTrips toJson ofJson? fits := by
  constructor
  case reads_iff =>
    intro a
    rw [parse_compact (hplain a), Option.bind_some, hfits]
  case compact_ne =>
    intro a b ha hb hne htext
    have hjson := compact_inj (hplain a) (hplain b) htext
    have hread := (hfits a).mpr ha
    rw [hjson, (hfits b).mpr hb, Option.some_inj] at hread
    exact hne hread.symm

end Json

open Json

/-! ## Locations -/

namespace Location

/-- The number of the location is an index. -/
def Fits (l : Location) : Prop := l.index < indexBound

theorem plain_toJson (l : Location) : Plain l.toJson := .record (by simp [Plain.nat])

theorem ofJson?_toJson_iff (l : Location) : ofJson? l.toJson = some l ↔ l.Fits := by
  have hnames : ([("index", Json.nat l.index)].map Prod.fst).Nodup := by simp
  have hrecord : l.toJson.toRecord ["index"] = some [.nat l.index] := toRecord_record hnames
  have hindex : (Json.nat l.index).toIndex = if l.index < indexBound then some l.index else none :=
    rfl
  rw [ofJson?, hrecord, Fits]
  simp only [hindex]
  split
  · next hlt => exact iff_of_true rfl hlt
  · next hge => exact iff_of_false nofun hge

end Location

/-! ## Storage -/

namespace Storage

/-- If the storage is a location, its number is an index. -/
def Fits (s : Storage) : Prop := ∀ l, s = .loc l → l.Fits

theorem plain_toJson (s : Storage) : Plain s.toJson := by
  cases s with
  | var name => exact .tagged _ (.text name)
  | loc l => exact .tagged _ l.plain_toJson

theorem ofJson?_toJson_iff (s : Storage) : ofJson? s.toJson = some s ↔ s.Fits := by
  cases s with
  | var name => simp [ofJson?, toJson, Fits]
  | loc l => simp [ofJson?, toJson, Fits, ← Location.ofJson?_toJson_iff]

/-- The tag of a variable is not that of a location. -/
theorem compact_var_ne_loc (name : String) (l : Location) :
    (var name).toJson.compact ≠ (loc l).toJson.compact := by
  intro htext
  have hjson := compact_inj (plain_toJson _) (plain_toJson _) htext
  have htag := congrArg Json.toTagged hjson
  simp [toJson] at htag

end Storage

/-! ## Inclusions -/

namespace Inclusion

/-- Both sides of the inclusion fit. -/
def Fits (i : Inclusion) : Prop := i.dst.Fits ∧ i.src.Fits

theorem plain_toJson (i : Inclusion) : Plain i.toJson :=
  .record (by simp [Storage.plain_toJson])

theorem ofJson?_toJson_iff (i : Inclusion) : ofJson? i.toJson = some i ↔ i.Fits := by
  have hnames : ([("dst", i.dst.toJson), ("src", i.src.toJson)].map Prod.fst).Nodup := by simp
  have hrecord : i.toJson.toRecord ["dst", "src"] = some [i.dst.toJson, i.src.toJson] :=
    toRecord_record hnames
  rw [ofJson?, hrecord, Fits, ← Storage.ofJson?_toJson_iff, ← Storage.ofJson?_toJson_iff]
  simp only [Option.bind_eq_bind, Option.bind_eq_some_iff]
  constructor
  · rintro ⟨dst, hdst, src, hsrc, heq⟩
    cases heq
    exact ⟨hdst, hsrc⟩
  · rintro ⟨hdst, hsrc⟩
    exact ⟨i.dst, hdst, i.src, hsrc, rfl⟩

end Inclusion

/-! ## All four -/

/-- **Locations, storage, inclusions and instructions come back from their compact text**, whatever
the names in them are and as long as the numbers of locations are below 2^64, and different ones
have different texts.  A variable and a location have different texts even where they are written
alike, which is where the variable is called what the location is written as. -/
theorem compact_roundTrips :
    RoundTrips Location.toJson Location.ofJson? Location.Fits ∧
      RoundTrips Storage.toJson Storage.ofJson? Storage.Fits ∧
      RoundTrips Inclusion.toJson Inclusion.ofJson? Inclusion.Fits ∧
      RoundTrips Instruction.toJson Instruction.ofJson? (fun _ ↦ True) ∧
      ∀ (name : String) (l : Location),
        ((Storage.var name).render = (Storage.loc l).render ↔ name = l.render) ∧
          (Storage.var name).toJson.compact ≠ (Storage.loc l).toJson.compact := by
  refine ⟨roundTrips_of_plain Location.plain_toJson Location.ofJson?_toJson_iff,
    roundTrips_of_plain Storage.plain_toJson Storage.ofJson?_toJson_iff,
    roundTrips_of_plain Inclusion.plain_toJson Inclusion.ofJson?_toJson_iff,
    roundTrips_of_plain Instruction.plain_toJson ?_,
    fun name l ↦ ⟨Iff.rfl, Storage.compact_var_ne_loc name l⟩⟩
  intro i
  exact iff_of_true i.ofJson?_toJson trivial

end PointsTo
