import PointsTo.Program.Json
import PointsTo.Proofs.JsonText
import PointsTo.Proofs.ProgramText

/-!
# Programs come back from their JSON text

Whatever strings the instructions of a program carry, its JSON text is read back to the same
instructions, and only then are the names looked at: the program itself comes back, or else the
first of its names that is not valid is reported, `Program.parseJson_pretty`.

That the text gives back the JSON value is `Json.parse_write`.  What is left is that the value gives
back the program.  A record is taken apart field by field, where each name of a field has to occur
once, and a tag decides between the four kinds of instructions.
-/

set_option autoImplicit false

namespace PointsTo

namespace Json

/-! ## Taking apart what was put together -/

theorem mapM_eq_some_map {α β : Type} {f : α → Option β} {g : α → β} {xs : List α}
    (h : ∀ x ∈ xs, f x = some (g x)) : xs.mapM f = some (xs.map g) := by
  induction xs with
  | nil => rfl
  | cons x xs ih =>
    rw [List.forall_mem_cons] at h
    simp [List.mapM_cons, h.1, ih h.2]

@[simp] theorem toText_text (s : String) : (text s).toText = some s := Literal.text_ofString s

@[simp] theorem toTagged_tagged (tag : String) (v : Json) :
    (tagged tag v).toTagged = some (tag, v) := by
  simp [tagged, record, toTagged]

theorem filter_of_nodup {fields : List (String × Json)} (hnodup : (fields.map Prod.fst).Nodup)
    {f : String × Json} (hf : f ∈ fields) : fields.filter (fun m ↦ m.1 == f.1) = [f] := by
  induction fields with
  | nil => cases hf
  | cons g gs ih =>
    rw [List.map_cons, List.nodup_cons] at hnodup
    rcases List.mem_cons.mp hf with rfl | hf
    · have hothers : gs.filter (fun m ↦ m.1 == f.1) = [] := by
        refine List.filter_eq_nil_iff.mpr fun m hm heq ↦ hnodup.1 ?_
        exact eq_of_beq heq ▸ List.mem_map_of_mem hm
      rw [List.filter_cons_of_pos (by simp), hothers]
    · have hne : g.1 ≠ f.1 := fun heq ↦ hnodup.1 (heq ▸ List.mem_map_of_mem hf)
      rw [List.filter_cons_of_neg (by simpa using hne), ih hnodup.2 hf]

/-- **The fields of a record are found by their names**, if no two have the same. -/
theorem toRecord_record {fields : List (String × Json)} (hnodup : (fields.map Prod.fst).Nodup) :
    (record fields).toRecord (fields.map Prod.fst) = some (fields.map Prod.snd) := by
  have hmembers : (fields.map fun f ↦ (Literal.ofString f.1, f.2)).mapM
      (fun m ↦ m.1.text.map fun key ↦ (key, m.2)) = some fields := by
    rw [List.mapM_map, mapM_eq_some_map (g := id) (by simp), List.map_id]
  have hvalues : (fields.map Prod.fst).mapM (fun name ↦ unique name fields) =
      some (fields.map Prod.snd) := by
    rw [List.mapM_map]
    refine mapM_eq_some_map fun f hf ↦ ?_
    rw [Function.comp_apply, unique, filter_of_nodup hnodup hf]
  rw [record, toRecord, hmembers]
  exact hvalues

end Json

namespace Instruction

open Json

/-- Texts come back from a record that holds each under a name of its own. -/
theorem textsOf_record (names texts : List String) (hlength : names.length = texts.length)
    (hnodup : names.Nodup) :
    textsOf names (.record (names.zip (texts.map Json.text))) = some texts := by
  have hnames : (names.zip (texts.map Json.text)).map Prod.fst = names :=
    List.map_fst_zip (by simp [hlength])
  have hvalues : (names.zip (texts.map Json.text)).map Prod.snd = texts.map Json.text :=
    List.map_snd_zip (by simp [hlength])
  have hrecord := toRecord_record (hnames.symm ▸ hnodup)
  rw [hnames, hvalues] at hrecord
  rw [textsOf, hrecord, Option.bind_eq_bind, Option.bind_some, List.mapM_map,
    mapM_eq_some_map (g := id) (by simp), List.map_id]

/-- **An instruction comes back from its JSON form.** -/
theorem ofJson?_toJson (i : Instruction) : ofJson? i.toJson = some i := by
  cases i with
  | alloca name =>
    have htexts : textsOf ["name"] (.record [("name", .text name)]) = some [name] :=
      textsOf_record ["name"] [name] rfl (by decide)
    simp [ofJson?, toJson, htexts]
  | move dst src =>
    have htexts : textsOf ["dst", "src"] (.record [("dst", .text dst), ("src", .text src)]) =
        some [dst, src] := textsOf_record ["dst", "src"] [dst, src] rfl (by decide)
    simp [ofJson?, toJson, htexts]
  | load dst reference =>
    have htexts : textsOf ["dst", "reference"]
        (.record [("dst", .text dst), ("reference", .text reference)]) = some [dst, reference] :=
      textsOf_record ["dst", "reference"] [dst, reference] rfl (by decide)
    simp [ofJson?, toJson, htexts]
  | store reference src =>
    have htexts : textsOf ["reference", "src"]
        (.record [("reference", .text reference), ("src", .text src)]) = some [reference, src] :=
      textsOf_record ["reference", "src"] [reference, src] rfl (by decide)
    simp [ofJson?, toJson, htexts]

theorem plain_toJson (i : Instruction) : Plain i.toJson := by
  cases i with
  | alloca name => exact .tagged "Alloca" (.record (by simp [Plain.text]))
  | move dst src => exact .tagged "Move" (.record (by simp [Plain.text]))
  | load dst reference => exact .tagged "Load" (.record (by simp [Plain.text]))
  | store reference src => exact .tagged "Store" (.record (by simp [Plain.text]))

/-- The names in some instructions, one instruction after the other and as they are written, from
left to right. -/
inductive NamesInOrder : List Instruction → List String → Prop
  | nil : NamesInOrder [] []
  | alloca {is : List Instruction} {xs : List String} (name : String) :
      NamesInOrder is xs → NamesInOrder (.alloca name :: is) (name :: xs)
  | move {is : List Instruction} {xs : List String} (dst src : String) :
      NamesInOrder is xs → NamesInOrder (.move dst src :: is) (dst :: src :: xs)
  | load {is : List Instruction} {xs : List String} (dst reference : String) :
      NamesInOrder is xs → NamesInOrder (.load dst reference :: is) (dst :: reference :: xs)
  | store {is : List Instruction} {xs : List String} (reference src : String) :
      NamesInOrder is xs → NamesInOrder (.store reference src :: is) (reference :: src :: xs)

theorem namesInOrder_flatMap_names (is : List Instruction) :
    NamesInOrder is (is.flatMap names) := by
  induction is with
  | nil => exact .nil
  | cons i is ih =>
    rw [List.flatMap_cons]
    cases i with
    | alloca name => exact .alloca name ih
    | move dst src => exact .move dst src ih
    | load dst reference => exact .load dst reference ih
    | store reference src => exact .store reference src ih

end Instruction

namespace Program

open Json

/-! ## Whole programs -/

theorem ofJson?_toJson (p : Program) : ofJson? p.toJson = some p := by
  have hitems : (p.instructions.map Instruction.toJson).mapM Instruction.ofJson? =
      some p.instructions := by
    rw [List.mapM_map, mapM_eq_some_map (g := id) fun i _ ↦ i.ofJson?_toJson, List.map_id]
  simp [ofJson?, toJson, toItems, hitems]

theorem plain_toJson (p : Program) : Plain p.toJson := by
  refine .array fun v hv ↦ ?_
  obtain ⟨i, -, rfl⟩ := List.mem_map.mp hv
  exact i.plain_toJson

/-- The JSON text of a program is read to its instructions, which are then checked. -/
theorem parseJson_pretty_eq (p : Program) :
    parseJson p.toJson.pretty = ofInstructions p.instructions := by
  rw [parseJson, pretty, parse_write blank_indented p.plain_toJson, Option.bind_some,
    ofJson?_toJson]

/-- **A program comes back from its JSON text if its names are valid**, and otherwise the first that
is not is reported, in the order of the instructions and as they are written.  The text itself is
never at fault. -/
theorem parseJson_pretty (p : Program) :
    ∃ xs, Instruction.NamesInOrder p.instructions xs ∧
      ((∀ x ∈ xs, Name.isValid x = true) → parseJson p.toJson.pretty = .ok p) ∧
      (∀ before x rest, xs = before ++ x :: rest → (∀ y ∈ before, Name.isValid y = true) →
        Name.isValid x = false → parseJson p.toJson.pretty = .error (.invalidName x)) ∧
      parseJson p.toJson.pretty ≠ .error .json := by
  have hfirst : p.instructions.findSome? Instruction.invalidName =
      (p.instructions.flatMap Instruction.names).find? fun x ↦ !Name.isValid x :=
    List.find?_flatMap.symm
  rw [parseJson_pretty_eq, ofInstructions_eq, hfirst]
  refine ⟨_, Instruction.namesInOrder_flatMap_names p.instructions, fun h ↦ ?_,
    fun before x rest hnames hbefore hx ↦ ?_, ?_⟩
  · rw [List.find?_eq_none.mpr]
    intro x hx
    simp [h x hx]
  · rw [List.find?_eq_some_iff_append.mpr]
    exact ⟨by simp [hx], before, rest, hnames, by simpa using hbefore⟩
  · split <;> exact nofun

end Program

end PointsTo
