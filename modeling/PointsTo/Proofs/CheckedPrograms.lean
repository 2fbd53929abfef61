import PointsTo.Program.Builder
import PointsTo.Proofs.ProgramText

/-!
# Checked programs have valid names

Names are checked in two ways.  `Instruction.validate` looks through the names of an instruction
that is there already, and the constructors `checkedAlloca`, `checkedMove`, `checkedLoad` and
`checkedStore` check each name before there is an instruction.  The two agree on every instruction,
down to the name that is reported, `Instruction.MadeBy`.  Lists and JSON go through the first, lines
of text and the calls of a builder through the second.

`Program.Built` collects the programs that can be had through checks: read from a text or a file in
either form, made from a list of instructions, or built up call by call from such a program, where
calls may fail in between.  `Builder.after_eq` says all that a call can do, and from it, by
induction on how a program was built, no instruction of such a program has an invalid name.
-/

set_option autoImplicit false

namespace PointsTo

namespace Builder

open Instruction

/-! ## One call -/

theorem after_of_add_eq {p : Program} {i : Instruction} {r : Except Error Program}
    (h : p.add i = r) :
    after p i = ((do set (← r); return i : Builder Instruction)).run.run p :=
  h ▸ rfl

theorem after_of_madeBy {p : Program} {i : Instruction} {made : Except Error Instruction}
    (hadd : p.add i = p.push <$> made) (h : i.MadeBy made) :
    after p i =
      match i.validate with
      | .ok () => (.ok i, p.push i)
      | .error e => (.error e, p) := by
  obtain ⟨rfl, hvalid⟩ | ⟨name, rfl, hinvalid⟩ := h
  · rw [after_of_add_eq hadd, hvalid]
    rfl
  · rw [after_of_add_eq hadd, hinvalid]
    rfl

/-- **A call adds the instruction if its names are valid**, and otherwise fails and leaves the
program alone. -/
theorem after_eq (p : Program) (i : Instruction) :
    after p i =
      match i.validate with
      | .ok () => (.ok i, p.push i)
      | .error e => (.error e, p) := by
  cases i with
  | alloca name => exact after_of_madeBy rfl (madeBy_checkedAlloca name)
  | move dst src => exact after_of_madeBy rfl (madeBy_checkedMove dst src)
  | load dst reference => exact after_of_madeBy rfl (madeBy_checkedLoad dst reference)
  | store reference src => exact after_of_madeBy rfl (madeBy_checkedStore reference src)

end Builder

namespace Program

/-! ## Programs that were checked -/

/-- The programs that can be had through checks. -/
inductive Built : Program → Prop
  /-- The program without an instruction. -/
  | empty : Built {}
  /-- A program read from a text. -/
  | parsed {text : String} {p : Program} (h : parse text = .ok p) : Built p
  /-- A program read from a text in JSON. -/
  | parsedJson {text : String} {p : Program} (h : parseJson text = .ok p) : Built p
  /-- A program read from a text file. -/
  | textFile {bytes : Option ByteArray} {p : Program} (h : ofTextFile bytes = .ok p) : Built p
  /-- A program read from a JSON file. -/
  | jsonFile {bytes : Option ByteArray} {p : Program} (h : ofJsonFile bytes = .ok p) : Built p
  /-- A program made from a list of instructions. -/
  | listed {is : List Instruction} {p : Program} (h : ofInstructions is = .ok p) : Built p
  /-- What a program is after one more call, also one that failed. -/
  | called {p : Program} (hp : Built p) (i : Instruction) : Built (Builder.after p i).2

theorem validate_of_mem_ofInstructions {is : List Instruction} {p : Program}
    (h : ofInstructions is = .ok p) : ∀ i ∈ p.instructions, i.validate = .ok () := by
  rw [ofInstructions_eq] at h
  split at h
  · cases h
  · next hnone =>
    cases h
    intro i hi
    rw [Instruction.validate, List.findSome?_eq_none_iff.mp hnone i hi]

theorem validate_of_mem_parse {text : String} {p : Program} (h : parse text = .ok p) :
    ∀ i ∈ p.instructions, i.validate = .ok () := by
  intro i hi
  rw [Instruction.validate, invalidName_of_mem_parse h hi]

theorem validate_of_mem_parseJson {text : String} {p : Program} (h : parseJson text = .ok p) :
    ∀ i ∈ p.instructions, i.validate = .ok () := by
  rw [parseJson] at h
  split at h
  · cases h
  · exact validate_of_mem_ofInstructions h

theorem exists_of_fileText_bind {bytes : Option ByteArray} {read : String → Except Error Program}
    {p : Program} (h : fileText bytes >>= read = .ok p) : ∃ text, read text = .ok p := by
  cases htext : fileText bytes with
  | error e => rw [htext] at h; cases h
  | ok text => rw [htext] at h; exact ⟨text, h⟩

theorem validate_of_mem_after {p : Program} (hp : ∀ i ∈ p.instructions, i.validate = .ok ())
    (i : Instruction) : ∀ j ∈ (Builder.after p i).2.instructions, j.validate = .ok () := by
  rw [Builder.after_eq]
  split
  · next hvalid =>
    intro j hj
    rw [push, List.mem_append, List.mem_singleton] at hj
    rcases hj with hj | rfl
    · exact hp j hj
    · exact hvalid
  · exact hp

/-- **A program that was checked has only instructions that pass the check.** -/
theorem Built.validate {p : Program} (h : Built p) :
    ∀ i ∈ p.instructions, i.validate = .ok () := by
  induction h with
  | empty => exact nofun
  | parsed h => exact validate_of_mem_parse h
  | parsedJson h => exact validate_of_mem_parseJson h
  | textFile h =>
    obtain ⟨text, htext⟩ := exists_of_fileText_bind h
    exact validate_of_mem_parse htext
  | jsonFile h =>
    obtain ⟨text, htext⟩ := exists_of_fileText_bind h
    exact validate_of_mem_parseJson htext
  | listed h => exact validate_of_mem_ofInstructions h
  | called _ i ih => exact validate_of_mem_after ih i

/-- **No invalid name gets past a check.**  However a program was read, made or built up, its
instructions pass their check.  A call that fails leaves the program as it was.  And an instruction
of any kind can be made name by name exactly if it passes its check as a whole, both failing with
the same name. -/
theorem built_validate :
    (∀ p, Built p → ∀ i ∈ p.instructions, i.validate = .ok ()) ∧
      (∀ p i e, (Builder.after p i).1 = .error e → (Builder.after p i).2 = p) ∧
      (∀ name, (Instruction.alloca name).MadeBy (Instruction.checkedAlloca name)) ∧
      (∀ dst src, (Instruction.move dst src).MadeBy (Instruction.checkedMove dst src)) ∧
      (∀ dst reference,
        (Instruction.load dst reference).MadeBy (Instruction.checkedLoad dst reference)) ∧
      ∀ reference src,
        (Instruction.store reference src).MadeBy (Instruction.checkedStore reference src) := by
  refine ⟨fun p ↦ Built.validate, fun p i e h ↦ ?_, Instruction.madeBy_checkedAlloca,
    Instruction.madeBy_checkedMove, Instruction.madeBy_checkedLoad, Instruction.madeBy_checkedStore⟩
  rw [Builder.after_eq] at h ⊢
  split at h
  · cases h
  · rfl

end Program

end PointsTo
