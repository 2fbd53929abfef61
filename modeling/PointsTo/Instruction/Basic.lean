import PointsTo.Name

/-!
# Instructions

The four instructions of a pointer program.  A variable receives a fresh location, a copy of another
variable, or what the locations it finds in a variable hold; and a store writes a variable into the
locations that another one points to.

The names in an instruction are strings, and nothing forces them to be valid.  An instruction is
checked as a whole by `Instruction.validate`, or name by name while it is made, by
`Instruction.checkedMove` and its kin.  Either way it passes exactly when all its names are valid,
and otherwise the first that is not is reported, in the order in which the names are written.  That
the two ways agree is `Instruction.MadeBy`.
-/

set_option autoImplicit false

namespace PointsTo

/-- One instruction of a pointer program. -/
inductive Instruction where
  /-- `name = alloca`: the variable points to a location of its own. -/
  | alloca (name : String)
  /-- `dst = src`: the one variable points to all that the other points to. -/
  | move (dst src : String)
  /-- `dst = *reference`: the variable points to all that `reference`'s locations point to. -/
  | load (dst reference : String)
  /-- `*reference = src`: `reference`'s locations point to all that `src` points to. -/
  | store (reference src : String)
deriving DecidableEq, Ord

namespace Instruction

/-- The names of an instruction, as they are written from left to right. -/
def names : Instruction → List String
  | .alloca name => [name]
  | .move dst src => [dst, src]
  | .load dst reference => [dst, reference]
  | .store reference src => [reference, src]

/-- The variable that an instruction writes.  A store writes locations, and no variable. -/
def nameWritten : Instruction → Option String
  | .alloca name => some name
  | .move dst _ => some dst
  | .load dst _ => some dst
  | .store _ _ => none

/-- Whether the instruction allocates. -/
def isAlloca : Instruction → Bool
  | .alloca _ => true
  | _ => false

/-- Whether the instruction copies a variable. -/
def isMove : Instruction → Bool
  | .move _ _ => true
  | _ => false

/-- Whether the instruction reads through a reference. -/
def isLoad : Instruction → Bool
  | .load _ _ => true
  | _ => false

/-- Whether the instruction writes through a reference. -/
def isStore : Instruction → Bool
  | .store _ _ => true
  | _ => false

/-! ## Checking the names -/

/-- The first name of the instruction that is not valid, if there is one. -/
def invalidName (i : Instruction) : Option String := i.names.find? fun name ↦ !Name.isValid name

theorem invalidName_eq_none_iff {i : Instruction} :
    i.invalidName = none ↔ ∀ name ∈ i.names, Name.isValid name = true := by
  simp [invalidName]

/-- Fails with the first name that is not valid. -/
def validate (i : Instruction) : Except Error Unit :=
  match i.invalidName with
  | some name => .error (.invalidName name)
  | none => .ok ()

/-- **An instruction passes the check exactly when all its names are valid.** -/
theorem validate_eq_ok_iff {i : Instruction} :
    i.validate = .ok () ↔ ∀ name ∈ i.names, Name.isValid name = true := by
  rw [← invalidName_eq_none_iff, validate]
  cases i.invalidName with
  | none => simp
  | some name => simp

/-- An allocation to a valid name. -/
def checkedAlloca (name : String) : Except Error Instruction := do
  return .alloca (← Name.check name)

/-- A move between valid names. -/
def checkedMove (dst src : String) : Except Error Instruction := do
  return .move (← Name.check dst) (← Name.check src)

/-- A load between valid names. -/
def checkedLoad (dst reference : String) : Except Error Instruction := do
  return .load (← Name.check dst) (← Name.check reference)

/-- A store between valid names. -/
def checkedStore (reference src : String) : Except Error Instruction := do
  return .store (← Name.check reference) (← Name.check src)

/-! ## The two checks agree -/

/-- Making the instruction fails exactly if its check does, and then with the same name. -/
def MadeBy (i : Instruction) (made : Except Error Instruction) : Prop :=
  (made = .ok i ∧ i.validate = .ok ()) ∨
    ∃ name, made = .error (.invalidName name) ∧ i.validate = .error (.invalidName name)

/-- Where two names are checked one after the other, the first is reported if both are invalid. -/
theorem madeBy_two {make : String → String → Instruction}
    (hnames : ∀ x y, (make x y).names = [x, y]) (x y : String) :
    (make x y).MadeBy (do return make (← Name.check x) (← Name.check y)) := by
  rw [MadeBy, validate, invalidName, hnames, Name.check, Name.check]
  cases hx : Name.isValid x with
  | false => exact .inr ⟨x, rfl, by simp [hx]⟩
  | true =>
    cases hy : Name.isValid y with
    | true => exact .inl ⟨rfl, by simp [hx, hy]⟩
    | false => exact .inr ⟨y, rfl, by simp [hx, hy]⟩

theorem madeBy_checkedAlloca (name : String) : (alloca name).MadeBy (checkedAlloca name) := by
  rw [MadeBy, validate, invalidName, names, checkedAlloca, Name.check]
  cases hname : Name.isValid name with
  | true => exact .inl ⟨rfl, by simp [hname]⟩
  | false => exact .inr ⟨name, rfl, by simp [hname]⟩

theorem madeBy_checkedMove (dst src : String) : (move dst src).MadeBy (checkedMove dst src) :=
  madeBy_two (fun _ _ ↦ rfl) dst src

theorem madeBy_checkedLoad (dst reference : String) :
    (load dst reference).MadeBy (checkedLoad dst reference) :=
  madeBy_two (fun _ _ ↦ rfl) dst reference

theorem madeBy_checkedStore (reference src : String) :
    (store reference src).MadeBy (checkedStore reference src) :=
  madeBy_two (fun _ _ ↦ rfl) reference src

theorem MadeBy.eq_ok_iff {i j : Instruction} {made : Except Error Instruction} (h : i.MadeBy made) :
    made = .ok j ↔ j = i ∧ i.invalidName = none := by
  rw [invalidName_eq_none_iff, ← validate_eq_ok_iff]
  obtain ⟨rfl, hvalid⟩ | ⟨name, rfl, hinvalid⟩ := h
  · simp [hvalid, eq_comm]
  · simp [hinvalid]

theorem MadeBy.eq_ok {i : Instruction} {made : Except Error Instruction} (h : i.MadeBy made)
    (hvalid : i.invalidName = none) : made = .ok i :=
  h.eq_ok_iff.mpr ⟨rfl, hvalid⟩

/-! ## The written form -/

/-- The written form of an instruction. -/
def render : Instruction → String
  | .alloca name => name ++ " = " ++ Name.keyword
  | .move dst src => dst ++ " = " ++ src
  | .load dst reference => dst ++ " = *" ++ reference
  | .store reference src => "*" ++ reference ++ " = " ++ src

end Instruction

end PointsTo
