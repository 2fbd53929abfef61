import Std.Data.ExtTreeMap

/-!
# Locations and storage

An abstract location stands for everything that one allocation instruction creates, and is known by
its number.  Pointers are kept in *storage*: in a variable, or in a location that is itself pointed
to.  Both are the keys of an environment, so storage is totally ordered: variables come first, by
their names, and locations follow, by their numbers.
-/

set_option autoImplicit false

namespace PointsTo

open Std

/-- An abstract location: all that one allocation creates. -/
structure Location where
  /-- The number of the allocation. -/
  index : Nat
deriving DecidableEq

namespace Location

instance : Ord Location := ⟨compareOn index⟩

instance : TransOrd Location := inferInstanceAs (TransCmp (compareOn index))

instance : LawfulEqOrd Location where
  eq_of_compare {a b} h := by
    have h : compare a.index b.index = .eq := h
    cases a; cases b
    exact congrArg Location.mk (LawfulEqOrd.eq_of_compare h)

/-- The written form of a location. -/
def render (l : Location) : String := "ref_" ++ Nat.repr l.index

end Location

/-- A place that holds pointers: a variable, or a location. -/
inductive Storage where
  /-- The variable of that name. -/
  | var (name : String)
  /-- What is kept in a location. -/
  | loc (place : Location)
deriving DecidableEq

namespace Storage

/-- Variables by name, then locations by number. -/
protected def compare : Storage → Storage → Ordering
  | .var a, .var b => compare a b
  | .var _, .loc _ => .lt
  | .loc _, .var _ => .gt
  | .loc a, .loc b => compare a b

instance : Ord Storage := ⟨Storage.compare⟩

theorem compare_var (a b : String) : compare (Storage.var a) (.var b) = compare a b := rfl

theorem compare_loc (a b : Location) : compare (Storage.loc a) (.loc b) = compare a b := rfl

instance : OrientedOrd Storage where
  eq_swap {a b} := by
    cases a with
    | var a =>
      cases b with
      | var b => rw [compare_var, compare_var]; exact OrientedCmp.eq_swap
      | loc b => rfl
    | loc a =>
      cases b with
      | var b => rfl
      | loc b => rw [compare_loc, compare_loc]; exact OrientedCmp.eq_swap

instance : TransOrd Storage where
  isLE_trans {a b c} hab hbc := by
    cases a with
    | var a =>
      cases c with
      | loc c => rfl
      | var c =>
        cases b with
        | var b => rw [compare_var] at *; exact TransCmp.isLE_trans hab hbc
        | loc b => cases hbc
    | loc a =>
      cases b with
      | var b => cases hab
      | loc b =>
        cases c with
        | var c => cases hbc
        | loc c => rw [compare_loc] at *; exact TransCmp.isLE_trans hab hbc

instance : LawfulEqOrd Storage where
  eq_of_compare {a b} h := by
    cases a with
    | var a =>
      cases b with
      | var b => rw [compare_var] at h; exact congrArg _ (LawfulEqCmp.eq_of_compare h)
      | loc b => cases h
    | loc a =>
      cases b with
      | var b => cases h
      | loc b => rw [compare_loc] at h; exact congrArg _ (LawfulEqCmp.eq_of_compare h)

/-- The written form of storage: the name of a variable, or that of a location. -/
def render : Storage → String
  | .var name => name
  | .loc place => place.render

end Storage

/-! ## Fresh locations -/

/-- Hands out locations in the order of their numbers. -/
structure Allocator where
  /-- How many locations were handed out, which is also the number of the next one. -/
  allocated : Nat := 0
deriving DecidableEq

namespace Allocator

/-- The next location, and the allocator after it. -/
def fresh (a : Allocator) : Location × Allocator := (⟨a.allocated⟩, ⟨a.allocated + 1⟩)

end Allocator

end PointsTo
