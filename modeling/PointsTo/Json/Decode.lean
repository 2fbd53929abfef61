import PointsTo.Json.Reader

/-!
# Taking JSON values apart

Three shapes occur in the JSON form of a domain value.  A *record* is an object with one member for
each of its fields, in any order and among members that are passed over, or an array of its fields
in their order.  A *tagged* value is an object of one member, whose key is the tag.  An *index* is a
number spelled in digits and below 2^64; the keys of an index map spell one as well.
-/

set_option autoImplicit false

namespace PointsTo.Json

/-- Indices are below 2^64. -/
def indexBound : Nat := 0x10000000000000000

/-- The number that an index denotes. -/
def Number.toIndex : Number → Option Nat
  | .natural n => if n < indexBound then some n else none
  | .other _ => none

/-- The value as an index. -/
def toIndex : Json → Option Nat
  | .number n => n.toIndex
  | _ => none

/-- The value as a text. -/
def toText : Json → Option String
  | .string l => l.text
  | _ => none

/-- The value as a list. -/
def toItems : Json → Option (List Json)
  | .array items => some items
  | _ => none

/-- The only value under that key, if there is exactly one. -/
def unique (key : String) (members : List (String × Json)) : Option Json :=
  match members.filter fun m ↦ m.1 == key with
  | [m] => some m.2
  | _ => none

/-- The fields of a record, in the order of their names. -/
def toRecord (names : List String) : Json → Option (List Json)
  | .array items => if items.length = names.length then some items else none
  | .object members => do
    let members ← members.mapM fun m ↦ m.1.text.map fun key ↦ (key, m.2)
    names.mapM fun name ↦ unique name members
  | _ => none

/-- The tag and the value of a tagged value. -/
def toTagged : Json → Option (String × Json)
  | .object [(k, v)] => k.text.map fun tag ↦ (tag, v)
  | _ => none

/-- The index that a key spells, character by character. -/
def Literal.index (l : Literal) : Option Nat := do
  let cs ← l.mapM fun p ↦ match p with
    | .plain c => some c
    | _ => none
  match scanNumber cs with
  | some (n, []) => n.toIndex
  | _ => none

/-- The members of an index map, in order and with repetitions. -/
def toIndexMap : Json → Option (List (Nat × Json))
  | .object members => members.mapM fun m ↦ m.1.index.map fun i ↦ (i, m.2)
  | _ => none

end PointsTo.Json
