/-!
# JSON values

A `Json` value keeps what the text says as far as any reader of it can tell apart: the members of an
object in order and with repetitions, a number as digits or else as it is spelled, and a string as
the pieces of its literal.

The pieces matter in two places.  An escape can spell half of a surrogate pair, and a literal with
such a half that has no partner denotes no text at all, though it may stand in a value that nobody
looks at.  And a key that is to be a number has to be spelled in digits, not in escapes for digits.
-/

set_option autoImplicit false

namespace PointsTo

namespace Json

/-- One piece of a string literal. -/
inductive Piece where
  /-- A character that stands for itself. -/
  | plain (c : Char)
  /-- An escape that denotes a character. -/
  | escape (c : Char)
  /-- An escape that denotes half of a surrogate pair. -/
  | half (code : Nat)
deriving DecidableEq

/-- A string literal, piece by piece. -/
abbrev Literal := List Piece

/-- Whether a code is the first half of a surrogate pair. -/
def isLead (code : Nat) : Bool := decide (0xd800 ≤ code) && decide (code < 0xdc00)

/-- Whether a code is the second half of a surrogate pair. -/
def isTrail (code : Nat) : Bool := decide (0xdc00 ≤ code) && decide (code < 0xe000)

/-- The character that a surrogate pair denotes. -/
def ofPair (lead trail : Nat) : Char :=
  Char.ofNat (0x10000 + (lead - 0xd800) * 0x400 + (trail - 0xdc00))

/-- The characters that a literal denotes; `none` if half of a pair stands alone. -/
def Literal.chars : Literal → Option (List Char)
  | [] => some []
  | .plain c :: rest => (c :: ·) <$> chars rest
  | .escape c :: rest => (c :: ·) <$> chars rest
  | .half lead :: .half trail :: rest =>
    if isLead lead && isTrail trail then (ofPair lead trail :: ·) <$> chars rest else none
  | .half _ :: _ => none

/-- The text that a literal denotes, if it denotes one. -/
def Literal.text (l : Literal) : Option String := String.ofList <$> l.chars

/-- Whether a character has to be escaped in a literal: quotes, backslashes and controls. -/
def needsEscape (c : Char) : Bool := c == '"' || c == '\\' || decide (c.toNat < 0x20)

/-- The literal that denotes a text, with no escape that is not needed. -/
def Literal.ofString (s : String) : Literal :=
  s.toList.map fun c ↦ if needsEscape c then .escape c else .plain c

private theorem chars_map (cs : List Char) :
    Literal.chars (cs.map fun c ↦ if needsEscape c then .escape c else .plain c) = some cs := by
  induction cs with
  | nil => rfl
  | cons c cs ih =>
    by_cases h : needsEscape c = true <;> simp [h, Literal.chars, ih]

/-- **A text is what its literal denotes.** -/
@[simp] theorem Literal.text_ofString (s : String) : (Literal.ofString s).text = some s := by
  simp [Literal.text, Literal.ofString, chars_map]

/-- A number, as it is spelled. -/
inductive Number where
  /-- Digits alone. -/
  | natural (n : Nat)
  /-- A number with a sign, a fraction or an exponent. -/
  | other (spelling : String)
deriving DecidableEq

end Json

/-- A JSON value. -/
inductive Json where
  /-- The value `null`. -/
  | null
  /-- A truth value. -/
  | bool (b : Bool)
  /-- A number. -/
  | number (n : Json.Number)
  /-- A string. -/
  | string (l : Json.Literal)
  /-- An array of values. -/
  | array (items : List Json)
  /-- An object: keys and values in order, keys possibly repeated. -/
  | object (members : List (Json.Literal × Json))

namespace Json

/-- The string that denotes a text. -/
def text (s : String) : Json := .string (.ofString s)

/-- A natural number. -/
def nat (n : Nat) : Json := .number (.natural n)

/-- The object with these keys and values. -/
def record (fields : List (String × Json)) : Json :=
  .object (fields.map fun f ↦ (.ofString f.1, f.2))

/-- A tagged value: the object whose one key is the tag. -/
def tagged (tag : String) (value : Json) : Json := record [(tag, value)]

end Json

end PointsTo
