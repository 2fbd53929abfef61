import PointsTo.Json.Basic

/-!
# Writing JSON

One writer serves the compact and the indented form.  What differs between them is collected in a
`Layout`: what separates a key from its value, and what stands where a line of the indented form
would start.  An empty array or object is written without a line of its own in either form.
-/

set_option autoImplicit false

namespace PointsTo.Json

/-- How the parts of a value are set apart. -/
structure Layout where
  /-- What starts a new line at that depth. -/
  line : Nat → String
  /-- What stands between a key and its value. -/
  colon : String

/-- No space at all. -/
def Layout.compact : Layout := ⟨fun _ ↦ "", ":"⟩

/-- Every item and member on a line of its own, two spaces deeper than what holds it. -/
def Layout.indented : Layout :=
  ⟨fun depth ↦ "\n" ++ String.ofList (List.replicate (2 * depth) ' '), ": "⟩

/-- A code below 2^16 as four hexadecimal digits. -/
def hex4 (n : Nat) : List Char :=
  [Nat.digitChar (n / 4096 % 16), Nat.digitChar (n / 256 % 16), Nat.digitChar (n / 16 % 16),
    Nat.digitChar (n % 16)]

/-- The escape for a character: by a letter where there is one, else by its code. -/
def escaped (c : Char) : List Char :=
  if c = '"' then ['\\', '"']
  else if c = '\\' then ['\\', '\\']
  else if c = '\x08' then ['\\', 'b']
  else if c = '\t' then ['\\', 't']
  else if c = '\n' then ['\\', 'n']
  else if c = '\x0c' then ['\\', 'f']
  else if c = '\r' then ['\\', 'r']
  else '\\' :: 'u' :: hex4 c.toNat

/-- A piece of a literal as it is written. -/
def Piece.write : Piece → List Char
  | .plain c => [c]
  | .escape c => escaped c
  | .half code => '\\' :: 'u' :: hex4 code

/-- A literal between its quotes. -/
def Literal.write (l : Literal) : String := "\"" ++ String.ofList (l.flatMap Piece.write) ++ "\""

/-- A number as it is spelled. -/
def Number.write : Number → String
  | .natural n => Nat.repr n
  | .other spelling => spelling

mutual

/-- The text of a value that starts at that depth. -/
def write (s : Layout) (depth : Nat) : Json → String
  | .null => "null"
  | .bool true => "true"
  | .bool false => "false"
  | .number n => n.write
  | .string l => l.write
  | .array [] => "[]"
  | .array (v :: vs) =>
    "[" ++ s.line (depth + 1) ++ v.write s (depth + 1) ++ writeItems s (depth + 1) vs ++
      s.line depth ++ "]"
  | .object [] => "\x7b\x7d"
  | .object ((k, v) :: ms) =>
    "\x7b" ++ s.line (depth + 1) ++ k.write ++ s.colon ++ v.write s (depth + 1) ++
      writeMembers s (depth + 1) ms ++ s.line depth ++ "\x7d"

/-- The text of the items of an array after its first. -/
def writeItems (s : Layout) (depth : Nat) : List Json → String
  | [] => ""
  | v :: vs => "," ++ s.line depth ++ v.write s depth ++ writeItems s depth vs

/-- The text of the members of an object after its first. -/
def writeMembers (s : Layout) (depth : Nat) : List (Literal × Json) → String
  | [] => ""
  | (k, v) :: ms =>
    "," ++ s.line depth ++ k.write ++ s.colon ++ v.write s depth ++ writeMembers s depth ms

end

/-- The compact text of a value. -/
def compact (v : Json) : String := v.write .compact 0

/-- The indented text of a value. -/
def pretty (v : Json) : String := v.write .indented 0

end PointsTo.Json
