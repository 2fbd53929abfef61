/-!
# Blanks and lines

Texts are lists of characters here, so that everything said about them is said by recursion on the
list.

* A blank is a character with the Unicode property White_Space, a table of twenty-five code points
  in ten ranges.  `trim` removes the blanks at both ends of a text and leaves those inside alone.
* A line ends at a line feed, and a carriage return directly before that line feed belongs to the
  line end.  Text after the last line feed is a line of its own, but nothing after it is none:
  `"a\nb"` and `"a\nb\n"` have the same two lines.  A carriage return that no line feed follows is
  an ordinary character.
-/

set_option autoImplicit false

namespace PointsTo.Text

/-! ## Blanks -/

/-- The ranges of code points that are blank, both ends included. -/
def blankRanges : List (Nat × Nat) :=
  [(0x09, 0x0d), (0x20, 0x20), (0x85, 0x85), (0xa0, 0xa0), (0x1680, 0x1680), (0x2000, 0x200a),
    (0x2028, 0x2029), (0x202f, 0x202f), (0x205f, 0x205f), (0x3000, 0x3000)]

/-- A character is blank when its code point lies in one of the `blankRanges`. -/
def isBlank (c : Char) : Bool :=
  blankRanges.any fun r ↦ decide (r.1 ≤ c.toNat) && decide (c.toNat ≤ r.2)

/-- The text without the blanks it starts with. -/
def trimLeft (cs : List Char) : List Char := cs.dropWhile isBlank

/-- The text without the blanks it ends with. -/
def trimRight (cs : List Char) : List Char := (cs.reverse.dropWhile isBlank).reverse

/-- The text without the blanks at its two ends. -/
def trim (cs : List Char) : List Char := trimRight (trimLeft cs)

/-! ## Lines -/

/-- The lines of a text, without their line ends. -/
def lines : List Char → List (List Char)
  | [] => []
  | '\n' :: cs => [] :: lines cs
  | '\r' :: '\n' :: cs => [] :: lines cs
  | c :: cs =>
    match lines cs with
    | [] => [[c]]
    | line :: rest => (c :: line) :: rest

@[simp] theorem lines_newline (cs : List Char) : lines ('\n' :: cs) = [] :: lines cs := by
  simp [lines]

end PointsTo.Text
