import PointsTo.Proofs.LineGrammar

/-!
# Texts one after the other

Two program texts with a line feed between them are read as the one and then the other: the
instructions come in that order, and a fault of the second text is reported on the line where it now
stands, `Program.parse_join`.  Carriage returns before the line feeds make no difference.

`Text.lines` is not made for this.  The last line of the first text may lose a carriage return, or
may only become a line, once a line feed follows.  Cutting at every line feed with `List.splitOn`
has none of these effects and goes well with `++`.  So the lines are compared with the `Pieces`
between line feeds, and the two are read alike: a piece is a line with at most a carriage return
more, which is a blank at the end of a line, and the last piece may be empty, which is a line
without an instruction.
-/

set_option autoImplicit false

namespace PointsTo

namespace Text

/-! ## Lines and the pieces between line feeds -/

/-- The lines, and the pieces that they are: each with or without a carriage return that belongs to
the line end, and an empty one at the end or not. -/
inductive Pieces : List (List Char) → List (List Char) → Prop
  /-- Nothing after the last line feed is a piece, but no line. -/
  | empty : Pieces [] [[]]
  /-- Text after the last line feed is a line. -/
  | last (line : List Char) : Pieces [line] [line]
  /-- A line up to a line feed. -/
  | newline (line : List Char) {ls ps : List (List Char)} (h : Pieces ls ps) :
      Pieces (line :: ls) (line :: ps)
  /-- A line up to a carriage return and a line feed. -/
  | returned (line : List Char) {ls ps : List (List Char)} (h : Pieces ls ps) :
      Pieces (line :: ls) ((line ++ ['\r']) :: ps)

theorem Pieces.modifyHead {ls ps : List (List Char)} (h : Pieces ls ps) (hne : ls ≠ []) (c : Char) :
    Pieces (ls.modifyHead (c :: ·)) (ps.modifyHead (c :: ·)) := by
  cases h with
  | empty => exact absurd rfl hne
  | last line => exact .last (c :: line)
  | newline line h => exact .newline (c :: line) h
  | returned line h => exact .returned (c :: line) h

theorem splitOn_newline_cons {c : Char} (hc : c ≠ '\n') (cs : List Char) :
    (c :: cs).splitOn '\n' = (cs.splitOn '\n').modifyHead (c :: ·) := by
  rw [List.splitOn_cons_eq_if_modifyHead, if_neg (by simpa using hc)]

theorem splitOn_newline (cs : List Char) : ('\n' :: cs).splitOn '\n' = [] :: cs.splitOn '\n' := by
  rw [List.splitOn_cons_eq_if_modifyHead, if_pos (by simp)]

/-- **The lines of a text are its pieces.** -/
theorem pieces_lines (cs : List Char) : Pieces (lines cs) (cs.splitOn '\n') := by
  fun_induction lines cs with
  | case1 => exact .empty
  | case2 cs ih =>
    rw [splitOn_newline]
    exact .newline [] ih
  | case3 cs ih =>
    rw [splitOn_newline_cons (by decide), splitOn_newline]
    exact .returned [] ih
  | case4 c cs hc _ hlines ih =>
    rw [hlines] at ih
    rw [splitOn_newline_cons hc]
    generalize cs.splitOn '\n' = ps at ih
    cases ih
    exact .last [c]
  | case5 c cs hc _ line rest hlines ih =>
    rw [hlines] at ih
    rw [splitOn_newline_cons hc]
    exact ih.modifyHead (List.cons_ne_nil line rest) c

theorem length_splitOn_newline (cs : List Char) :
    (cs.splitOn '\n').length = cs.count '\n' + 1 := by
  induction cs with
  | nil => rfl
  | cons c cs ih =>
    by_cases hc : c = '\n'
    · rw [hc, splitOn_newline, List.length_cons, ih, List.count_cons_self]
    · rw [splitOn_newline_cons hc, List.length_modifyHead, ih, List.count_cons_of_ne hc]

/-- The text with a carriage return before each line feed. -/
def withReturns (text : String) : String :=
  String.ofList (text.toList.flatMap fun c ↦ if c = '\n' then ['\r', '\n'] else [c])

/-- With a carriage return before each line feed, only the last piece stays as it is. -/
theorem pieces_withReturns (text : String) :
    Pieces (text.toList.splitOn '\n') ((withReturns text).toList.splitOn '\n') := by
  rw [withReturns, String.toList_ofList]
  induction text.toList with
  | nil => exact .last []
  | cons c cs ih =>
    rw [List.flatMap_cons]
    split
    · next hc =>
      rw [hc, splitOn_newline, List.cons_append, List.cons_append, List.nil_append,
        splitOn_newline_cons (by decide), splitOn_newline]
      exact .returned [] ih
    · next hc =>
      rw [splitOn_newline_cons hc, List.cons_append, List.nil_append, splitOn_newline_cons hc]
      exact ih.modifyHead (List.splitOn_ne_nil _ _) c

end Text

/-- The error, with a line further down in the place of the one it names. -/
def Error.later (d : Nat) : Error → Error
  | .parse line fault => .parse (line + d) fault
  | e => e

namespace Instruction

open Text

/-- A blank at the end of a line counts for nothing, whether it stands in a comment or not. -/
theorem ofLine_append_blank {c : Char} (hc : isBlank c = true) (number : Nat)
    (line : List Char) : ofLine number (line ++ [c]) = ofLine number line := by
  have htrim : trim (stripComment (line ++ [c])) = trim (stripComment line) := by
    rw [stripComment, stripComment, List.takeWhile_append]
    split
    · next hlength =>
      rw [(List.takeWhile_prefix _).eq_of_length hlength]
      refine trim_append_blanks (fun d hd ↦ ?_) line
      rw [List.mem_singleton.mp ((List.takeWhile_prefix _).subset hd), hc]
    · rfl
  rw [ofLine, ofLine, htrim]

theorem ofLine_add (number d : Nat) (line : List Char) :
    ofLine (number + d) line = (ofLine number line).mapError (Error.later d) := by
  obtain ⟨r, hr⟩ := exists_ofLine_eq line
  rw [hr, hr]
  cases r <;> rfl

end Instruction

namespace Program

open Text

/-! ## Reading in parts -/

theorem parseLines_pieces {ls ps : List (List Char)} (h : Pieces ls ps) (number : Nat) :
    parseLines number ls = parseLines number ps := by
  induction h generalizing number with
  | empty => rfl
  | last line => rfl
  | newline line _ ih => rw [parseLines, parseLines, ih]
  | returned line _ ih =>
    rw [parseLines, parseLines, ih, Instruction.ofLine_append_blank (by decide)]

theorem parse_eq (text : String) :
    parse text = Program.mk <$> parseLines 1 (text.toList.splitOn '\n') := by
  rw [parse, parseLines_pieces (pieces_lines _)]

theorem parseLines_append (number : Nat) (ls ls' : List (List Char)) :
    parseLines number (ls ++ ls') = do
      let is ← parseLines number ls
      let js ← parseLines (number + ls.length) ls'
      return is ++ js := by
  induction ls generalizing number with
  | nil =>
    rw [List.nil_append, parseLines, List.length_nil, Nat.add_zero]
    cases parseLines number ls' <;> rfl
  | cons line ls ih =>
    have hnumber : number + (line :: ls).length = number + 1 + ls.length := by
      rw [List.length_cons]
      omega
    rw [List.cons_append, parseLines, parseLines, ih, hnumber]
    cases Instruction.ofLine number line with
    | error e => rfl
    | ok r =>
      cases r with
      | none => rfl
      | some i =>
        cases parseLines (number + 1) ls with
        | error e => rfl
        | ok is => cases parseLines (number + 1 + ls.length) ls' <;> rfl

theorem parseLines_add (number d : Nat) (ls : List (List Char)) :
    parseLines (number + d) ls = (parseLines number ls).mapError (Error.later d) := by
  induction ls generalizing number with
  | nil => rfl
  | cons line ls ih =>
    rw [parseLines, parseLines, Instruction.ofLine_add, Nat.add_right_comm, ih]
    cases Instruction.ofLine number line with
    | error e => rfl
    | ok r =>
      cases r with
      | none => rfl
      | some i => cases parseLines (number + 1) ls <;> rfl

/-- **Texts with a line feed between them are read one after the other**, the second further down by
the lines of the first. -/
theorem parse_append_newline (a b : String) :
    parse (a ++ "\n" ++ b) = do
      let p ← parse a
      let q ← (parse b).mapError (Error.later (1 + a.toList.count '\n'))
      return ⟨p.instructions ++ q.instructions⟩ := by
  have htext : (a ++ "\n" ++ b).toList = a.toList ++ '\n' :: b.toList := by simp
  rw [parse_eq, parse_eq, parse_eq, htext, List.splitOn_append_cons_self, parseLines_append,
    length_splitOn_newline, Nat.add_comm _ 1, parseLines_add]
  cases parseLines 1 (a.toList.splitOn '\n') with
  | error e => rfl
  | ok is => cases parseLines 1 (b.toList.splitOn '\n') <;> rfl

/-- **Parsing goes line by line.**  Of two texts with a line feed between them, a fault in the first
is the fault of the whole; without one, the instructions of both come one after the other, or the
fault of the second is found on the line where it now stands.  Carriage returns before the line
feeds make no difference. -/
theorem parse_join (a b : String) :
    (∀ e, parse a = .error e → parse (a ++ "\n" ++ b) = .error e) ∧
      (∀ p q, parse a = .ok p → parse b = .ok q →
        parse (a ++ "\n" ++ b) = .ok ⟨p.instructions ++ q.instructions⟩) ∧
      (∀ p k fault, parse a = .ok p → parse b = .error (.parse k fault) →
        parse (a ++ "\n" ++ b) = .error (.parse (k + 1 + a.toList.count '\n') fault)) ∧
      ∀ text, parse (withReturns text) = parse text := by
  rw [parse_append_newline]
  refine ⟨fun e ha ↦ ?_, fun p q ha hb ↦ ?_, fun p k fault ha hb ↦ ?_, fun text ↦ ?_⟩
  · rw [ha]; rfl
  · rw [ha, hb]; rfl
  · rw [ha, hb, Nat.add_assoc]; rfl
  · rw [parse_eq, parse_eq, parseLines_pieces (pieces_withReturns text)]

end Program

end PointsTo
