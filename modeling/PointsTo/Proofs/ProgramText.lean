import Mathlib.Data.List.Basic
import Mathlib.Data.List.TakeWhile
import PointsTo.Program.Text

/-!
# Programs are read as they are written

`Program.render` writes an instruction on a line, and `Program.parse` reads lines.  A program comes
back from its text exactly when its names are valid, `Program.parse_render_iff`.

* **There.**  The two sides of a written instruction are `Word`s: nonempty, of asterisks and the
  characters of names only.  None of these is a blank, a line end, a hash or an equals sign, so the
  line is not cut short, it splits at the one equals sign that was put there, and trimming gives the
  sides back.  `ofSides_sides` is where the order of the tests matters: a name starts with no
  asterisk and is not the keyword, so no move is taken for an allocation.
* **And back.**  A name that is not valid may well print into legal text: `move "x" "*y"` reads as a
  load, and an instruction with a line end in a name may read as two.  What such a text is read as
  need not be followed up.  Whichever instruction two sides make, they make it with its names
  checked, `ofSides_cases`.  So nothing is ever read but instructions with valid names,
  `Program.invalidName_of_mem_parse`, and it is not the program that was written.

`Instruction.ofLine_eq_ok_some_iff` opens the cascade of tests that reads a line, once and for both
directions, and `Instruction.exists_ofLine_eq` says how it can fail.
-/

set_option autoImplicit false

namespace PointsTo

namespace Text

/-! ## Trimming -/

/-- The text has no blank at either end. -/
structure Bare (cs : List Char) : Prop where
  /-- It does not start with a blank. -/
  head : ∀ c ∈ cs.head?, isBlank c = false
  /-- It does not end with a blank. -/
  last : ∀ c ∈ cs.getLast?, isBlank c = false

theorem bare_of_forall {cs : List Char} (h : ∀ c ∈ cs, isBlank c = false) : Bare cs :=
  ⟨fun c hc ↦ h c (List.mem_of_mem_head? hc), fun c hc ↦ h c (List.mem_of_mem_getLast? hc)⟩

theorem Bare.append {cs ds : List Char} (hcs : Bare cs) (hds : Bare ds) (hc : cs ≠ [])
    (hd : ds ≠ []) (es : List Char) : Bare (cs ++ es ++ ds) := by
  refine ⟨fun c h ↦ hcs.head c ?_, fun c h ↦ hds.last c ?_⟩
  · rwa [List.append_assoc, List.head?_append_of_ne_nil cs hc] at h
  · rwa [List.getLast?_append, List.getLast?_eq_some_getLast hd, Option.some_or,
      ← List.getLast?_eq_some_getLast hd] at h

theorem dropWhile_blank_of_head? {cs : List Char} (h : ∀ c ∈ cs.head?, isBlank c = false) :
    cs.dropWhile isBlank = cs := by
  cases cs with
  | nil => rfl
  | cons c cs => rw [List.dropWhile_cons_of_neg (by simp [h c rfl])]

/-- **Trimming removes the blanks around a text**, and none inside. -/
theorem trim_append {cs ws vs : List Char} (hcs : Bare cs) (hws : ∀ c ∈ ws, isBlank c = true)
    (hvs : ∀ c ∈ vs, isBlank c = true) : trim (ws ++ cs ++ vs) = cs := by
  have hleft : trimLeft (ws ++ cs ++ vs) = if cs = [] then [] else cs ++ vs := by
    rw [trimLeft, List.append_assoc, List.dropWhile_append_of_pos hws]
    split
    · next h => rw [h, List.nil_append, List.dropWhile_eq_nil_iff.mpr hvs]
    · next h =>
      refine dropWhile_blank_of_head? ?_
      rw [List.head?_append_of_ne_nil cs h]
      exact hcs.head
  rw [trim, hleft]
  split
  · next h => rw [h]; rfl
  · rw [trimRight, List.reverse_append,
      List.dropWhile_append_of_pos fun c hc ↦ hvs c (List.mem_reverse.mp hc),
      dropWhile_blank_of_head? (by simpa using hcs.last), List.reverse_reverse]

theorem trim_of_bare {cs : List Char} (h : Bare cs) : trim cs = cs := by
  have hnone : ∀ c ∈ ([] : List Char), isBlank c = true := by simp
  simpa using trim_append h hnone hnone

/-! ## Lines -/

/-- **A text up to a line feed is a line**, if it has no line end in it. -/
theorem lines_append_newline {cs : List Char} (hn : '\n' ∉ cs) (hr : '\r' ∉ cs)
    (rest : List Char) : lines (cs ++ '\n' :: rest) = cs :: lines rest := by
  induction cs with
  | nil => exact lines_newline rest
  | cons c cs ih =>
    rw [List.mem_cons, not_or] at hn hr
    rw [List.cons_append, lines, ih hn.2 hr.2]
    · exact fun h ↦ hn.1 h.symm
    · exact fun _ h _ ↦ hr.1 h.symm

end Text

/-! ## Names -/

namespace Name

theorem isRest_of_isStart {c : Char} (h : isStart c = true) : isRest c = true := by
  rw [isStart, Bool.or_eq_true] at h
  rw [isRest, Char.isAlphanum, Bool.or_eq_true, Bool.or_eq_true]
  exact h.imp_left .inl

theorem isRest_of_mem {x : String} (h : isValid x = true) {c : Char} (hc : c ∈ x.toList) :
    isRest c = true := by
  rw [isValid] at h
  cases hx : x.toList with
  | nil => rw [hx] at hc; cases hc
  | cons d ds =>
    rw [hx] at hc h
    simp only [Bool.and_eq_true, List.all_eq_true] at h
    rcases List.mem_cons.mp hc with rfl | hc
    · exact isRest_of_isStart h.1.1
    · exact h.1.2 c hc

theorem toList_ne_nil {x : String} (h : isValid x = true) : x.toList ≠ [] := by
  intro hx
  simp [isValid, hx] at h

theorem ne_keyword {x : String} (h : isValid x = true) : x ≠ keyword := by
  rintro rfl
  revert h
  decide

theorem head?_ne_asterisk {x : String} (h : isValid x = true) : x.toList.head? ≠ some '*' := by
  intro hx
  have hrest : isRest '*' = true := isRest_of_mem h (List.mem_of_mem_head? hx)
  revert hrest
  decide

/-- The characters of names lie between the digit zero and the letter z. -/
theorem toNat_of_isRest {c : Char} (h : isRest c = true) :
    '0'.toNat ≤ c.toNat ∧ c.toNat ≤ 'z'.toNat := by
  simp only [isRest, Char.isAlphanum, Bool.or_eq_true, beq_iff_eq] at h
  rcases h with (halpha | hdigit) | rfl
  · rcases Bool.or_eq_true_iff.mp halpha with hupper | hlower
    · obtain ⟨hl, hu⟩ : 'A'.val ≤ c.val ∧ c.val ≤ 'Z'.val := of_decide_eq_true hupper
      exact ⟨Nat.le_trans (by decide) hl, Nat.le_trans hu (by decide)⟩
    · obtain ⟨hl, hu⟩ := Bool.and_eq_true_iff.mp hlower
      exact ⟨Nat.le_trans (by decide) (of_decide_eq_true hl), of_decide_eq_true hu⟩
  · obtain ⟨hl, hu⟩ := Bool.and_eq_true_iff.mp hdigit
    exact ⟨of_decide_eq_true hl, Nat.le_trans (of_decide_eq_true hu) (by decide)⟩
  · decide

theorem isBlank_eq_false {c : Char} (h : isRest c = true) : Text.isBlank c = false := by
  obtain ⟨hl, hu⟩ := toNat_of_isRest h
  refine List.any_eq_false.mpr fun r hr ↦ ?_
  have hrange : r.2 < '0'.toNat ∨ 'z'.toNat < r.1 := by
    revert r
    decide
  simp only [Bool.and_eq_true, decide_eq_true_eq]
  omega

end Name

/-! ## Sides of an assignment -/

namespace Instruction

open Text

/-- A nonempty text of asterisks and the characters of names. -/
structure Word (cs : List Char) : Prop where
  /-- It has a character. -/
  ne_nil : cs ≠ []
  /-- Each of its characters may stand in a name, or is an asterisk. -/
  chars : ∀ c ∈ cs, Name.isRest c = true ∨ c = '*'

theorem Word.of_isValid {x : String} (h : Name.isValid x = true) : Word x.toList :=
  ⟨Name.toList_ne_nil h, fun _ hc ↦ .inl (Name.isRest_of_mem h hc)⟩

theorem word_keyword : Word Name.keyword.toList := by
  have hrest : Name.keyword.toList.all Name.isRest = true := by decide
  exact ⟨by decide, fun c hc ↦ .inl (List.all_eq_true.mp hrest c hc)⟩

theorem Word.asterisk {cs : List Char} (h : Word cs) : Word ('*' :: cs) :=
  ⟨List.cons_ne_nil _ _, fun _ hc ↦ (List.mem_cons.mp hc).elim .inr (h.chars _)⟩

theorem Word.notMem {cs : List Char} (h : Word cs) {c : Char} (hrest : Name.isRest c = false)
    (hc : c ≠ '*') : c ∉ cs := by
  intro hmem
  rcases h.chars c hmem with h | h
  · rw [hrest] at h; cases h
  · exact hc h

theorem Word.bare {cs : List Char} (h : Word cs) : Bare cs := by
  refine bare_of_forall fun c hc ↦ ?_
  rcases h.chars c hc with h | rfl
  · exact Name.isBlank_eq_false h
  · decide

/-- The texts on the two sides of the equals sign of an instruction. -/
def sides : Instruction → List Char × List Char
  | .alloca name => (name.toList, Name.keyword.toList)
  | .move dst src => (dst.toList, src.toList)
  | .load dst reference => (dst.toList, '*' :: reference.toList)
  | .store reference src => ('*' :: reference.toList, src.toList)

theorem toList_render (i : Instruction) :
    i.render.toList = i.sides.1 ++ [' ', '=', ' '] ++ i.sides.2 := by
  cases i <;> simp [render, sides]

theorem word_sides {i : Instruction} (h : i.invalidName = none) :
    Word i.sides.1 ∧ Word i.sides.2 := by
  have hname := fun x hx ↦ Word.of_isValid (invalidName_eq_none_iff.mp h x hx)
  cases i with
  | alloca name => exact ⟨hname name (by simp [names]), word_keyword⟩
  | move dst src => exact ⟨hname dst (by simp [names]), hname src (by simp [names])⟩
  | load dst reference =>
    exact ⟨hname dst (by simp [names]), (hname reference (by simp [names])).asterisk⟩
  | store reference src =>
    exact ⟨(hname reference (by simp [names])).asterisk, hname src (by simp [names])⟩

theorem ofSides_load {lhs : List Char} (h : lhs.head? ≠ some '*') (reference : List Char) :
    ofSides lhs ('*' :: reference) =
      some (checkedLoad (String.ofList lhs) (String.ofList (trim reference))) := by
  rw [ofSides]
  rintro _ rfl
  exact h rfl

theorem ofSides_store {rhs : List Char} (h : rhs.head? ≠ some '*') (reference : List Char) :
    ofSides ('*' :: reference) rhs =
      some (checkedStore (String.ofList (trim reference)) (String.ofList rhs)) := by
  rw [ofSides]
  rintro _ rfl
  exact h rfl

theorem ofSides_plain {lhs rhs : List Char} (hl : lhs.head? ≠ some '*')
    (hr : rhs.head? ≠ some '*') :
    ofSides lhs rhs =
      if rhs = Name.keyword.toList then some (checkedAlloca (String.ofList lhs))
      else some (checkedMove (String.ofList lhs) (String.ofList rhs)) := by
  rw [ofSides]
  · rintro _ rfl; exact hl rfl
  · rintro _ rfl; exact hr rfl
  · rintro _ _ rfl _; exact hl rfl

/-- **An instruction with valid names is the one that its sides make.** -/
theorem ofSides_sides {i : Instruction} (h : i.invalidName = none) :
    ofSides i.sides.1 i.sides.2 = some (.ok i) := by
  have hvalid := invalidName_eq_none_iff.mp h
  have hhead := fun x hx ↦ Name.head?_ne_asterisk (hvalid x hx)
  cases i with
  | alloca name =>
    have hkeyword : Name.keyword.toList.head? ≠ some '*' := by decide
    rw [sides, ofSides_plain (hhead name (by simp [names])) hkeyword, if_pos rfl,
      String.ofList_toList, (madeBy_checkedAlloca name).eq_ok h]
  | move dst src =>
    have hsrc : src.toList ≠ Name.keyword.toList := fun heq ↦
      Name.ne_keyword (hvalid src (by simp [names])) (String.toList_inj.mp heq)
    rw [sides, ofSides_plain (hhead dst (by simp [names])) (hhead src (by simp [names])),
      if_neg hsrc, String.ofList_toList, String.ofList_toList, (madeBy_checkedMove dst src).eq_ok h]
  | load dst reference =>
    have htrim := trim_of_bare (Word.of_isValid (hvalid reference (by simp [names]))).bare
    rw [sides, ofSides_load (hhead dst (by simp [names])), htrim, String.ofList_toList,
      String.ofList_toList, (madeBy_checkedLoad dst reference).eq_ok h]
  | store reference src =>
    have htrim := trim_of_bare (Word.of_isValid (hvalid reference (by simp [names]))).bare
    rw [sides, ofSides_store (hhead src (by simp [names])), htrim, String.ofList_toList,
      String.ofList_toList, (madeBy_checkedStore reference src).eq_ok h]

/-- What the cascade of tests on the two sides can end with.  Whichever instruction it is, it is
made with its names checked. -/
theorem ofSides_cases {lhs rhs : List Char} {made : Except Error Instruction}
    (h : ofSides lhs rhs = some made) :
    ∃ i : Instruction, i.MadeBy made ∧
      ((∃ rest, lhs = '*' :: rest ∧ i = .store (String.ofList (trim rest)) (String.ofList rhs)) ∨
        (∃ rest, rhs = '*' :: rest ∧ i = .load (String.ofList lhs) (String.ofList (trim rest))) ∨
        (rhs = Name.keyword.toList ∧ i = .alloca (String.ofList lhs)) ∨
        i = .move (String.ofList lhs) (String.ofList rhs)) := by
  rw [ofSides.eq_def] at h
  split at h
  · cases h
  · cases h
    exact ⟨_, madeBy_checkedStore .., .inl ⟨_, rfl, rfl⟩⟩
  · cases h
    exact ⟨_, madeBy_checkedLoad .., .inr (.inl ⟨_, rfl, rfl⟩)⟩
  · split at h
    · next hkeyword =>
      cases h
      exact ⟨_, madeBy_checkedAlloca _, .inr (.inr (.inl ⟨hkeyword, rfl⟩))⟩
    · cases h
      exact ⟨_, madeBy_checkedMove .., .inr (.inr (.inr rfl))⟩

theorem invalidName_of_ofSides {lhs rhs : List Char} {i : Instruction}
    (h : ofSides lhs rhs = some (.ok i)) : i.invalidName = none := by
  obtain ⟨j, hmade, -⟩ := ofSides_cases h
  obtain ⟨rfl, hvalid⟩ := hmade.eq_ok_iff.mp rfl
  exact hvalid

/-! ## Reading a line -/

theorem splitAssignment_eq_some_iff {cs lhs rhs : List Char} :
    splitAssignment cs = some (lhs, rhs) ↔ cs = lhs ++ '=' :: rhs ∧ '=' ∉ lhs := by
  refine ⟨fun h ↦ ?_, ?_⟩
  · rw [splitAssignment] at h
    cases hdrop : cs.dropWhile (· != '=') with
    | nil => rw [hdrop] at h; cases h
    | cons c rest =>
      rw [hdrop] at h
      obtain ⟨rfl, rfl⟩ := Prod.mk.inj (Option.some.inj h)
      have hc : c = '=' := by
        have hhead := List.head?_dropWhile_not (· != '=') cs
        simpa [hdrop] using hhead
      refine ⟨?_, fun hmem ↦ ?_⟩
      · have hparts := (List.takeWhile_append_dropWhile (p := (· != '=')) (l := cs)).symm
        rwa [hdrop, hc] at hparts
      · simpa using List.mem_takeWhile_imp hmem
  · rintro ⟨rfl, hlhs⟩
    have hne : ∀ c ∈ lhs, (c != '=') = true := fun c hc ↦ by
      simpa using fun heq : c = '=' ↦ hlhs (heq ▸ hc)
    simp [splitAssignment, List.dropWhile_append_of_pos hne, List.takeWhile_append_of_pos hne]

/-- **A line holds an instruction exactly when its text is an assignment whose sides make that
instruction**, with one equals sign. -/
theorem ofLine_eq_ok_some_iff {number : Nat} {line : List Char} {i : Instruction} :
    ofLine number line = .ok (some i) ↔
      ∃ lhs rhs, trim (stripComment line) = lhs ++ '=' :: rhs ∧ '=' ∉ lhs ∧ '=' ∉ rhs ∧
        ofSides (trim lhs) (trim rhs) = some (.ok i) := by
  refine ⟨fun h ↦ ?_, ?_⟩
  · rw [ofLine] at h
    -- One split for each test; only the last branch of all ends with an instruction.
    split at h
    · cases h
    split at h
    · cases h
    next lhs rhs hsplit =>
    split at h
    · cases h
    next hrhs =>
    split at h
    · cases h
    next made hsides =>
    cases made with
    | error e => cases h
    | ok j =>
      cases h
      obtain ⟨htext, hlhs⟩ := splitAssignment_eq_some_iff.mp hsplit
      exact ⟨lhs, rhs, htext, hlhs, by simpa using hrhs, hsides⟩
  · rintro ⟨lhs, rhs, htext, hlhs, hrhs, hsides⟩
    have hsplit := splitAssignment_eq_some_iff.mpr ⟨htext, hlhs⟩
    rw [ofLine]
    split
    · next hnil => rw [hnil] at htext; simp at htext
    · rw [hsplit]
      simp [hrhs, hsides, Except.mapError]

/-- **A line fails with a fault of its own or not at all.**  The number of the line is reported with
the fault, and shows nowhere else. -/
theorem exists_ofLine_eq (line : List Char) :
    ∃ r : Except LineFault (Option Instruction),
      ∀ number, ofLine number line = r.mapError (.parse number) := by
  cases htext : trim (stripComment line) with
  | nil => exact ⟨.ok none, fun number ↦ by rw [ofLine, htext]; rfl⟩
  | cons c cs =>
    simp only [ofLine, htext]
    split
    · exact ⟨.error _, fun _ ↦ rfl⟩
    split
    · exact ⟨.error _, fun _ ↦ rfl⟩
    split
    · exact ⟨.error _, fun _ ↦ rfl⟩
    next hsides =>
    obtain ⟨i, ⟨rfl, -⟩ | ⟨name, rfl, -⟩, -⟩ := ofSides_cases hsides
    · exact ⟨.ok (some i), fun _ ↦ rfl⟩
    · exact ⟨.error (.invalidName name), fun _ ↦ rfl⟩

theorem notMem_render {i : Instruction} (h : i.invalidName = none) {c : Char}
    (hrest : Name.isRest c = false) (hc : c ∉ ['*', ' ', '=']) : c ∉ i.render.toList := by
  obtain ⟨hl, hr⟩ := word_sides h
  simp only [List.mem_cons, List.not_mem_nil, or_false, not_or] at hc
  simp [toList_render, hl.notMem hrest hc.1, hr.notMem hrest hc.1, hc.2.1, hc.2.2]

/-- **The line of an instruction with valid names holds that instruction.** -/
theorem ofLine_render {i : Instruction} (h : i.invalidName = none) (number : Nat) :
    ofLine number i.render.toList = .ok (some i) := by
  obtain ⟨hl, hr⟩ := word_sides h
  have hcomment : stripComment i.render.toList = i.render.toList := by
    have hhash : '#' ∉ i.render.toList := notMem_render h (by decide) (by decide)
    refine List.takeWhile_eq_self_iff.mpr fun c hc ↦ ?_
    simpa using fun heq : c = '#' ↦ hhash (heq ▸ hc)
  have hblank : ∀ c ∈ [' '], isBlank c = true := List.forall_mem_singleton.mpr (by decide)
  have hnone : ∀ c ∈ ([] : List Char), isBlank c = true := by simp
  have hlhs : trim (i.sides.1 ++ [' ']) = i.sides.1 := trim_append hl.bare hnone hblank
  have hrhs : trim (' ' :: i.sides.2) = i.sides.2 := by
    simpa using trim_append hr.bare hblank hnone
  refine ofLine_eq_ok_some_iff.mpr ⟨i.sides.1 ++ [' '], ' ' :: i.sides.2, ?_, ?_, ?_, ?_⟩
  · rw [hcomment, toList_render, trim_of_bare (hl.bare.append hr.bare hl.ne_nil hr.ne_nil _)]
    simp
  · simpa using hl.notMem (by decide) (by decide)
  · simpa using hr.notMem (by decide) (by decide)
  · rw [hlhs, hrhs, ofSides_sides h]

end Instruction

/-! ## Reading a program -/

namespace Program

/-- Lines with an instruction each are read to those instructions. -/
theorem parseLines_map_render {is : List Instruction} (h : ∀ i ∈ is, i.invalidName = none)
    (number : Nat) : parseLines number (is.map (·.render.toList)) = .ok is := by
  induction is generalizing number with
  | nil => rfl
  | cons i is ih =>
    rw [List.forall_mem_cons] at h
    rw [List.map_cons, parseLines, Instruction.ofLine_render h.1, ih h.2]
    rfl

/-- Every instruction that is read stands on one of the lines. -/
theorem ofLine_of_mem_parseLines {number : Nat} {ls : List (List Char)} {is : List Instruction}
    (h : parseLines number ls = .ok is) {i : Instruction} (hi : i ∈ is) :
    ∃ line ∈ ls, ∃ k, Instruction.ofLine k line = .ok (some i) := by
  induction ls generalizing is number with
  | nil =>
    cases h
    cases hi
  | cons line ls ih =>
    rw [parseLines] at h
    split at h
    · cases h
    · obtain ⟨l, hl, hline⟩ := ih h hi
      exact ⟨l, List.mem_cons_of_mem _ hl, hline⟩
    · next j hj =>
      cases hrest : parseLines (number + 1) ls with
      | error e => rw [hrest] at h; cases h
      | ok js =>
        rw [hrest] at h
        cases h
        rcases List.mem_cons.mp hi with rfl | hi
        · exact ⟨line, List.mem_cons_self, number, hj⟩
        · obtain ⟨l, hl, hline⟩ := ih hrest hi
          exact ⟨l, List.mem_cons_of_mem _ hl, hline⟩

/-- **A program is read with valid names only.** -/
theorem invalidName_of_mem_parse {text : String} {p : Program} (h : parse text = .ok p)
    {i : Instruction} (hi : i ∈ p.instructions) : i.invalidName = none := by
  rw [parse] at h
  cases hlines : parseLines 1 (Text.lines text.toList) with
  | error e => rw [hlines] at h; cases h
  | ok is =>
    rw [hlines] at h
    cases h
    obtain ⟨line, -, k, hline⟩ := ofLine_of_mem_parseLines hlines hi
    obtain ⟨_, _, -, -, -, hsides⟩ := Instruction.ofLine_eq_ok_some_iff.mp hline
    exact Instruction.invalidName_of_ofSides hsides

theorem toList_render_cons (i : Instruction) (is : List Instruction) :
    (render ⟨i :: is⟩).toList = i.render.toList ++ '\n' :: (render ⟨is⟩).toList := by
  simp [render, String.toList_join]

/-- The lines of a program with valid names are its instructions, one on each. -/
theorem lines_render {is : List Instruction} (h : ∀ i ∈ is, i.invalidName = none) :
    Text.lines (render ⟨is⟩).toList = is.map (·.render.toList) := by
  induction is with
  | nil => rfl
  | cons i is ih =>
    rw [List.forall_mem_cons] at h
    rw [toList_render_cons, List.map_cons, ← ih h.2]
    exact Text.lines_append_newline (Instruction.notMem_render h.1 (by decide) (by decide))
      (Instruction.notMem_render h.1 (by decide) (by decide)) _

/-- A program with valid names is read back from its text. -/
theorem parse_render {p : Program} (h : ∀ i ∈ p.instructions, i.invalidName = none) :
    parse p.render = .ok p := by
  rw [parse, lines_render h, parseLines_map_render h]
  rfl

theorem forM_validate (is : List Instruction) :
    is.forM Instruction.validate =
      match is.findSome? Instruction.invalidName with
      | some name => .error (.invalidName name)
      | none => .ok () := by
  induction is with
  | nil => rfl
  | cons i is ih =>
    rw [List.forM, ih, List.findSome?_cons, Instruction.validate]
    cases i.invalidName with
    | none => rfl
    | some name => rfl

/-- **Instructions make a program unless one has an invalid name**, and the first such name is
reported. -/
theorem ofInstructions_eq (is : List Instruction) :
    ofInstructions is =
      match is.findSome? Instruction.invalidName with
      | some name => .error (.invalidName name)
      | none => .ok ⟨is⟩ := by
  rw [ofInstructions, forM_validate]
  cases is.findSome? Instruction.invalidName with
  | none => rfl
  | some name => rfl

theorem exists_ofInstructions_iff {is : List Instruction} :
    (∃ p, ofInstructions is = .ok p) ↔ ∀ i ∈ is, i.invalidName = none := by
  rw [ofInstructions_eq, ← List.findSome?_eq_none_iff]
  cases is.findSome? Instruction.invalidName with
  | none => simp
  | some name => simp

/-- **A program is read back from its text exactly when its names are valid**, which is also when
its instructions make a program.  So what has been read once is read back. -/
theorem parse_render_iff (p : Program) :
    (parse p.render = .ok p ↔ ∀ i ∈ p.instructions, i.validate = .ok ()) ∧
      ((∃ q, ofInstructions p.instructions = .ok q) ↔
        ∀ i ∈ p.instructions, i.validate = .ok ()) ∧
      ∀ text q, parse text = .ok q → parse q.render = .ok q := by
  simp only [Instruction.validate_eq_ok_iff, ← Instruction.invalidName_eq_none_iff]
  refine ⟨⟨fun h i hi ↦ ?_, parse_render⟩, exists_ofInstructions_iff, fun text q h ↦ ?_⟩
  · exact invalidName_of_mem_parse h hi
  · exact parse_render fun i hi ↦ invalidName_of_mem_parse h hi

-- A name with an asterisk in front is written, and read as something else.
example : parse (render ⟨[.move "x" "*y"]⟩) = .ok ⟨[.load "x" "y"]⟩ := by decide

end Program

end PointsTo
