import PointsTo.Proofs.ProgramText

/-!
# The grammar of a line

`Instruction.ofLine` cuts a line into pieces by a cascade of tests.  What it accepts can be said
without them: before its comment a line is blank, or it is the tokens of one instruction with valid
names, with blanks allowed before, between and after them, and nothing else,
`Instruction.parseLine_eq_iff_spaced`.

The relation `Spaced` is the grammar.  It is met on each side of the equals sign by trimming.  Names
are `Bare`, so `trim` finds a name wherever `Spaced` puts blanks around it, and it finds the name
behind an asterisk in two steps, `Text.spaced_asterisk_iff`.  That no test is taken too early is
again a matter of what names are: they hold no equals sign, start with no asterisk and are not the
keyword.
-/

set_option autoImplicit false

namespace PointsTo

namespace Text

/-! ## The parts that trimming leaves and removes -/

theorem head?_trimLeft (cs : List Char) : ∀ c ∈ (trimLeft cs).head?, isBlank c = false := by
  intro c hc
  have hhead := List.head?_dropWhile_not isBlank cs
  rw [Option.mem_def, trimLeft] at hc
  simpa [hc] using hhead

theorem exists_eq_append_trimLeft (cs : List Char) :
    ∃ ws, (∀ c ∈ ws, isBlank c = true) ∧ cs = ws ++ trimLeft cs :=
  ⟨cs.takeWhile isBlank, fun _ ↦ List.mem_takeWhile_imp, List.takeWhile_append_dropWhile.symm⟩

theorem getLast?_trimRight (cs : List Char) : ∀ c ∈ (trimRight cs).getLast?, isBlank c = false := by
  intro c hc
  rw [trimRight, List.getLast?_reverse] at hc
  exact head?_trimLeft cs.reverse c hc

theorem exists_eq_trimRight_append (cs : List Char) :
    ∃ vs, (∀ c ∈ vs, isBlank c = true) ∧ cs = trimRight cs ++ vs := by
  obtain ⟨ws, hws, heq⟩ := exists_eq_append_trimLeft cs.reverse
  refine ⟨ws.reverse, fun c hc ↦ hws c (List.mem_reverse.mp hc), ?_⟩
  rw [trimRight, ← List.reverse_append, ← trimLeft, ← heq, List.reverse_reverse]

/-- Around a character that is not blank, only the outer ends of the two parts matter. -/
theorem bare_append_cons {l r : List Char} {c : Char} (hl : ∀ d ∈ l.head?, isBlank d = false)
    (hc : isBlank c = false) (hr : ∀ d ∈ r.getLast?, isBlank d = false) : Bare (l ++ c :: r) := by
  refine ⟨fun d hd ↦ ?_, fun d hd ↦ ?_⟩
  · cases l with
    | nil => cases hd; exact hc
    | cons e l => exact hl d hd
  · rw [List.getLast?_append, List.getLast?_cons, Option.some_or, Option.mem_some_iff] at hd
    cases hlast : r.getLast? with
    | none => rw [hlast] at hd; exact hd ▸ hc
    | some e => rw [hlast] at hd; exact hd ▸ hr e hlast

theorem exists_eq_append_trim (cs : List Char) :
    ∃ ws vs, (∀ c ∈ ws, isBlank c = true) ∧ (∀ c ∈ vs, isBlank c = true) ∧
      cs = ws ++ trim cs ++ vs := by
  obtain ⟨ws, hws, hleft⟩ := exists_eq_append_trimLeft cs
  obtain ⟨vs, hvs, hright⟩ := exists_eq_trimRight_append (trimLeft cs)
  exact ⟨ws, vs, hws, hvs, by rw [trim, List.append_assoc, ← hright, ← hleft]⟩

/-- **Trimming finds the bare text that stands between blanks.** -/
theorem trim_eq_iff {cs t : List Char} (ht : Bare t) :
    trim cs = t ↔ ∃ ws vs, (∀ c ∈ ws, isBlank c = true) ∧ (∀ c ∈ vs, isBlank c = true) ∧
      cs = ws ++ t ++ vs := by
  refine ⟨?_, ?_⟩
  · rintro rfl
    exact exists_eq_append_trim cs
  · rintro ⟨ws, vs, hws, hvs, rfl⟩
    exact trim_append ht hws hvs

theorem trim_eq_nil_iff {cs : List Char} : trim cs = [] ↔ ∀ c ∈ cs, isBlank c = true := by
  rw [trim_eq_iff (bare_of_forall (by simp))]
  refine ⟨?_, fun h ↦ ⟨cs, [], h, by simp, by simp⟩⟩
  rintro ⟨ws, vs, hws, hvs, rfl⟩ c hc
  rw [List.append_nil, List.mem_append] at hc
  exact hc.elim (hws c) (hvs c)

theorem bare_trim (cs : List Char) : Bare (trim cs) := by
  refine ⟨fun c hc ↦ head?_trimLeft cs c ?_, getLast?_trimRight (trimLeft cs)⟩
  obtain ⟨vs, -, hright⟩ := exists_eq_trimRight_append (trimLeft cs)
  have hne : trim cs ≠ [] := fun h ↦ by rw [h] at hc; cases hc
  rwa [hright, ← trim, List.head?_append_of_ne_nil _ hne]

/-- Blanks around a text count for nothing. -/
theorem trim_blanks {ws vs : List Char} (hws : ∀ c ∈ ws, isBlank c = true)
    (hvs : ∀ c ∈ vs, isBlank c = true) (cs : List Char) : trim (ws ++ cs ++ vs) = trim cs := by
  obtain ⟨ws', vs', hws', hvs', heq⟩ := exists_eq_append_trim cs
  refine (trim_eq_iff (bare_trim cs)).mpr ⟨ws ++ ws', vs' ++ vs, ?_, ?_, ?_⟩
  · exact fun c hc ↦ (List.mem_append.mp hc).elim (hws c) (hws' c)
  · exact fun c hc ↦ (List.mem_append.mp hc).elim (hvs' c) (hvs c)
  · calc ws ++ cs ++ vs
        = ws ++ (ws' ++ trim cs ++ vs') ++ vs := by rw [← heq]
      _ = ws ++ ws' ++ trim cs ++ (vs' ++ vs) := by simp only [List.append_assoc]

theorem trim_append_blanks {vs : List Char} (hvs : ∀ c ∈ vs, isBlank c = true) (cs : List Char) :
    trim (cs ++ vs) = trim cs := by
  have hnone : ∀ c ∈ ([] : List Char), isBlank c = true := by simp
  exact trim_blanks hnone hvs cs

theorem trim_blanks_append {ws : List Char} (hws : ∀ c ∈ ws, isBlank c = true) (cs : List Char) :
    trim (ws ++ cs) = trim cs := by
  have hnone : ∀ c ∈ ([] : List Char), isBlank c = true := by simp
  simpa using trim_blanks hws hnone cs

theorem trim_trimLeft (cs : List Char) : trim (trimLeft cs) = trim cs := by
  obtain ⟨ws, hws, heq⟩ := exists_eq_append_trimLeft cs
  rw [← trim_blanks_append hws, ← heq]

theorem trim_trimRight (cs : List Char) : trim (trimRight cs) = trim cs := by
  obtain ⟨vs, hvs, heq⟩ := exists_eq_trimRight_append cs
  rw [← trim_append_blanks hvs, ← heq]

/-! ## Tokens between blanks -/

/-- The text is these tokens in order, with blanks before, between and after them. -/
inductive Spaced : List String → List Char → Prop
  /-- Blanks alone, where no token is left. -/
  | blanks {ws : List Char} (hws : ∀ c ∈ ws, isBlank c = true) : Spaced [] ws
  /-- Blanks, a token, and the tokens after it. -/
  | token {ws rest : List Char} {t : String} {ts : List String}
      (hws : ∀ c ∈ ws, isBlank c = true) (hrest : Spaced ts rest) :
      Spaced (t :: ts) (ws ++ t.toList ++ rest)

theorem spaced_nil_iff {cs : List Char} : Spaced [] cs ↔ ∀ c ∈ cs, isBlank c = true :=
  ⟨fun h ↦ by cases h; assumption, .blanks⟩

theorem spaced_cons_iff {t : String} {ts : List String} {cs : List Char} :
    Spaced (t :: ts) cs ↔ ∃ ws rest, (∀ c ∈ ws, isBlank c = true) ∧ Spaced ts rest ∧
      cs = ws ++ t.toList ++ rest := by
  refine ⟨fun h ↦ ?_, ?_⟩
  · cases h with
    | token hws hrest => exact ⟨_, _, hws, hrest, rfl⟩
  · rintro ⟨ws, rest, hws, hrest, rfl⟩
    exact .token hws hrest

/-- Tokens around an equals sign are those on its left and those on its right. -/
theorem spaced_assignment_iff {ts us : List String} {cs : List Char} :
    Spaced (ts ++ "=" :: us) cs ↔
      ∃ lhs rhs, cs = lhs ++ '=' :: rhs ∧ Spaced ts lhs ∧ Spaced us rhs := by
  induction ts generalizing cs with
  | nil =>
    rw [List.nil_append, spaced_cons_iff]
    simp only [spaced_nil_iff]
    refine ⟨?_, ?_⟩
    · rintro ⟨ws, rest, hws, hrest, rfl⟩
      exact ⟨ws, rest, by simp, hws, hrest⟩
    · rintro ⟨ws, rest, rfl, hws, hrest⟩
      exact ⟨ws, rest, hws, hrest, by simp⟩
  | cons t ts ih =>
    rw [List.cons_append, spaced_cons_iff]
    refine ⟨?_, ?_⟩
    · rintro ⟨ws, rest, hws, hrest, rfl⟩
      obtain ⟨lhs, rhs, rfl, hlhs, hrhs⟩ := ih.mp hrest
      exact ⟨ws ++ t.toList ++ lhs, rhs, by simp, .token hws hlhs, hrhs⟩
    · rintro ⟨lhs, rhs, rfl, hlhs, hrhs⟩
      obtain ⟨ws, rest, hws, hrest, rfl⟩ := spaced_cons_iff.mp hlhs
      exact ⟨ws, rest ++ '=' :: rhs, hws, ih.mpr ⟨rest, rhs, rfl, hrest, hrhs⟩, by simp⟩

theorem Spaced.notMem {ts : List String} {cs : List Char} (h : Spaced ts cs) {c : Char}
    (hc : isBlank c = false) (hts : ∀ t ∈ ts, c ∉ t.toList) : c ∉ cs := by
  induction h with
  | blanks hws =>
    intro hmem
    rw [hws c hmem] at hc
    cases hc
  | token hws _ ih =>
    rw [List.forall_mem_cons] at hts
    rw [List.mem_append, List.mem_append, not_or, not_or]
    refine ⟨⟨fun hmem ↦ ?_, hts.1⟩, ih hts.2⟩
    rw [hws c hmem] at hc
    cases hc

/-- One token is found by trimming. -/
theorem spaced_singleton_iff {t : String} (ht : Bare t.toList) {cs : List Char} :
    Spaced [t] cs ↔ trim cs = t.toList := by
  rw [spaced_cons_iff, trim_eq_iff ht]
  simp only [spaced_nil_iff]

/-- A token behind an asterisk is found by trimming on both sides of the asterisk. -/
theorem spaced_asterisk_iff {t : String} (ht : Bare t.toList) {cs : List Char} :
    Spaced ["*", t] cs ↔ ∃ rest, trim cs = '*' :: rest ∧ trim rest = t.toList := by
  rw [spaced_cons_iff]
  simp only [spaced_singleton_iff ht]
  refine ⟨?_, ?_⟩
  · rintro ⟨ws, rest, hws, hrest, rfl⟩
    obtain ⟨vs, hvs, hright⟩ := exists_eq_trimRight_append rest
    have hbare : Bare ('*' :: trimRight rest) :=
      bare_append_cons (l := []) (by simp) (by decide) (getLast?_trimRight rest)
    refine ⟨trimRight rest, (trim_eq_iff hbare).mpr ⟨ws, vs, hws, hvs, ?_⟩, ?_⟩
    · calc ws ++ "*".toList ++ rest
          = ws ++ "*".toList ++ (trimRight rest ++ vs) := by rw [← hright]
        _ = ws ++ '*' :: trimRight rest ++ vs := by simp
    · rw [trim_trimRight, hrest]
  · rintro ⟨rest, htrim, hrest⟩
    obtain ⟨ws, vs, hws, hvs, heq⟩ := exists_eq_append_trim cs
    refine ⟨ws, rest ++ vs, hws, ?_, ?_⟩
    · rw [trim_append_blanks hvs, hrest]
    · rw [heq, htrim]
      simp

end Text

namespace Instruction

open Text

/-! ## The tokens of an instruction -/

/-- The tokens on the two sides of the equals sign. -/
def sideTokens : Instruction → List String × List String
  | .alloca name => ([name], [Name.keyword])
  | .move dst src => ([dst], [src])
  | .load dst reference => ([dst], ["*", reference])
  | .store reference src => (["*", reference], [src])

/-- The tokens of an instruction. -/
def tokens (i : Instruction) : List String := i.sideTokens.1 ++ "=" :: i.sideTokens.2

theorem word_asterisk : Word "*".toList := by
  have hchars : "*".toList = ['*'] := by simp
  rw [hchars]
  exact ⟨by simp, by simp⟩

theorem word_sideTokens {i : Instruction} (h : i.invalidName = none) :
    ∀ t ∈ i.sideTokens.1 ++ i.sideTokens.2, Word t.toList := by
  have hname := fun x hx ↦ Word.of_isValid (invalidName_eq_none_iff.mp h x hx)
  cases i with
  | alloca name => simpa [sideTokens] using ⟨hname name (by simp [names]), word_keyword⟩
  | move dst src =>
    simpa [sideTokens] using ⟨hname dst (by simp [names]), hname src (by simp [names])⟩
  | load dst reference =>
    simpa [sideTokens] using
      ⟨hname dst (by simp [names]), word_asterisk, hname reference (by simp [names])⟩
  | store reference src =>
    simpa [sideTokens] using
      ⟨word_asterisk, hname reference (by simp [names]), hname src (by simp [names])⟩

theorem spaced_sideTokens_of_ofSides {i : Instruction} {lhs rhs : List Char}
    (h : ofSides (trim lhs) (trim rhs) = some (.ok i)) :
    Spaced i.sideTokens.1 lhs ∧ Spaced i.sideTokens.2 rhs := by
  obtain ⟨j, hmade, hcases⟩ := ofSides_cases h
  obtain ⟨rfl, hvalid⟩ := hmade.eq_ok_iff.mp rfl
  have hbare := fun t ht ↦ (word_sideTokens hvalid t ht).bare
  obtain ⟨rest, hl, rfl⟩ | ⟨rest, hr, rfl⟩ | ⟨hr, rfl⟩ | rfl := hcases
  all_goals simp only [sideTokens, List.forall_mem_append, List.forall_mem_cons] at hbare ⊢
  · exact ⟨(spaced_asterisk_iff hbare.1.2.1).mpr ⟨rest, hl, by simp⟩,
      (spaced_singleton_iff hbare.2.1).mpr (by simp)⟩
  · exact ⟨(spaced_singleton_iff hbare.1.1).mpr (by simp),
      (spaced_asterisk_iff hbare.2.2.1).mpr ⟨rest, hr, by simp⟩⟩
  · exact ⟨(spaced_singleton_iff hbare.1.1).mpr (by simp), (spaced_singleton_iff hbare.2.1).mpr hr⟩
  · exact ⟨(spaced_singleton_iff hbare.1.1).mpr (by simp),
      (spaced_singleton_iff hbare.2.1).mpr (by simp)⟩

theorem ofSides_of_spaced_sideTokens {i : Instruction} (h : i.invalidName = none)
    {lhs rhs : List Char} (hlhs : Spaced i.sideTokens.1 lhs) (hrhs : Spaced i.sideTokens.2 rhs) :
    ofSides (trim lhs) (trim rhs) = some (.ok i) := by
  have hbare := fun t ht ↦ (word_sideTokens h t ht).bare
  have hhead := fun x hx ↦ Name.head?_ne_asterisk (invalidName_eq_none_iff.mp h x hx)
  have hsides := ofSides_sides h
  cases i with
  | alloca name =>
    rwa [(spaced_singleton_iff (hbare name (by simp [sideTokens]))).mp hlhs,
      (spaced_singleton_iff (hbare Name.keyword (by simp [sideTokens]))).mp hrhs]
  | move dst src =>
    rwa [(spaced_singleton_iff (hbare dst (by simp [sideTokens]))).mp hlhs,
      (spaced_singleton_iff (hbare src (by simp [sideTokens]))).mp hrhs]
  | load dst reference =>
    obtain ⟨rest, hr, hrest⟩ :=
      (spaced_asterisk_iff (hbare reference (by simp [sideTokens]))).mp hrhs
    rw [(spaced_singleton_iff (hbare dst (by simp [sideTokens]))).mp hlhs, hr,
      ofSides_load (hhead dst (by simp [names])), hrest, String.ofList_toList,
      String.ofList_toList, (madeBy_checkedLoad dst reference).eq_ok h]
  | store reference src =>
    obtain ⟨rest, hl, hrest⟩ :=
      (spaced_asterisk_iff (hbare reference (by simp [sideTokens]))).mp hlhs
    rw [(spaced_singleton_iff (hbare src (by simp [sideTokens]))).mp hrhs, hl,
      ofSides_store (hhead src (by simp [names])), hrest, String.ofList_toList,
      String.ofList_toList, (madeBy_checkedStore reference src).eq_ok h]

/-! ## The grammar -/

theorem trim_assignment (lhs rhs : List Char) :
    trim (lhs ++ '=' :: rhs) = trimLeft lhs ++ '=' :: trimRight rhs := by
  obtain ⟨ws, hws, hleft⟩ := exists_eq_append_trimLeft lhs
  obtain ⟨vs, hvs, hright⟩ := exists_eq_trimRight_append rhs
  have hbare : Bare (trimLeft lhs ++ '=' :: trimRight rhs) :=
    bare_append_cons (head?_trimLeft lhs) (by decide) (getLast?_trimRight rhs)
  refine (trim_eq_iff hbare).mpr ⟨ws, vs, hws, hvs, ?_⟩
  calc lhs ++ '=' :: rhs
      = (ws ++ trimLeft lhs) ++ '=' :: (trimRight rhs ++ vs) := by rw [← hleft, ← hright]
    _ = ws ++ (trimLeft lhs ++ '=' :: trimRight rhs) ++ vs := by simp

/-- A line holds an instruction exactly when the instruction has valid names and its tokens are what
stands before the comment. -/
theorem ofLine_eq_ok_some_iff_spaced {number : Nat} {line : List Char} {i : Instruction} :
    ofLine number line = .ok (some i) ↔
      i.invalidName = none ∧ Spaced i.tokens (stripComment line) := by
  rw [ofLine_eq_ok_some_iff, tokens, spaced_assignment_iff]
  refine ⟨?_, ?_⟩
  · rintro ⟨lhs, rhs, htext, -, -, hsides⟩
    obtain ⟨ws, vs, hws, hvs, heq⟩ := exists_eq_append_trim (stripComment line)
    rw [← trim_blanks_append hws, ← trim_append_blanks hvs rhs] at hsides
    refine ⟨invalidName_of_ofSides hsides, ws ++ lhs, rhs ++ vs, ?_,
      spaced_sideTokens_of_ofSides hsides⟩
    rw [heq, htext]
    simp
  · rintro ⟨hvalid, lhs, rhs, heq, hlhs, hrhs⟩
    obtain ⟨ws, -, hleft⟩ := exists_eq_append_trimLeft lhs
    obtain ⟨vs, -, hright⟩ := exists_eq_trimRight_append rhs
    have hword := List.forall_mem_append.mp (word_sideTokens hvalid)
    have hequals : '=' ∉ lhs ∧ '=' ∉ rhs :=
      ⟨hlhs.notMem (by decide) fun t ht ↦ (hword.1 t ht).notMem (by decide) (by decide),
        hrhs.notMem (by decide) fun t ht ↦ (hword.2 t ht).notMem (by decide) (by decide)⟩
    have hsides := ofSides_of_spaced_sideTokens hvalid hlhs hrhs
    refine ⟨trimLeft lhs, trimRight rhs, by rw [heq, trim_assignment], ?_, ?_, ?_⟩
    · exact fun hmem ↦ hequals.1 (hleft ▸ List.mem_append_right ws hmem)
    · exact fun hmem ↦ hequals.2 (hright ▸ List.mem_append_left vs hmem)
    · rwa [trim_trimLeft, trim_trimRight]

/-- A line holds no instruction exactly when it is blank up to its comment. -/
theorem ofLine_eq_ok_none_iff_spaced {number : Nat} {line : List Char} :
    ofLine number line = .ok none ↔ Spaced [] (stripComment line) := by
  rw [spaced_nil_iff, ← trim_eq_nil_iff, ofLine]
  cases trim (stripComment line) with
  | nil => simp
  | cons c cs =>
    refine ⟨fun h ↦ ?_, fun h ↦ by cases h⟩
    -- Whatever the tests on an assignment end with, it is a fault or an instruction.
    dsimp only at h
    split at h
    · cases h
    split at h
    · cases h
    split at h
    · cases h
    next made _ => cases made <;> cases h

theorem exists_comment (line : List Char) :
    '#' ∉ stripComment line ∧
      (line = stripComment line ∨ ∃ comment, line = stripComment line ++ '#' :: comment) := by
  have hparts := (List.takeWhile_append_dropWhile (p := (· != '#')) (l := line)).symm
  refine ⟨fun hmem ↦ by simpa using List.mem_takeWhile_imp hmem, ?_⟩
  cases hdrop : line.dropWhile (· != '#') with
  | nil =>
    rw [hdrop, List.append_nil] at hparts
    exact .inl hparts
  | cons c comment =>
    have hc : c = '#' := by
      have hhead := List.head?_dropWhile_not (· != '#') line
      simpa [hdrop] using hhead
    rw [hdrop, hc] at hparts
    exact .inr ⟨comment, hparts⟩

/-- **A line is read by its grammar.**  Before its comment, a line without an instruction is blank,
and one with an instruction is the tokens of that instruction, set apart by blanks as one likes.
Every other line has a fault, which is reported with the number of the line. -/
theorem parseLine_eq_iff_spaced (number : Nat) (line : String) :
    ∃ code : List Char, '#' ∉ code ∧
      (line.toList = code ∨ ∃ comment, line.toList = code ++ '#' :: comment) ∧
      (parseLine number line = .ok none ↔ Spaced [] code) ∧
      (∀ x, parseLine number line = .ok (some (.alloca x)) ↔
        Name.isValid x = true ∧ Spaced [x, "=", "alloca"] code) ∧
      (∀ x y, parseLine number line = .ok (some (.move x y)) ↔
        (Name.isValid x = true ∧ Name.isValid y = true) ∧ Spaced [x, "=", y] code) ∧
      (∀ x y, parseLine number line = .ok (some (.load x y)) ↔
        (Name.isValid x = true ∧ Name.isValid y = true) ∧ Spaced [x, "=", "*", y] code) ∧
      (∀ x y, parseLine number line = .ok (some (.store x y)) ↔
        (Name.isValid x = true ∧ Name.isValid y = true) ∧ Spaced ["*", x, "=", y] code) ∧
      ((∃ r, parseLine number line = .ok r) ∨
        ∃ fault, parseLine number line = .error (.parse number fault)) := by
  obtain ⟨hhash, hcomment⟩ := exists_comment line.toList
  have hread (i : Instruction) : parseLine number line = .ok (some i) ↔
      (∀ x ∈ i.names, Name.isValid x = true) ∧ Spaced i.tokens (stripComment line.toList) := by
    rw [parseLine, ofLine_eq_ok_some_iff_spaced, invalidName_eq_none_iff]
  have hblank : parseLine number line = .ok none ↔ Spaced [] (stripComment line.toList) :=
    ofLine_eq_ok_none_iff_spaced
  refine ⟨stripComment line.toList, hhash, hcomment, hblank, fun x ↦ ?_, fun x y ↦ ?_,
    fun x y ↦ ?_, fun x y ↦ ?_, ?_⟩
  · simpa [names, tokens, sideTokens, Name.keyword] using hread (.alloca x)
  · simpa [names, tokens, sideTokens] using hread (.move x y)
  · simpa [names, tokens, sideTokens] using hread (.load x y)
  · simpa [names, tokens, sideTokens] using hread (.store x y)
  · obtain ⟨r, hr⟩ := exists_ofLine_eq line.toList
    rw [parseLine, hr]
    cases r with
    | error fault => exact .inr ⟨fault, rfl⟩
    | ok r => exact .inl ⟨r, rfl⟩

-- Blanks of any kind, and a comment that itself looks like an instruction.
example : parseLine 7 "\t* p0\u3000=p1 # p0 = alloca" = .ok (some (.store "p0" "p1")) := by decide

end Instruction

end PointsTo
