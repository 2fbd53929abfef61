import PointsTo.Json.Reader
import PointsTo.Json.Writer

/-!
# JSON is read as it is written

`Json.write` writes a value by recursion, and `State.read` moves a state token by token.  What the
library writes are `Plain` values: texts, natural numbers, and arrays and records of such.  A plain
value comes back from its text, in every layout that adds nothing but blanks, `Json.parse_write`.

The invariant is about one value inside a larger text, `Json.ReadsBack`.  A state that awaits a
value with some containers open has, after the text of that value, the same containers open and the
value complete, whatever follows.  Only a number cares for what follows, since a digit more would
belong to it: hence `Follows`.  Items and members are taken in by induction on their list, and
values by induction on `Plain`.
-/

set_option autoImplicit false

namespace PointsTo.Json

/-! ## Literals -/

theorem hexDigit_digitChar {d : Nat} (h : d < 16) : hexDigit (Nat.digitChar d) = some d := by
  revert d
  decide

theorem code_hex4 {n : Nat} (h : n < 0x10000) :
    code (Nat.digitChar (n / 4096 % 16)) (Nat.digitChar (n / 256 % 16))
      (Nat.digitChar (n / 16 % 16)) (Nat.digitChar (n % 16)) = some n := by
  have hsum : n / 4096 % 16 * 4096 + n / 256 % 16 * 256 + n / 16 % 16 * 16 + n % 16 = n := by omega
  simp [code, hexDigit_digitChar, Nat.mod_lt, hsum]

/-- The piece of a literal that denotes a character. -/
def Piece.ofChar (c : Char) : Piece := if needsEscape c then .escape c else .plain c

theorem ofString_eq_map (s : String) : Literal.ofString s = s.toList.map .ofChar := rfl

theorem scanLiteral_plain {c : Char} (h : needsEscape c = false) (cs : List Char) :
    scanLiteral (c :: cs) = (scanLiteral cs).map fun r ↦ (.plain c :: r.1, r.2) := by
  have hquote : c ≠ '"' := by
    rintro rfl
    revert h
    decide
  have hbackslash : c ≠ '\\' := by
    rintro rfl
    revert h
    decide
  rw [scanLiteral, if_neg (by simp [h])]
  · cases scanLiteral cs <;> rfl
  · exact hquote
  · exact fun _ _ _ _ _ hc _ ↦ hbackslash hc
  · exact fun _ _ hc _ ↦ hbackslash hc

theorem scanLiteral_code {n : Nat} (h : n < 0x10000) (cs : List Char) :
    scanLiteral ('\\' :: 'u' :: (hex4 n ++ cs)) =
      (scanLiteral cs).map fun r ↦ (.ofCode n :: r.1, r.2) := by
  rw [hex4]
  simp only [List.cons_append, List.nil_append]
  rw [scanLiteral, code_hex4 h]
  cases scanLiteral cs <;> rfl

theorem ofCode_toNat {c : Char} (h : c.toNat < 0x20) : Piece.ofCode c.toNat = .escape c := by
  have hhalf : (isLead c.toNat || isTrail c.toNat) = false := by
    simp only [isLead, isTrail, Bool.or_eq_false_iff, Bool.and_eq_false_iff,
      decide_eq_false_iff_not]
    omega
  rw [Piece.ofCode, hhalf, Char.ofNat_toNat]
  rfl

theorem scanLiteral_letter {e c : Char} (he : e ≠ 'u') (h : ofEscape e = some c) (cs : List Char) :
    scanLiteral ('\\' :: e :: cs) = (scanLiteral cs).map fun r ↦ (.escape c :: r.1, r.2) := by
  rw [scanLiteral, h]
  · cases scanLiteral cs <;> rfl
  · exact fun _ _ _ _ _ hu _ ↦ he hu

/-- A character is escaped by a letter that stands for it, or else by its code. -/
theorem escaped_cases (c : Char) :
    (∃ e, e ≠ 'u' ∧ ofEscape e = some c ∧ escaped c = ['\\', e]) ∨
      (c ≠ '"' ∧ c ≠ '\\' ∧ escaped c = '\\' :: 'u' :: hex4 c.toNat) := by
  rw [escaped]
  iterate 7
    split
    · next hc => exact .inl ⟨_, by decide, by rw [hc]; rfl, rfl⟩
  next hquote hbackslash _ _ _ _ _ => exact .inr ⟨hquote, hbackslash, rfl⟩

/-- **The escape that is written for a character is read as that character.** -/
theorem scanLiteral_escaped {c : Char} (h : needsEscape c = true) (cs : List Char) :
    scanLiteral (escaped c ++ cs) = (scanLiteral cs).map fun r ↦ (.escape c :: r.1, r.2) := by
  obtain ⟨e, he, hletter, heq⟩ | ⟨hquote, hbackslash, heq⟩ := escaped_cases c
  · rw [heq]
    exact scanLiteral_letter he hletter cs
  · have hcontrol : c.toNat < 0x20 := by simpa [needsEscape, hquote, hbackslash] using h
    rw [heq, ← ofCode_toNat hcontrol]
    exact scanLiteral_code (by omega) cs

theorem scanLiteral_write_ofChar (c : Char) (cs : List Char) :
    scanLiteral ((Piece.ofChar c).write ++ cs) =
      (scanLiteral cs).map fun r ↦ (.ofChar c :: r.1, r.2) := by
  rw [Piece.ofChar]
  cases h : needsEscape c with
  | true => exact scanLiteral_escaped h cs
  | false => exact scanLiteral_plain h cs

/-- **A literal is read up to its closing quote.** -/
theorem scanLiteral_write (s : String) (rest : List Char) :
    scanLiteral ((Literal.ofString s).flatMap Piece.write ++ '"' :: rest) =
      some (.ofString s, rest) := by
  rw [ofString_eq_map]
  induction s.toList with
  | nil => simp [scanLiteral]
  | cons c cs ih =>
    rw [List.map_cons, List.flatMap_cons, List.append_assoc, scanLiteral_write_ofChar, ih]
    rfl

/-! ## Numbers -/

/-- The text does not go on with anything that would belong to a number before it. -/
def Follows (rest : List Char) : Prop :=
  ∀ c ∈ rest.head?, c.isDigit = false ∧ c ≠ '.' ∧ c ≠ 'e' ∧ c ≠ 'E'

theorem follows_nil : Follows [] := nofun

theorem follows_cons {c : Char} (h : c.isDigit = false ∧ c ≠ '.' ∧ c ≠ 'e' ∧ c ≠ 'E')
    (rest : List Char) : Follows (c :: rest) := by
  intro d hd
  cases hd
  exact h

theorem follows_spaces {ws rest : List Char} (hws : ∀ c ∈ ws, isSpace c = true)
    (hrest : Follows rest) : Follows (ws ++ rest) := by
  cases ws with
  | nil => exact hrest
  | cons c ws =>
    intro d hd
    cases hd
    have hc := hws c List.mem_cons_self
    simp only [isSpace, Bool.or_eq_true, beq_iff_eq] at hc
    rcases hc with ((rfl | rfl) | rfl) | rfl <;> decide

theorem scanDigits_append {ds rest : List Char} (hne : ds ≠ []) (hds : ∀ c ∈ ds, c.isDigit = true)
    (hrest : Follows rest) : scanDigits (ds ++ rest) = some (ds, rest) := by
  have hstop : rest.takeWhile Char.isDigit = [] ∧ rest.dropWhile Char.isDigit = rest := by
    cases rest with
    | nil => exact ⟨rfl, rfl⟩
    | cons c rest =>
      have hc := (hrest c rfl).1
      exact ⟨List.takeWhile_cons_of_neg (by simp [hc]), List.dropWhile_cons_of_neg (by simp [hc])⟩
  rw [scanDigits, List.takeWhile_append_of_pos hds, List.dropWhile_append_of_pos hds, hstop.1,
    hstop.2, List.append_nil]
  cases ds with
  | nil => exact absurd rfl hne
  | cons d ds => rfl

/-- No number but zero is written with a zero in front. -/
theorem eq_zero_of_head?_toDigits {n : Nat} (h : (Nat.toDigits 10 n).head? = some '0') : n = 0 := by
  induction n using Nat.strongRecOn with
  | ind n ih =>
    by_cases hlt : n < 10
    · rw [Nat.toDigits_of_lt_base hlt] at h
      exact Nat.digitChar_eq_zero.mp (Option.some.inj h)
    · rw [Nat.toDigits_of_base_le (by decide) (by omega), List.head?_append,
        List.head?_eq_some_head Nat.toDigits_ne_nil, Option.some_or,
        ← List.head?_eq_some_head Nat.toDigits_ne_nil] at h
      have := ih (n / 10) (by omega) h
      omega

theorem scanInteger_toDigits (n : Nat) {rest : List Char} (hrest : Follows rest) :
    scanInteger (Nat.toDigits 10 n ++ rest) = some (Nat.toDigits 10 n, rest) := by
  have hdigits : ∀ c ∈ Nat.toDigits 10 n, c.isDigit = true := fun c ↦
    Nat.isDigit_of_mem_toDigits (by decide) (by decide)
  rw [scanInteger, scanDigits_append Nat.toDigits_ne_nil hdigits hrest]
  split
  · next heq =>
    have hzero := (Prod.mk.inj (Option.some.inj heq)).1
    have hn : n = 0 := eq_zero_of_head?_toDigits (by rw [hzero]; rfl)
    rw [hn] at hzero
    cases hzero
  · rfl

theorem scanFraction_of_follows {rest : List Char} (h : Follows rest) :
    scanFraction rest = some ([], rest) := by
  rw [scanFraction]
  rintro cs rfl
  exact (h '.' rfl).2.1 rfl

theorem scanExponent_of_follows {rest : List Char} (h : Follows rest) :
    scanExponent rest = some ([], rest) := by
  cases rest with
  | nil => rfl
  | cons c rest =>
    obtain ⟨-, -, he, hE⟩ := h c rfl
    simp [scanExponent.eq_def, he, hE]

/-- A number starts with nothing but a digit. -/
theorem toDigits_append_ne {c : Char} (hc : c.isDigit = false) (n : Nat) (rest cs : List Char) :
    Nat.toDigits 10 n ++ rest ≠ c :: cs := by
  intro heq
  obtain ⟨d, ds, hds⟩ := List.exists_cons_of_ne_nil (Nat.toDigits_ne_nil (n := n) (b := 10))
  have hdigit : d.isDigit = true := Nat.isDigit_of_mem_toDigits (b := 10) (n := n) (by decide)
    (by decide) (hds ▸ List.mem_cons_self)
  rw [hds, List.cons_append, List.cons.injEq] at heq
  rw [heq.1, hc] at hdigit
  cases hdigit

/-- **A natural number is read back**, if no more of a number follows. -/
theorem scanNumber_toDigits (n : Nat) {rest : List Char} (hrest : Follows rest) :
    scanNumber (Nat.toDigits 10 n ++ rest) = some (.natural n, rest) := by
  rw [scanNumber, scanInteger_toDigits n hrest]
  · simp [scanFraction_of_follows hrest, scanExponent_of_follows hrest,
      Nat.ofDigitChars_ten_toDigits]
  · exact toDigits_append_ne (by decide) n rest

/-! ## Tokens -/

theorem nextToken_text (s : String) (rest : List Char) :
    nextToken ((Literal.ofString s).write.toList ++ rest) = some (.scalar (.text s), rest) := by
  have hwrite : (Literal.ofString s).write.toList ++ rest =
      '"' :: ((Literal.ofString s).flatMap Piece.write ++ '"' :: rest) := by
    simp [Literal.write]
  rw [hwrite, nextToken, scanScalar, scanLiteral_write]
  · rfl
  all_goals exact nofun

theorem nextToken_nat (n : Nat) {rest : List Char} (hrest : Follows rest) :
    nextToken ((Nat.repr n).toList ++ rest) = some (.scalar (.nat n), rest) := by
  rw [Nat.toList_repr, nextToken, scanScalar, scanNumber_toDigits n hrest]
  · rfl
  -- No mark, no quote and no word starts with a digit.
  all_goals exact fun _ ↦ toDigits_append_ne (by decide) n rest _

/-! ## Reading on -/

theorem read_spaces (st : State) {ws : List Char} (hws : ∀ c ∈ ws, isSpace c = true)
    (cs : List Char) : st.read (ws ++ cs) = st.read cs := by
  induction ws with
  | nil => rfl
  | cons c ws ih =>
    rw [List.forall_mem_cons] at hws
    rw [List.cons_append, State.read, if_pos hws.1, ih hws.2]

/-- No token starts with a blank. -/
theorem isSpace_of_nextToken {c : Char} {cs rest : List Char} {t : Token}
    (h : nextToken (c :: cs) = some (t, rest)) : isSpace c = false := by
  rw [Bool.eq_false_iff]
  intro hc
  simp only [isSpace, Bool.or_eq_true, beq_iff_eq] at hc
  rcases hc with ((rfl | rfl) | rfl) | rfl <;>
    simp [nextToken, scanScalar, scanNumber, scanInteger, scanDigits] at h

/-- One token is read in one step. -/
theorem read_token {st st' : State} {t : Token} {cs rest : List Char}
    (hnext : nextToken cs = some (t, rest)) (hstep : st.step t = some st') :
    st.read cs = st'.read rest := by
  cases cs with
  | nil => exact absurd (nextToken_length hnext) (Nat.not_lt_zero _)
  | cons c cs =>
    rw [State.read, if_neg (by simp [isSpace_of_nextToken hnext])]
    split
    · next hnone => rw [hnext] at hnone; cases hnone
    · next hsome =>
      rw [hnext] at hsome
      cases hsome
      rw [hstep]

/-- A layout that sets the parts of a value apart by nothing but blanks. -/
structure Layout.Blank (s : Layout) : Prop where
  /-- A new line is blank. -/
  line : ∀ depth, ∀ c ∈ (s.line depth).toList, isSpace c = true
  /-- Behind the colon there are blanks only. -/
  colon : ∃ ws, (∀ c ∈ ws, isSpace c = true) ∧ s.colon.toList = ':' :: ws

theorem blank_indented : Layout.indented.Blank := by
  refine ⟨fun depth c hc ↦ ?_, [' '], List.forall_mem_singleton.mpr (by decide), rfl⟩
  simp only [Layout.indented, String.toList_append, String.toList_ofList, List.mem_append,
    List.mem_replicate] at hc
  rcases hc with hc | ⟨-, rfl⟩
  · cases List.mem_singleton.mp hc
    decide
  · decide

theorem blank_compact : Layout.compact.Blank := by
  refine ⟨fun depth c hc ↦ ?_, [], by simp, rfl⟩
  cases hc

/-! ## A value inside a text -/

/-- Any value may come next, and will be complete with these containers open. -/
def State.Awaits (st : State) (stack : List Frame) : Prop :=
  ∀ t, t ≠ .closeArray → st.step t = begin stack t

theorem awaits_value (stack : List Frame) : State.Awaits ⟨stack, .value⟩ stack := fun _ _ ↦ rfl

theorem awaits_arrayStart (stack : List Frame) :
    State.Awaits ⟨stack, .arrayStart⟩ (.array [] :: stack) := by
  intro t ht
  cases t with
  | closeArray => exact absurd rfl ht
  | _ => rfl

/-- Any key may come next, after these members. -/
def State.AwaitsKey (st : State) (stack : List Frame) (ms : List (Literal × Json)) : Prop :=
  ∀ k, st.step (.scalar (.string k)) = some ⟨stack, .colon ms k⟩

/-- Wherever a value is awaited, it is complete after its text. -/
def ReadsBack (s : Layout) (v : Json) : Prop :=
  ∀ (depth : Nat) (st : State) (stack : List Frame) (rest : List Char),
    st.Awaits stack → Follows rest →
      st.read ((v.write s depth).toList ++ rest) = State.read ⟨stack, .done v⟩ rest

theorem readsBack_text (s : Layout) (t : String) : ReadsBack s (.text t) := by
  intro depth st stack rest hst _
  rw [text, write]
  exact read_token (nextToken_text t rest) (hst _ nofun)

theorem readsBack_nat (s : Layout) (n : Nat) : ReadsBack s (.nat n) := by
  intro depth st stack rest hst hrest
  rw [nat, write, Number.write]
  exact read_token (nextToken_nat n hrest) (hst _ nofun)

/-! ## Arrays and records -/

theorem toList_writeItems_cons (s : Layout) (depth : Nat) (v : Json) (vs : List Json) :
    (writeItems s depth (v :: vs)).toList =
      ',' :: ((s.line depth).toList ++ ((v.write s depth).toList ++
        (writeItems s depth vs).toList)) := by
  simp [writeItems]

theorem toList_writeMembers_cons (s : Layout) (depth : Nat) (k : Literal) (v : Json)
    (ms : List (Literal × Json)) :
    (writeMembers s depth ((k, v) :: ms)).toList =
      ',' :: ((s.line depth).toList ++ (k.write.toList ++ (s.colon.toList ++
        ((v.write s depth).toList ++ (writeMembers s depth ms).toList)))) := by
  simp [writeMembers]

theorem follows_writeItems (s : Layout) (depth : Nat) (vs : List Json) {rest : List Char}
    (hrest : Follows rest) : Follows ((writeItems s depth vs).toList ++ rest) := by
  cases vs with
  | nil => simpa [writeItems] using hrest
  | cons v vs =>
    rw [toList_writeItems_cons]
    exact follows_cons (by decide) _

theorem follows_writeMembers (s : Layout) (depth : Nat) (ms : List (Literal × Json))
    {rest : List Char} (hrest : Follows rest) :
    Follows ((writeMembers s depth ms).toList ++ rest) := by
  cases ms with
  | nil => simpa [writeMembers] using hrest
  | cons m ms =>
    rw [toList_writeMembers_cons]
    exact follows_cons (by decide) _

theorem toList_write_array (s : Layout) (depth : Nat) (v : Json) (vs : List Json) :
    ((Json.array (v :: vs)).write s depth).toList =
      '[' :: ((s.line (depth + 1)).toList ++ ((v.write s (depth + 1)).toList ++
        ((writeItems s (depth + 1) vs).toList ++ ((s.line depth).toList ++ [']'])))) := by
  simp [write]

theorem toList_write_object (s : Layout) (depth : Nat) (k : Literal) (v : Json)
    (ms : List (Literal × Json)) :
    ((Json.object ((k, v) :: ms)).write s depth).toList =
      '\x7b' :: ((s.line (depth + 1)).toList ++ (k.write.toList ++ (s.colon.toList ++
        ((v.write s (depth + 1)).toList ++ ((writeMembers s (depth + 1) ms).toList ++
          ((s.line depth).toList ++ ['\x7d'])))))) := by
  simp [write]

section Containers

variable {s : Layout} (hs : s.Blank)

include hs

/-- **The items of an array are read one by one** and end up in their order. -/
theorem read_writeItems {vs : List Json} (hvs : ∀ v ∈ vs, ReadsBack s v) {ws : List Char}
    (hws : ∀ c ∈ ws, isSpace c = true) (depth : Nat) (stack : List Frame) (acc : List Json)
    (v : Json) (rest : List Char) :
    State.read ⟨.array acc :: stack, .done v⟩
        ((writeItems s depth vs).toList ++ (ws ++ ']' :: rest)) =
      State.read ⟨stack, .done (.array (acc.reverse ++ v :: vs))⟩ rest := by
  have hend : Follows (ws ++ ']' :: rest) := follows_spaces hws (follows_cons (by decide) rest)
  induction vs generalizing acc v with
  | nil =>
    rw [writeItems, String.toList_empty, List.nil_append, read_spaces _ hws, read_token rfl rfl,
      List.reverse_cons]
  | cons w vs ih =>
    rw [List.forall_mem_cons] at hvs
    rw [toList_writeItems_cons, List.cons_append, read_token rfl rfl, List.append_assoc,
      read_spaces _ (hs.line depth), List.append_assoc,
      hvs.1 depth _ _ _ (awaits_value _) (follows_writeItems s depth vs hend), ih hvs.2]
    simp

/-- A key, a colon and a value are read as one member. -/
theorem read_member {st : State} {stack : List Frame} {ms : List (Literal × Json)}
    (hst : st.AwaitsKey stack ms) (k : String) {v : Json} (hv : ReadsBack s v) (depth : Nat)
    {rest : List Char} (hrest : Follows rest) :
    st.read ((Literal.ofString k).write.toList ++ (s.colon.toList ++
        ((v.write s depth).toList ++ rest))) =
      State.read ⟨.object ms (.ofString k) :: stack, .done v⟩ rest := by
  obtain ⟨ws, hws, hcolon⟩ := hs.colon
  rw [read_token (nextToken_text k _) (hst _), hcolon, List.cons_append, read_token rfl rfl,
    read_spaces _ hws, hv depth _ _ _ (awaits_value _) hrest]

/-- **The members of an object are read one by one** and end up in their order. -/
theorem read_writeMembers {fs : List (String × Json)} (hfs : ∀ f ∈ fs, ReadsBack s f.2)
    {ws : List Char} (hws : ∀ c ∈ ws, isSpace c = true) (depth : Nat) (stack : List Frame)
    (ms : List (Literal × Json)) (k : Literal) (v : Json) (rest : List Char) :
    State.read ⟨.object ms k :: stack, .done v⟩
        ((writeMembers s depth (fs.map fun f ↦ (.ofString f.1, f.2))).toList ++
          (ws ++ '\x7d' :: rest)) =
      State.read
        ⟨stack, .done (.object (ms.reverse ++ (k, v) :: fs.map fun f ↦ (.ofString f.1, f.2)))⟩
        rest := by
  have hend : Follows (ws ++ '\x7d' :: rest) := follows_spaces hws (follows_cons (by decide) rest)
  induction fs generalizing ms k v with
  | nil =>
    rw [List.map_nil, writeMembers, String.toList_empty, List.nil_append, read_spaces _ hws,
      read_token rfl rfl, List.reverse_cons]
  | cons f fs ih =>
    rw [List.forall_mem_cons] at hfs
    rw [List.map_cons, toList_writeMembers_cons, List.cons_append, read_token rfl rfl,
      List.append_assoc, read_spaces _ (hs.line depth)]
    simp only [List.append_assoc]
    rw [read_member hs (fun _ ↦ rfl) f.1 hfs.1 depth (follows_writeMembers s depth _ hend),
      ih hfs.2]
    simp

theorem readsBack_array {items : List Json} (h : ∀ v ∈ items, ReadsBack s v) :
    ReadsBack s (.array items) := by
  intro depth st stack rest hst _
  have hopen : st.step .openArray = some ⟨stack, .arrayStart⟩ := hst _ nofun
  cases items with
  | nil =>
    have htext : ((Json.array []).write s depth).toList = ['[', ']'] := by simp [write]
    rw [htext, List.cons_append, read_token rfl hopen, List.cons_append, read_token rfl rfl,
      List.nil_append]
  | cons v vs =>
    rw [List.forall_mem_cons] at h
    have hend : Follows ((s.line depth).toList ++ ']' :: rest) :=
      follows_spaces (hs.line depth) (follows_cons (by decide) rest)
    rw [toList_write_array, List.cons_append, read_token rfl hopen]
    simp only [List.append_assoc, List.cons_append, List.nil_append]
    rw [read_spaces _ (hs.line _),
      h.1 _ _ _ _ (awaits_arrayStart stack) (follows_writeItems s _ vs hend),
      read_writeItems hs h.2 (hs.line depth), List.reverse_nil, List.nil_append]

theorem readsBack_record {fields : List (String × Json)} (h : ∀ f ∈ fields, ReadsBack s f.2) :
    ReadsBack s (.record fields) := by
  intro depth st stack rest hst _
  have hopen : st.step .openObject = some ⟨stack, .objectStart⟩ := hst _ nofun
  cases fields with
  | nil =>
    have htext : ((Json.record []).write s depth).toList = ['\x7b', '\x7d'] := by
      simp [record, write]
    rw [htext, List.cons_append, read_token rfl hopen, List.cons_append, read_token rfl rfl,
      List.nil_append]
    rfl
  | cons f fs =>
    rw [List.forall_mem_cons] at h
    have hend : Follows ((s.line depth).toList ++ '\x7d' :: rest) :=
      follows_spaces (hs.line depth) (follows_cons (by decide) rest)
    rw [record, List.map_cons, toList_write_object, List.cons_append, read_token rfl hopen]
    simp only [List.append_assoc, List.cons_append, List.nil_append]
    rw [read_spaces _ (hs.line _),
      read_member hs (fun _ ↦ rfl) f.1 h.1 _ (follows_writeMembers s _ _ hend),
      read_writeMembers hs h.2 (hs.line depth), List.reverse_nil, List.nil_append]

end Containers

/-! ## What the library writes -/

/-- Texts, natural numbers, and arrays and records of such values. -/
inductive Plain : Json → Prop
  /-- A text. -/
  | text (s : String) : Plain (.text s)
  /-- A natural number. -/
  | nat (n : Nat) : Plain (.nat n)
  /-- An array. -/
  | array {items : List Json} (h : ∀ v ∈ items, Plain v) : Plain (.array items)
  /-- A record. -/
  | record {fields : List (String × Json)} (h : ∀ f ∈ fields, Plain f.2) : Plain (.record fields)

theorem Plain.tagged (tag : String) {v : Json} (h : Plain v) : Plain (.tagged tag v) := by
  refine .record fun f hf ↦ ?_
  rw [List.mem_singleton.mp hf]
  exact h

theorem readsBack_of_plain {s : Layout} (hs : s.Blank) {v : Json} (h : Plain v) :
    ReadsBack s v := by
  induction h with
  | text t => exact readsBack_text s t
  | nat n => exact readsBack_nat s n
  | array _ ih => exact readsBack_array hs ih
  | record _ ih => exact readsBack_record hs ih

/-- **A plain value is read back from its text**, in whatever blank layout it is written. -/
theorem parse_write {s : Layout} (hs : s.Blank) {v : Json} (h : Plain v) :
    parse (v.write s 0) = some v := by
  have hread := readsBack_of_plain hs h 0 .start [] [] (awaits_value []) follows_nil
  rw [List.append_nil] at hread
  rw [parse, hread, State.read]

end PointsTo.Json
