import PointsTo.Json.Basic

/-!
# Reading JSON

The text is cut into tokens from left to right, and each token moves the state of the reader one
step.  The state is what a recursive reader would keep on its call stack: the containers that are
still open, innermost first, and what may come next.  Kept as data, it costs no stack however deeply
a text is nested, and reading is a loop that gets shorter with every token.

The grammar is strict: blanks are space, tab, line feed and carriage return, there are no comments
and no trailing commas, and nothing but blanks may follow the value.
-/

set_option autoImplicit false

namespace PointsTo.Json

/-! ## Tokens -/

/-- A token: a mark of the grammar, or a value that holds no other. -/
inductive Token where
  /-- The opening mark of an array. -/
  | openArray
  /-- The closing mark of an array. -/
  | closeArray
  /-- The opening mark of an object. -/
  | openObject
  /-- The closing mark of an object. -/
  | closeObject
  /-- The mark between two items or members. -/
  | comma
  /-- The mark between a key and its value. -/
  | colon
  /-- A whole value. -/
  | scalar (v : Json)

/-- The blanks between tokens. -/
def isSpace (c : Char) : Bool := c == ' ' || c == '\t' || c == '\n' || c == '\r'

/-- The value of a hexadecimal digit of either case. -/
def hexDigit (c : Char) : Option Nat :=
  if c.isDigit then some (c.toNat - '0'.toNat)
  else if 'a' ≤ c ∧ c ≤ 'f' then some (c.toNat - 'a'.toNat + 10)
  else if 'A' ≤ c ∧ c ≤ 'F' then some (c.toNat - 'A'.toNat + 10)
  else none

/-- The code that four hexadecimal digits denote. -/
def code (a b c d : Char) : Option Nat := do
  return (← hexDigit a) * 4096 + (← hexDigit b) * 256 + (← hexDigit c) * 16 + (← hexDigit d)

/-- What an escape by code denotes: a character, or half of a surrogate pair. -/
def Piece.ofCode (n : Nat) : Piece :=
  if isLead n || isTrail n then .half n else .escape (Char.ofNat n)

/-- The character that an escape by letter denotes. -/
def ofEscape (c : Char) : Option Char :=
  if c = '"' || c = '\\' || c = '/' then some c
  else if c = 'b' then some '\x08'
  else if c = 'f' then some '\x0c'
  else if c = 'n' then some '\n'
  else if c = 'r' then some '\r'
  else if c = 't' then some '\t'
  else none

/-- The pieces of a literal up to its closing quote, and what follows the quote. -/
def scanLiteral : List Char → Option (Literal × List Char)
  | [] => none
  | '"' :: rest => some ([], rest)
  | '\\' :: 'u' :: a :: b :: c :: d :: rest =>
    match code a b c d, scanLiteral rest with
    | some n, some (ps, rest) => some (.ofCode n :: ps, rest)
    | _, _ => none
  | '\\' :: e :: rest =>
    match ofEscape e, scanLiteral rest with
    | some c, some (ps, rest) => some (.escape c :: ps, rest)
    | _, _ => none
  | c :: rest =>
    if needsEscape c then none
    else
      match scanLiteral rest with
      | some (ps, rest) => some (.plain c :: ps, rest)
      | none => none

theorem scanLiteral_length {cs rest : List Char} {ps : Literal}
    (h : scanLiteral cs = some (ps, rest)) : rest.length < cs.length := by
  fun_induction scanLiteral cs generalizing ps rest with
  | case1 => simp at h
  | case2 => simp only [Option.some.injEq, Prod.mk.injEq] at h; simp [← h.2]
  | case3 a b c d tail n ps' rest' hs hn ih =>
    simp only [Option.some.injEq, Prod.mk.injEq] at h
    have := ih hs
    simp only [List.length_cons, ← h.2]; omega
  | case4 => simp at h
  | case5 e tail _ c ps' rest' hs hn ih =>
    simp only [Option.some.injEq, Prod.mk.injEq] at h
    have := ih hs
    simp only [List.length_cons, ← h.2]; omega
  | case6 => simp at h
  | case7 => simp at h
  | case8 c tail _ _ _ _ ps' rest' hs ih =>
    simp only [Option.some.injEq, Prod.mk.injEq] at h
    have := ih hs
    simp only [List.length_cons, ← h.2]; omega
  | case9 => simp at h

/-- The digits a text starts with, and what follows them; `none` if there are none. -/
def scanDigits (cs : List Char) : Option (List Char × List Char) :=
  match cs.takeWhile Char.isDigit with
  | [] => none
  | d :: ds => some (d :: ds, cs.dropWhile Char.isDigit)

theorem scanDigits_length {cs ds rest : List Char} (h : scanDigits cs = some (ds, rest)) :
    rest.length < cs.length := by
  have hl := congrArg List.length (List.takeWhile_append_dropWhile (p := Char.isDigit) (l := cs))
  rw [scanDigits] at h
  split at h
  · simp at h
  · next d ds' heq =>
    simp only [Option.some.injEq, Prod.mk.injEq] at h
    rw [heq, h.2] at hl
    simp only [List.cons_append, List.length_cons, List.length_append] at hl
    omega

/-- The integer part of a number: digits of which the first is zero only if it is the last. -/
def scanInteger (cs : List Char) : Option (List Char × List Char) :=
  match scanDigits cs with
  | some ('0' :: _ :: _, _) => none
  | r => r

theorem scanInteger_length {cs ds rest : List Char} (h : scanInteger cs = some (ds, rest)) :
    rest.length < cs.length := by
  rw [scanInteger] at h
  split at h
  · simp at h
  · exact scanDigits_length h

/-- The fraction of a number, empty if there is none. -/
def scanFraction : List Char → Option (List Char × List Char)
  | '.' :: cs => (scanDigits cs).map fun r ↦ ('.' :: r.1, r.2)
  | cs => some ([], cs)

theorem scanFraction_length {cs ds rest : List Char} (h : scanFraction cs = some (ds, rest)) :
    rest.length ≤ cs.length := by
  rw [scanFraction.eq_def] at h
  split at h
  · simp only [Option.map_eq_some_iff, Prod.mk.injEq] at h
    obtain ⟨r, hr, -, hrest⟩ := h
    have := scanDigits_length hr
    simp only [List.length_cons, ← hrest]; omega
  · simp only [Option.some.injEq, Prod.mk.injEq] at h
    simp [h.2]

/-- The exponent of a number, empty if there is none. -/
def scanExponent : List Char → Option (List Char × List Char)
  | e :: cs =>
    if e = 'e' || e = 'E' then
      match cs with
      | '+' :: cs => (scanDigits cs).map fun r ↦ (e :: '+' :: r.1, r.2)
      | '-' :: cs => (scanDigits cs).map fun r ↦ (e :: '-' :: r.1, r.2)
      | cs => (scanDigits cs).map fun r ↦ (e :: r.1, r.2)
    else some ([], e :: cs)
  | [] => some ([], [])

theorem scanExponent_length {cs ds rest : List Char} (h : scanExponent cs = some (ds, rest)) :
    rest.length ≤ cs.length := by
  rw [scanExponent.eq_def] at h
  split at h
  · split at h
    · split at h <;>
      · simp only [Option.map_eq_some_iff, Prod.mk.injEq] at h
        obtain ⟨r, hr, -, hrest⟩ := h
        have := scanDigits_length hr
        simp only [List.length_cons, ← hrest]; omega
    · simp only [Option.some.injEq, Prod.mk.injEq] at h
      simp [← h.2]
  · simp only [Option.some.injEq, Prod.mk.injEq] at h
    simp [← h.2]

/-- A number, and what follows it. -/
def scanNumber (cs : List Char) : Option (Number × List Char) := do
  let (sign, cs) := match cs with
    | '-' :: cs => (['-'], cs)
    | cs => ([], cs)
  let (int, cs) ← scanInteger cs
  let (frac, cs) ← scanFraction cs
  let (exp, cs) ← scanExponent cs
  match sign, frac, exp with
  | [], [], [] => some (.natural (Nat.ofDigitChars 10 int 0), cs)
  | _, _, _ => some (.other (String.ofList (sign ++ int ++ frac ++ exp)), cs)

theorem scanNumber_length {cs rest : List Char} {n : Number}
    (h : scanNumber cs = some (n, rest)) : rest.length < cs.length := by
  simp only [scanNumber, Option.bind_eq_bind, Option.bind_eq_some_iff, Prod.exists] at h
  obtain ⟨int, cs₁, hi, frac, cs₂, hf, exp, cs₃, he, h⟩ := h
  have h₁ := scanInteger_length hi
  have h₂ := scanFraction_length hf
  have h₃ := scanExponent_length he
  have h₀ : (match cs with | '-' :: cs => (['-'], cs) | cs => ([], cs)).2.length ≤ cs.length := by
    split <;> simp
  have h₄ : rest = cs₃ := by
    split at h <;> simp_all
  rw [h₄]; omega

/-- A value that holds no other, and what follows it. -/
def scanScalar : List Char → Option (Json × List Char)
  | '"' :: cs => (scanLiteral cs).map fun r ↦ (.string r.1, r.2)
  | 't' :: 'r' :: 'u' :: 'e' :: cs => some (.bool true, cs)
  | 'f' :: 'a' :: 'l' :: 's' :: 'e' :: cs => some (.bool false, cs)
  | 'n' :: 'u' :: 'l' :: 'l' :: cs => some (.null, cs)
  | cs => (scanNumber cs).map fun r ↦ (.number r.1, r.2)

theorem scanScalar_length {cs rest : List Char} {v : Json}
    (h : scanScalar cs = some (v, rest)) : rest.length < cs.length := by
  rw [scanScalar.eq_def] at h
  split at h
  · simp only [Option.map_eq_some_iff, Prod.mk.injEq] at h
    obtain ⟨r, hr, -, hrest⟩ := h
    have := scanLiteral_length hr
    simp only [List.length_cons, ← hrest]; omega
  all_goals try
    simp only [Option.some.injEq, Prod.mk.injEq] at h
    simp only [List.length_cons, ← h.2]; omega
  simp only [Option.map_eq_some_iff, Prod.mk.injEq] at h
  obtain ⟨r, hr, -, hrest⟩ := h
  exact hrest ▸ scanNumber_length hr

/-- The token a text starts with, and what follows it. -/
def nextToken : List Char → Option (Token × List Char)
  | '[' :: cs => some (.openArray, cs)
  | ']' :: cs => some (.closeArray, cs)
  | '\x7b' :: cs => some (.openObject, cs)
  | '\x7d' :: cs => some (.closeObject, cs)
  | ',' :: cs => some (.comma, cs)
  | ':' :: cs => some (.colon, cs)
  | cs => (scanScalar cs).map fun r ↦ (.scalar r.1, r.2)

/-- **A token is never empty**, so reading ends. -/
theorem nextToken_length {cs rest : List Char} {t : Token}
    (h : nextToken cs = some (t, rest)) : rest.length < cs.length := by
  rw [nextToken.eq_def] at h
  split at h
  all_goals try
    simp only [Option.some.injEq, Prod.mk.injEq] at h
    simp only [List.length_cons, ← h.2]; omega
  simp only [Option.map_eq_some_iff, Prod.mk.injEq] at h
  obtain ⟨r, hr, -, hrest⟩ := h
  exact hrest ▸ scanScalar_length hr

/-! ## The state of the reader -/

/-- A container that waits for a value, with what it holds so far, last first. -/
inductive Frame where
  /-- An array. -/
  | array (items : List Json)
  /-- An object, and the key whose value is awaited. -/
  | object (members : List (Literal × Json)) (key : Literal)

/-- What the reader looks at next. -/
inductive Phase where
  /-- A value has to follow. -/
  | value
  /-- An array was opened: its first item follows, or its end. -/
  | arrayStart
  /-- An object was opened: its first key follows, or its end. -/
  | objectStart
  /-- A further key of an object with these members has to follow. -/
  | key (members : List (Literal × Json))
  /-- The colon after a key has to follow. -/
  | colon (members : List (Literal × Json)) (key : Literal)
  /-- A value is complete. -/
  | done (v : Json)

/-- The containers still open, innermost first, and what comes next. -/
structure State where
  /-- The open containers. -/
  stack : List Frame
  /-- What comes next. -/
  phase : Phase

/-- The state before a text. -/
def State.start : State := ⟨[], .value⟩

/-- The state after the first token of a value. -/
def State.begin (stack : List Frame) : Token → Option State
  | .openArray => some ⟨stack, .arrayStart⟩
  | .openObject => some ⟨stack, .objectStart⟩
  | .scalar v => some ⟨stack, .done v⟩
  | _ => none

/-- The state after one more token. -/
def State.step : State → Token → Option State
  | ⟨stack, .value⟩, t => begin stack t
  | ⟨stack, .arrayStart⟩, .closeArray => some ⟨stack, .done (.array [])⟩
  | ⟨stack, .arrayStart⟩, t => begin (.array [] :: stack) t
  | ⟨stack, .objectStart⟩, .closeObject => some ⟨stack, .done (.object [])⟩
  | ⟨stack, .objectStart⟩, .scalar (.string k) => some ⟨stack, .colon [] k⟩
  | ⟨stack, .key ms⟩, .scalar (.string k) => some ⟨stack, .colon ms k⟩
  | ⟨stack, .colon ms k⟩, .colon => some ⟨.object ms k :: stack, .value⟩
  | ⟨.array vs :: stack, .done v⟩, .comma => some ⟨.array (v :: vs) :: stack, .value⟩
  | ⟨.array vs :: stack, .done v⟩, .closeArray =>
    some ⟨stack, .done (.array (v :: vs).reverse)⟩
  | ⟨.object ms k :: stack, .done v⟩, .comma => some ⟨stack, .key ((k, v) :: ms)⟩
  | ⟨.object ms k :: stack, .done v⟩, .closeObject =>
    some ⟨stack, .done (.object ((k, v) :: ms).reverse)⟩
  | _, _ => none

/-- The state after a text. -/
def State.read (st : State) : List Char → Option State
  | [] => some st
  | c :: cs =>
    if isSpace c then st.read cs
    else
      match _h : nextToken (c :: cs) with
      | none => none
      | some (t, rest) =>
        match st.step t with
        | none => none
        | some st => st.read rest
termination_by cs => cs.length
decreasing_by
  · simp
  · exact nextToken_length _h

/-- The value that a text spells, if it spells one. -/
def parse (text : String) : Option Json :=
  match State.start.read text.toList with
  | some ⟨[], .done v⟩ => some v
  | _ => none

end PointsTo.Json
