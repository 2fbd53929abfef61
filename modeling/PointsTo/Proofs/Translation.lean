import Mathlib.Data.Set.Function
import Mathlib.Order.Interval.Set.Defs
import PointsTo.Proofs.Comparison
import PointsTo.Proofs.Entries

/-!
# Programs that say as much as others

A program can be taken to another one by renaming its variables and renumbering its locations.  If
the other program then has all its instructions (`Translates`), every derivation carries over, and
so does every entry: derivations look at neither the order of the instructions nor at anything else
in the program.  This one induction, `Derives.relabel`, compares whole runs without following them.

Two results about the analysis come from it here.

* **The order of the instructions only numbers the locations.**  Programs with the same moves, loads
  and stores, in any order, and with the same allocations up to their order, translate to each other
  and back.
* **More instructions, more facts.**  A program translates to every extension of it that leaves the
  numbers of its locations alone.  The extension has the same facts exactly if the instructions that
  it adds say nothing new.
-/

set_option autoImplicit false

namespace PointsTo

open Std (ExtTreeSet)

/-! ## Names and numbers -/

/-- The location with another number. -/
def Location.renumber (f : Nat → Nat) (l : Location) : Location := ⟨f l.index⟩

/-- The same locations with other numbers. -/
def PointsToSet.renumber (f : Nat → Nat) (a : PointsToSet) : PointsToSet :=
  ExtTreeSet.ofList (a.toList.map (Location.renumber f))

/-- A variable by another name, or a location with another number. -/
def Storage.relabel (r : String → String) (f : Nat → Nat) : Storage → Storage
  | .var name => .var (r name)
  | .loc l => .loc (l.renumber f)

/-- The instruction with other names. -/
def Instruction.rename (r : String → String) : Instruction → Instruction
  | .alloca name => .alloca (r name)
  | .move dst src => .move (r dst) (r src)
  | .load dst reference => .load (r dst) (r reference)
  | .store reference src => .store (r reference) (r src)

theorem PointsToSet.mem_renumber {f : Nat → Nat} {a : PointsToSet} {l : Location} :
    l ∈ a.renumber f ↔ ∃ k, k ∈ a ∧ k.renumber f = l := by
  rw [renumber, ExtTreeSet.mem_ofList, List.contains_iff_mem, List.mem_map]
  simp only [ExtTreeSet.mem_toList]

@[simp] theorem Location.renumber_id (l : Location) : l.renumber id = l := rfl

@[simp] theorem Storage.relabel_id (s : Storage) : s.relabel id id = s := by
  cases s <;> rfl

@[simp] theorem Instruction.rename_id (i : Instruction) : i.rename id = i := by
  cases i <;> rfl

/-! ## Translations -/

/-- Under other names for variables and other numbers for locations, the second program has all the
instructions of the first. -/
structure Translates (r : String → String) (f : Nat → Nat) (is js : List Instruction) : Prop where
  /-- Each allocation is there, at its new place. -/
  alloca : ∀ i name, (allocations is)[i]? = some name → (allocations js)[f i]? = some (r name)
  /-- Each other instruction is there, at any place. -/
  other : ∀ i ∈ is, i.isAlloca = false → i.rename r ∈ js

section Translates

variable {r : String → String} {f : Nat → Nat} {is js : List Instruction}

/-- **Derivations carry over.** -/
theorem Derives.relabel (h : Translates r f is js) {s : Storage} {l : Location}
    (hd : Derives is s l) : Derives js (s.relabel r f) (l.renumber f) := by
  induction hd with
  | alloca hi => exact .alloca (h.alloca _ _ hi)
  | move hi _ ih => exact .move (h.other _ hi rfl) ih
  | load hi _ _ ihk ihl => exact .load (h.other _ hi rfl) ihk ihl
  | store hi _ _ ihk ihl => exact .store (h.other _ hi rfl) ihk ihl

/-- **Entries carry over.** -/
theorem HasEntry.relabel (h : Translates r f is js) {s : Storage} (hs : HasEntry is s) :
    HasEntry js (s.relabel r f) := by
  cases hs with
  | @alloca name hi =>
    obtain ⟨i, hi⟩ := exists_getElem?_of_alloca_mem hi
    exact .alloca (alloca_mem_of_getElem? (h.alloca i name hi))
  | location hl =>
    have hi := h.alloca _ _ (List.getElem?_eq_getElem hl)
    exact .location (List.getElem?_eq_some_iff.mp hi).1
  | moveDst hi => exact .moveDst (h.other _ hi rfl)
  | moveSrc hi => exact .moveSrc (h.other _ hi rfl)
  | storeReference hi => exact .storeReference (h.other _ hi rfl)
  | loadReference hi => exact .loadReference (h.other _ hi rfl)
  | storeSrc hi hk => exact .storeSrc (h.other _ hi rfl) (hk.relabel h)
  | loadDst hi hk => exact .loadDst (h.other _ hi rfl) (hk.relabel h)

end Translates

/-! ## Another order -/

/-- The two programs differ in the order and repetition of instructions only, where `f` and `g` take
the numbers of locations forth and back. -/
structure Renumbers (f g : Nat → Nat) (is js : List Instruction) : Prop where
  /-- The first program translates to the second. -/
  forth : Translates id f is js
  /-- The second program translates to the first. -/
  back : Translates id g js is
  /-- Forth and back is where one was. -/
  left : ∀ i < (allocations is).length, g (f i) = i
  /-- Back and forth as well. -/
  right : ∀ i < (allocations js).length, f (g i) = i

namespace Renumbers

variable {f g : Nat → Nat} {is js : List Instruction}

/-- A bijection between the allocations that keeps their names. -/
theorem of_bijOn (hallocs : (allocations js).length = (allocations is).length)
    (hf : Set.BijOn f (Set.Iio (allocations is).length) (Set.Iio (allocations is).length))
    (hnames : ∀ i < (allocations is).length, (allocations js)[f i]? = (allocations is)[i]?)
    (hforth : ∀ i ∈ is, i.isAlloca = false → i ∈ js)
    (hback : ∀ i ∈ js, i.isAlloca = false → i ∈ is) :
    Renumbers f (Function.invFunOn f (Set.Iio (allocations is).length)) is js := by
  have hinv := hf.invOn_invFunOn
  have hmaps := hf.surjOn.mapsTo_invFunOn
  refine ⟨⟨?_, ?_⟩, ⟨?_, ?_⟩, fun i hi ↦ hinv.1 hi, fun i hi ↦ hinv.2 (hallocs ▸ hi)⟩
  · intro i name hi
    rw [hnames i (List.getElem?_eq_some_iff.mp hi).1, hi]
    rfl
  · simpa using hforth
  · intro j name hj
    have hlt := (List.getElem?_eq_some_iff.mp hj).1
    rw [hallocs] at hlt
    rw [← hnames _ (hmaps hlt), hinv.2 hlt, hj]
    rfl
  · simpa using hback

/-- With the same allocations in the same order, all numbers stay. -/
theorem of_allocations_eq (hallocs : allocations is = allocations js)
    (hforth : ∀ i ∈ is, i.isAlloca = false → i ∈ js)
    (hback : ∀ i ∈ js, i.isAlloca = false → i ∈ is) : Renumbers id id is js where
  forth := ⟨fun _ _ hi ↦ hallocs ▸ hi, by simpa using hforth⟩
  back := ⟨fun _ _ hi ↦ hallocs ▸ hi, by simpa using hback⟩
  left _ _ := rfl
  right _ _ := rfl

/-- What storage points to in the second program is what it points to in the first, renumbered, if
its own number goes forth and back. -/
theorem derives_iff (h : Renumbers f g is js) {s : Storage} {l : Location}
    (hs : (s.relabel id f).relabel id g = s) :
    Derives js (s.relabel id f) l ↔ ∃ k, Derives is s k ∧ k.renumber f = l := by
  constructor
  · intro hd
    have hback := hd.relabel h.back
    rw [hs] at hback
    exact ⟨_, hback, congrArg Location.mk (h.right _ hd.location_lt)⟩
  · rintro ⟨k, hk, rfl⟩
    exact hk.relabel h.forth

theorem hasEntry_iff (h : Renumbers f g is js) {t : Storage} :
    HasEntry js t ↔ ∃ s, HasEntry is s ∧ s.relabel id f = t := by
  constructor
  · intro ht
    refine ⟨_, ht.relabel h.back, ?_⟩
    cases t with
    | var name => rfl
    | loc l => exact congrArg (Storage.loc ∘ Location.mk) (h.right _ ht.location_lt)
  · rintro ⟨s, hs, rfl⟩
    exact hs.relabel h.forth

end Renumbers

/-- **The order of the instructions only numbers the locations.**  Let two programs have the same
moves, loads and stores, however often and in whatever order, and as many allocations, where `f`
takes those of the one to those of the other with the same name.  Then `f` takes the result for the
one to the result for the other: the set of each variable, the set of each location, and the
entries.  If the allocations are the same in the same order, so is the result. -/
theorem Program.analyze_reorder (p q : Program) (f : Nat → Nat)
    (hforth : ∀ i ∈ p.instructions, i.isAlloca = false → i ∈ q.instructions)
    (hback : ∀ i ∈ q.instructions, i.isAlloca = false → i ∈ p.instructions)
    (hallocs : (allocations q.instructions).length = (allocations p.instructions).length)
    (hf : Set.BijOn f (Set.Iio (allocations p.instructions).length)
      (Set.Iio (allocations p.instructions).length))
    (hnames : ∀ i < (allocations p.instructions).length,
      (allocations q.instructions)[f i]? = (allocations p.instructions)[i]?) :
    ∃ e e', p.analyze = .ok e ∧ q.analyze = .ok e' ∧
      (∀ x, e'.pointsTo (.var x) = (e.pointsTo (.var x)).renumber f) ∧
      (∀ i < (allocations p.instructions).length,
        e'.pointsTo (.loc ⟨f i⟩) = (e.pointsTo (.loc ⟨i⟩)).renumber f) ∧
      (∀ t, t ∈ e' ↔ ∃ s, s ∈ e ∧ s.relabel id f = t) ∧
      (allocations p.instructions = allocations q.instructions → e = e') := by
  obtain ⟨e, hp, hfacts, hentries⟩ := p.exists_analyze
  obtain ⟨e', hq, hfacts', hentries'⟩ := q.exists_analyze
  have h := Renumbers.of_bijOn hallocs hf hnames hforth hback
  refine ⟨e, e', hp, hq, fun x ↦ ?_, fun i hi ↦ ?_, fun t ↦ ?_, fun heq ↦ ?_⟩
  · refine ExtTreeSet.ext_mem fun l ↦ ?_
    simp only [PointsToSet.mem_renumber, hfacts, hfacts']
    exact h.derives_iff (s := .var x) rfl
  · refine ExtTreeSet.ext_mem fun l ↦ ?_
    simp only [PointsToSet.mem_renumber, hfacts, hfacts']
    exact h.derives_iff (s := .loc ⟨i⟩) (congrArg (Storage.loc ∘ Location.mk) (h.left i hi))
  · simp only [hentries, hentries']
    exact h.hasEntry_iff
  · have hid := Renumbers.of_allocations_eq heq hforth hback
    refine Environment.eq_of_mem_iff_of_pointsTo_eq (fun t ↦ ?_) fun t ↦ ?_
    · rw [hentries, hentries', hid.hasEntry_iff]
      simp
    · refine ExtTreeSet.ext_mem fun l ↦ ?_
      have hd := hid.derives_iff (s := t) (l := l) (by simp)
      rw [hfacts, hfacts']
      simpa using hd.symm

/-- Allocations in the opposite order, with the stores and loads spread between them. -/
theorem Program.analyze_reorder_backwards :
    let p : Program := ⟨[.alloca "a", .alloca "a", .alloca "b", .store "a" "b", .load "c" "a"]⟩
    let q : Program := ⟨[.load "c" "a", .alloca "b", .store "a" "b", .alloca "a", .load "c" "a",
      .alloca "a"]⟩
    let f : Nat → Nat := fun i ↦ 2 - i
    allocations p.instructions = ["a", "a", "b"] ∧ allocations q.instructions = ["b", "a", "a"] ∧
    ∃ e e', p.analyze = .ok e ∧ q.analyze = .ok e' ∧
      (∀ x, e'.pointsTo (.var x) = (e.pointsTo (.var x)).renumber f) ∧
      (∀ i < 3, e'.pointsTo (.loc ⟨f i⟩) = (e.pointsTo (.loc ⟨i⟩)).renumber f) ∧
      ∀ t, t ∈ e' ↔ ∃ s, s ∈ e ∧ s.relabel id f = t := by
  intro p q f
  have hf : Set.BijOn f (Set.Iio 3) (Set.Iio 3) := by
    refine ⟨fun i hi ↦ ?_, fun i hi j hj h ↦ ?_, fun i hi ↦ ⟨2 - i, ?_, ?_⟩⟩ <;>
      simp only [Set.mem_Iio, f] at * <;> omega
  obtain ⟨e, e', hp, hq, hvars, hlocs, hkeys, -⟩ := Program.analyze_reorder p q f (by decide)
    (by decide) rfl hf (by decide)
  exact ⟨rfl, rfl, e, e', hp, hq, hvars, hlocs, hkeys⟩

/-! ## More instructions -/

/-- The environment satisfies the inclusions of an instruction. -/
def Environment.Respects (e : Environment) : Instruction → Prop
  | .alloca _ => True
  | .move dst src => Inclusion.Holds ⟨.var dst, .var src⟩ e
  | .load dst reference =>
    ∀ k, k ∈ e.pointsTo (.var reference) → Inclusion.Holds ⟨.var dst, .loc k⟩ e
  | .store reference src =>
    ∀ k, k ∈ e.pointsTo (.var reference) → Inclusion.Holds ⟨.loc k, .var src⟩ e

section Respects

variable {is : List Instruction} {e e' : Environment}

/-- The rules are satisfied if allocations have their locations and all other instructions are
respected. -/
theorem satisfies_iff : Satisfies is e ↔
    (∀ i name, (allocations is)[i]? = some name → ⟨i⟩ ∈ e.pointsTo (.var name)) ∧
      ∀ i ∈ is, e.Respects i := by
  constructor
  · intro h
    refine ⟨h.alloca, fun i hi ↦ ?_⟩
    cases i with
    | alloca _ => trivial
    | move dst src => exact h.move dst src hi
    | load dst reference => exact h.load dst reference hi
    | store reference src => exact h.store reference src hi
  · rintro ⟨halloca, h⟩
    exact ⟨halloca, fun _ _ hi ↦ h _ hi, fun _ _ hi ↦ h _ hi, fun _ _ hi ↦ h _ hi⟩

/-- Environments with the same facts satisfy the same rules. -/
theorem Satisfies.of_le_of_le (h : Satisfies is e) (hle : e ≤ e') (hge : e' ≤ e) :
    Satisfies is e' where
  alloca i name hi := hle _ _ (h.alloca i name hi)
  move dst src hi l hl := hle _ _ (h.move dst src hi l (hge _ _ hl))
  load dst reference hi k hk l hl :=
    hle _ _ (h.load dst reference hi k (hge _ _ hk) l (hge _ _ hl))
  store reference src hi k hk l hl :=
    hle _ _ (h.store reference src hi k (hge _ _ hk) l (hge _ _ hl))

/-- The derivable facts satisfy the rules. -/
theorem satisfies_of_facts (h : ∀ t l, l ∈ e.pointsTo t ↔ Derives is t l) : Satisfies is e where
  alloca _ _ hi := (h _ _).mpr (.alloca hi)
  move _ _ hi _ hl := (h _ _).mpr (.move hi ((h _ _).mp hl))
  load _ _ hi _ hk _ hl := (h _ _).mpr (.load hi ((h _ _).mp hk) ((h _ _).mp hl))
  store _ _ hi _ hk _ hl := (h _ _).mpr (.store hi ((h _ _).mp hk) ((h _ _).mp hl))

end Respects

/-- A program translates to its extensions, if the allocations they add come last. -/
theorem Translates.of_extends {is js : List Instruction}
    (hallocs : allocations is <+: allocations js)
    (hother : ∀ i ∈ is, i.isAlloca = false → i ∈ js) : Translates id id is js where
  alloca i name hi := by
    obtain ⟨names, hnames⟩ := hallocs
    rw [← hnames, id, List.getElem?_append_left (List.getElem?_eq_some_iff.mp hi).1]
    exact hi
  other := by simpa using hother

/-- **More instructions, more facts.**  Let the allocations of one program come first, in order,
among those of another one, which also has all its moves, loads and stores.  Then the result for the
one is below the result for the other.  If both have the same allocations, the two results are equal
exactly if the first respects all instructions of the second program already. -/
theorem Program.analyze_extend (p q : Program)
    (hallocs : allocations p.instructions <+: allocations q.instructions)
    (hother : ∀ i ∈ p.instructions, i.isAlloca = false → i ∈ q.instructions) :
    ∃ e e', p.analyze = .ok e ∧ q.analyze = .ok e' ∧ (e.compare? e').isLE = true ∧
      (allocations p.instructions = allocations q.instructions →
        ((e.compare? e').isEQ = true ↔ ∀ i ∈ q.instructions, e.Respects i)) := by
  obtain ⟨e, hp, hfacts, -⟩ := p.exists_analyze
  obtain ⟨e', hq, hfacts', -⟩ := q.exists_analyze
  have htranslates := Translates.of_extends hallocs hother
  have hle : e ≤ e' := by
    intro t l hl
    have hd := ((hfacts t l).mp hl).relabel htranslates
    rw [Storage.relabel_id, Location.renumber_id] at hd
    exact (hfacts' t l).mpr hd
  refine ⟨e, e', hp, hq, Environment.isLE_compare?_iff.mpr hle, fun heq ↦ ?_⟩
  rw [Environment.isEQ_compare?_iff]
  constructor
  · rintro ⟨-, hge⟩
    exact (satisfies_iff.mp ((satisfies_of_facts hfacts').of_le_of_le hge hle)).2
  · intro hrespects
    -- the result for `p` satisfies the rules of `q`, and the result for `q` is the least that does
    have hsat : Satisfies q.instructions e :=
      satisfies_iff.mpr ⟨fun i name hi ↦ (hfacts _ _).mpr (.alloca (heq ▸ hi)), hrespects⟩
    exact ⟨hle, fun t l hl ↦ hsat.mem_of_derives ((hfacts' t l).mp hl)⟩

/-- A move back and a load that is redundant beside a move. -/
theorem Program.analyze_extend_redundant :
    let p : Program := ⟨[.alloca "a", .move "b" "a", .store "a" "b", .move "c" "b"]⟩
    let q : Program := ⟨[.load "c" "b", .alloca "a", .move "c" "b", .move "b" "a", .store "a" "b",
      .move "a" "c"]⟩
    allocations p.instructions <+: allocations q.instructions ∧
    (∀ i ∈ p.instructions, i.isAlloca = false → i ∈ q.instructions) ∧
    ∃ e e', p.analyze = .ok e ∧ q.analyze = .ok e' ∧ (e.compare? e').isLE = true ∧
      ((e.compare? e').isEQ = true ↔ ∀ i ∈ q.instructions, e.Respects i) := by
  intro p q
  have hallocs : allocations p.instructions <+: allocations q.instructions := by decide
  have hother : ∀ i ∈ p.instructions, i.isAlloca = false → i ∈ q.instructions := by decide
  obtain ⟨e, e', hp, hq, hle, heq⟩ := Program.analyze_extend p q hallocs hother
  exact ⟨hallocs, hother, e, e', hp, hq, hle, heq rfl⟩

end PointsTo
