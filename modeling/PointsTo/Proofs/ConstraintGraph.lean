import PointsTo.ConstraintGraph
import PointsTo.Proofs.Digraph

/-!
# What a constraint graph is built to be

The graph of an environment and some inclusions is grown together with a map from storage to vertex
numbers.  `ConstraintGraph.Represents` says what the two are after some storage has been asked for
and some inclusions have been put in: the storage, listed by number, is what was asked for without
repetition, and the edges are the inclusions between those numbers.  Both steps of the construction
succeed and carry it on, so the construction succeeds and ends with it
(`ConstraintGraph.represents_build`).

The vertices are then listed by number, and the edges carry the inclusions, each of them once however
often it was put in (`ConstraintGraph.Represents.perm_inclusions`).

For paths numbers are a detail.  A path in the graph is a chain of inclusions between storage,
each of them from source to destination (`ConstraintGraph.Flows`), and the answer to `reachable` is
the end of every such chain.
-/

set_option autoImplicit false

namespace PointsTo

open Std Relation

/-- The two sides of an inclusion, source first. -/
def Inclusion.sides (i : Inclusion) : List Storage := [i.src, i.dst]

/-! ## Numbering -/

section Numbering

variable {xs : List Storage} {s t : Storage} {i : Nat}

theorem getElem?_concat (xs : List Storage) (s : Storage) (i : Nat) :
    (xs ++ [s])[i]? = if i = xs.length then some s else xs[i]? := by
  split
  · next hi => rw [hi, List.getElem?_concat_length]
  · next hi =>
    rcases Nat.lt_or_gt_of_ne hi with hi | hi
    · exact List.getElem?_append_left hi
    · rw [List.getElem?_eq_none (Nat.le_of_lt hi), List.getElem?_eq_none]
      rwa [List.length_append, List.length_singleton]

theorem exists_getElem?_eraseDups : (∃ i : Nat, xs.eraseDups[i]? = some s) ↔ s ∈ xs := by
  rw [← List.mem_iff_getElem?, List.mem_eraseDups]

theorem getElem?_eraseDups_concat_of_ne (h : s ≠ t) :
    (xs ++ [s]).eraseDups[i]? = some t ↔ xs.eraseDups[i]? = some t := by
  rw [eraseDups_concat]
  split
  · rfl
  · rw [getElem?_concat]
    split
    · next hi =>
      rw [hi, List.getElem?_eq_none (Nat.le_refl _)]
      exact iff_of_false (fun hst ↦ h (Option.some_inj.mp hst)) (Option.some_ne_none t).symm
    · rfl

/-- Storage keeps its number when more is asked for. -/
theorem getElem?_eraseDups_concat (ht : t ∈ xs) :
    (xs ++ [s]).eraseDups[i]? = some t ↔ xs.eraseDups[i]? = some t := by
  by_cases hs : s ∈ xs
  · rw [eraseDups_concat, if_pos hs]
  · exact getElem?_eraseDups_concat_of_ne fun hst ↦ hs (hst ▸ ht)

theorem eq_of_getElem?_eraseDups {j : Nat} (hi : xs.eraseDups[i]? = some s)
    (hj : xs.eraseDups[j]? = some s) : i = j := by
  have hlt : i < xs.eraseDups.length := (List.getElem?_eq_some_iff.mp hi).1
  exact (List.getElem?_inj hlt (nodup_eraseDups xs)).mp (hi.trans hj.symm)

/-- If the numbers are those of the storage with some property, all of it listed, then reading them
back gives the storage with that property. -/
theorem mem_filterMap_getElem?_eraseDups {js : List Nat} {P : Storage → Prop}
    (hjs : ∀ j, j ∈ js ↔ ∃ t, xs.eraseDups[j]? = some t ∧ P t) (hP : P t → t ∈ xs) :
    t ∈ js.filterMap (fun j ↦ xs.eraseDups[j]?) ↔ P t := by
  rw [List.mem_filterMap]
  constructor
  · rintro ⟨j, hj, ht⟩
    obtain ⟨u, hu, hPu⟩ := (hjs j).mp hj
    rw [hu, Option.some_inj] at ht
    exact ht ▸ hPu
  · intro hPt
    obtain ⟨j, hj⟩ := exists_getElem?_eraseDups.mpr (hP hPt)
    exact ⟨j, (hjs j).mpr ⟨t, hj, hPt⟩, hj⟩

/-- There is one inclusion at most between two numbers. -/
theorem inclusion_eq_of_getElem?_eraseDups {j : Nat} {y z : Inclusion}
    (hyi : xs.eraseDups[i]? = some y.src) (hyj : xs.eraseDups[j]? = some y.dst)
    (hzi : xs.eraseDups[i]? = some z.src) (hzj : xs.eraseDups[j]? = some z.dst) : y = z := by
  have hsrc : y.src = z.src := Option.some_inj.mp (hyi.symm.trans hzi)
  have hdst : y.dst = z.dst := Option.some_inj.mp (hyj.symm.trans hzj)
  cases y
  cases z
  cases hsrc
  cases hdst
  rfl

end Numbering

/-- A map on the places of a list is listed by place. -/
theorem toList_eq_mapIdx {α β : Type} {m : ExtTreeMap Nat β} {xs : List α} {f : Nat → α → β}
    (h : ∀ i : Nat, m[i]? = xs[i]?.map (f i)) : m.toList = xs.mapIdx fun i x ↦ (i, f i x) := by
  have hm : m.toList.Pairwise fun a b ↦ a.1 < b.1 :=
    m.ordered_keys_toList.imp Nat.compare_eq_lt.mp
  have hxs : (xs.mapIdx fun i x ↦ (i, f i x)).Pairwise fun a b ↦ a.1 < b.1 := by
    rw [List.pairwise_iff_getElem]
    intro i j hi hj hij
    simpa using hij
  have hnodup : ∀ {ys : List (Nat × β)}, (ys.Pairwise fun a b ↦ a.1 < b.1) → ys.Nodup :=
    fun hys ↦ hys.imp fun hlt heq ↦ absurd (congrArg Prod.fst heq) (Nat.ne_of_lt hlt)
  refine List.Perm.eq_of_pairwise (fun a b _ _ hab hba ↦ absurd hab (Nat.lt_asymm hba)) hm hxs ?_
  refine (List.perm_ext_iff_of_nodup (hnodup hm) (hnodup hxs)).mpr ?_
  rintro ⟨i, b⟩
  rw [ExtTreeMap.mem_toList_iff_getElem?_eq_some, h, Option.map_eq_some_iff, List.mem_mapIdx]
  refine ⟨?_, ?_⟩
  · rintro ⟨x, hx, rfl⟩
    obtain ⟨hi, rfl⟩ := List.getElem?_eq_some_iff.mp hx
    exact ⟨i, hi, rfl⟩
  · rintro ⟨j, hj, heq⟩
    obtain ⟨rfl, rfl⟩ := Prod.mk.inj heq
    exact ⟨_, List.getElem?_eq_getElem hj, rfl⟩

namespace ConstraintGraph

/-! ## The invariant of the construction -/

/-- The graph has a vertex for each storage in `xs`, numbered by first mention, and an edge for each
inclusion in `is`. -/
structure Represents (e : Environment) (xs : List Storage) (is : List Inclusion)
    (g : ConstraintGraph) : Prop where
  /-- The graph agrees with itself. -/
  consistent : g.graph.Consistent
  /-- The numbers in use are those below the next number. -/
  size_indices : g.indices.size = xs.eraseDups.length
  /-- The numbers are places in the list. -/
  index_iff : ∀ (s : Storage) (i : Nat), g.indices[s]? = some i ↔ xs.eraseDups[i]? = some s
  /-- A vertex has its number, its storage and what that points to. -/
  vertices_eq : ∀ i : Nat, g.graph.vertices[i]? =
    xs.eraseDups[i]?.map fun s ↦ ⟨i, s, e.pointsTo s⟩
  /-- Both sides of an inclusion have a vertex. -/
  sides_mem : ∀ y ∈ is, y.src ∈ xs ∧ y.dst ∈ xs
  /-- An edge has the numbers of the sides of its inclusion. -/
  edge_iff : ∀ (i j : Nat) (x : InclusionEdge), g.graph.edges[(i, j)]? = some x ↔
    ∃ y ∈ is, xs.eraseDups[i]? = some y.src ∧ xs.eraseDups[j]? = some y.dst ∧ x = ⟨i, j, y⟩

section Construction

variable {e : Environment} {xs : List Storage} {is : List Inclusion} {g : ConstraintGraph}

theorem represents_empty (e : Environment) : Represents e [] [] {} := by
  constructor
  case consistent => exact Digraph.consistent_empty
  all_goals simp [Digraph.empty]

theorem Represents.mem_vertices_iff (h : Represents e xs is g) {i : Nat} :
    i ∈ g.graph.vertices ↔ ∃ s, xs.eraseDups[i]? = some s := by
  rw [ExtTreeMap.mem_iff_isSome_getElem?, h.vertices_eq, Option.isSome_map,
    Option.isSome_iff_exists]

theorem Represents.mem_edges_iff (h : Represents e xs is g) {i j : Nat} :
    (i, j) ∈ g.graph.edges ↔
      ∃ y ∈ is, xs.eraseDups[i]? = some y.src ∧ xs.eraseDups[j]? = some y.dst := by
  rw [ExtTreeMap.mem_iff_isSome_getElem?, Option.isSome_iff_exists]
  constructor
  · rintro ⟨x, hx⟩
    obtain ⟨y, hy, hi, hj, -⟩ := (h.edge_iff i j x).mp hx
    exact ⟨y, hy, hi, hj⟩
  · rintro ⟨y, hy, hi, hj⟩
    exact ⟨⟨i, j, y⟩, (h.edge_iff i j _).mpr ⟨y, hy, hi, hj, rfl⟩⟩

/-- Storage that has a vertex may be asked for again. -/
theorem Represents.concat_of_mem (h : Represents e xs is g) {s : Storage} (hs : s ∈ xs) :
    Represents e (xs ++ [s]) is g := by
  have hsame : (xs ++ [s]).eraseDups = xs.eraseDups := by rw [eraseDups_concat, if_pos hs]
  constructor
  case consistent => exact h.consistent
  case sides_mem =>
    intro y hy
    exact (h.sides_mem y hy).imp (List.mem_append_left _) (List.mem_append_left _)
  all_goals rw [hsame]
  case size_indices => exact h.size_indices
  case index_iff => exact h.index_iff
  case vertices_eq => exact h.vertices_eq
  case edge_iff => exact h.edge_iff

/-- **New storage takes the next number.**  No inclusion so far has it for a side, so the edges stay
as they are. -/
theorem Represents.concat_of_not_mem (h : Represents e xs is g) {s : Storage} (hs : s ∉ xs) :
    ∃ graph, g.graph.insertVertex ⟨g.indices.size, s, e.pointsTo s⟩ = .ok graph ∧
      Represents e (xs ++ [s]) is ⟨graph, g.indices.insert s g.indices.size⟩ := by
  have hnew : (xs ++ [s]).eraseDups = xs.eraseDups ++ [s] := by rw [eraseDups_concat, if_neg hs]
  have hfree : g.indices.size ∉ g.graph.vertices := by
    rw [h.mem_vertices_iff, h.size_indices]
    simp
  have hnone : ∀ i : Nat, xs.eraseDups[i]? ≠ some s :=
    fun i hi ↦ hs (exists_getElem?_eraseDups.mp ⟨i, hi⟩)
  obtain ⟨graph, hgraph, hconsistent, hvertices, hedges⟩ :=
    h.consistent.insertVertex (v := (⟨g.indices.size, s, e.pointsTo s⟩ : StorageVertex)) hfree
  refine ⟨graph, hgraph, ?_⟩
  constructor
  case consistent => exact hconsistent
  case size_indices =>
    have hout : s ∉ g.indices := by
      rw [ExtTreeMap.mem_iff_isSome_getElem?, Option.isSome_iff_exists]
      rintro ⟨i, hi⟩
      exact hnone i ((h.index_iff s i).mp hi)
    rw [ExtTreeMap.size_insert, if_neg (by rwa [ExtTreeMap.contains_iff_mem]), hnew,
      List.length_append, List.length_singleton, h.size_indices]
  case index_iff =>
    intro t i
    rw [ExtTreeMap.getElem?_insert]
    by_cases hst : s = t
    · subst hst
      rw [if_pos (Std.compare_eq_iff_eq.mpr rfl), hnew, getElem?_concat, ← h.size_indices]
      by_cases hi : i = g.indices.size
      · simp [hi]
      · simp [hi, hnone, Ne.symm hi]
    · rw [if_neg fun hc ↦ hst (Std.compare_eq_iff_eq.mp hc), getElem?_eraseDups_concat_of_ne hst]
      exact h.index_iff t i
  case vertices_eq =>
    intro i
    show graph.vertices[i]? = _
    rw [hvertices, ExtTreeMap.getElem?_insert, hnew, getElem?_concat, ← h.size_indices]
    by_cases hi : i = g.indices.size
    · subst hi
      simp [Vertex.index]
    · have hne : ¬ g.indices.size = i := fun h' ↦ hi h'.symm
      simp [Vertex.index, hi, hne, h.vertices_eq]
  case sides_mem =>
    intro y hy
    exact (h.sides_mem y hy).imp (List.mem_append_left _) (List.mem_append_left _)
  case edge_iff =>
    intro i j x
    show graph.edges[(i, j)]? = some x ↔ _
    rw [hedges, h.edge_iff]
    refine exists_congr fun y ↦ and_congr_right fun hy ↦ ?_
    obtain ⟨hsrc, hdst⟩ := h.sides_mem y hy
    rw [getElem?_eraseDups_concat hsrc, getElem?_eraseDups_concat hdst]

/-- **Asking for a vertex succeeds**, and gives the number of the storage. -/
theorem Represents.addVertex (h : Represents e xs is g) (s : Storage) :
    ∃ g' i, addVertex e g s = .ok (g', i) ∧ Represents e (xs ++ [s]) is g' ∧
      (xs ++ [s]).eraseDups[i]? = some s := by
  rw [ConstraintGraph.addVertex]
  cases hs : g.indices[s]? with
  | some i =>
    have hi := (h.index_iff s i).mp hs
    have hmem : s ∈ xs := exists_getElem?_eraseDups.mp ⟨i, hi⟩
    exact ⟨g, i, rfl, h.concat_of_mem hmem, (getElem?_eraseDups_concat hmem).mpr hi⟩
  | none =>
    have hmem : s ∉ xs := by
      intro hmem
      obtain ⟨i, hi⟩ := exists_getElem?_eraseDups.mpr hmem
      rw [(h.index_iff s i).mpr hi] at hs
      cases hs
    obtain ⟨graph, hgraph, h'⟩ := h.concat_of_not_mem hmem
    refine ⟨_, g.indices.size, ?_, h', (h'.index_iff s _).mp ?_⟩
    · show (g.graph.insertVertex _ >>= _) = _
      rw [hgraph]
      rfl
    · exact ExtTreeMap.getElem?_insert_self

/-- An inclusion that has an edge may be put in again. -/
theorem Represents.inclusions_concat_of_mem (h : Represents e xs is g) {y : Inclusion}
    (hy : y ∈ is) : Represents e xs (is ++ [y]) g := by
  have hmem : ∀ z, z ∈ is ++ [y] ↔ z ∈ is := by
    intro z
    rw [List.mem_append, List.mem_singleton]
    exact ⟨fun hz ↦ hz.elim id fun hz ↦ hz ▸ hy, .inl⟩
  refine ⟨h.consistent, h.size_indices, h.index_iff, h.vertices_eq, ?_, ?_⟩
  · intro z hz
    exact h.sides_mem z ((hmem z).mp hz)
  · intro i j x
    rw [h.edge_iff]
    exact exists_congr fun z ↦ and_congr_left fun _ ↦ (hmem z).symm

/-- **A new inclusion makes a new edge** between the numbers of its sides. -/
theorem Represents.inclusions_concat (h : Represents e xs is g) {y : Inclusion} {head tail : Nat}
    (hhead : xs.eraseDups[head]? = some y.src) (htail : xs.eraseDups[tail]? = some y.dst)
    (hnew : (head, tail) ∉ g.graph.edges) :
    ∃ graph, g.graph.insertEdge ⟨head, tail, y⟩ = .ok graph ∧
      Represents e xs (is ++ [y]) ⟨graph, g.indices⟩ := by
  obtain ⟨graph, hgraph, hconsistent, hvertices, hedges⟩ :=
    h.consistent.insertEdge (e := (⟨head, tail, y⟩ : InclusionEdge)) hnew
      (h.mem_vertices_iff.mpr ⟨_, hhead⟩) (h.mem_vertices_iff.mpr ⟨_, htail⟩)
  refine ⟨graph, hgraph, hconsistent, h.size_indices, h.index_iff, ?_, ?_, ?_⟩
  · intro i
    show graph.vertices[i]? = _
    rw [hvertices]
    exact h.vertices_eq i
  · intro z hz
    rcases List.mem_append.mp hz with hz | hz
    · exact h.sides_mem z hz
    · rw [List.mem_singleton.mp hz]
      exact ⟨exists_getElem?_eraseDups.mp ⟨_, hhead⟩, exists_getElem?_eraseDups.mp ⟨_, htail⟩⟩
  · intro i j x
    show graph.edges[(i, j)]? = some x ↔ _
    rw [hedges, ExtTreeMap.getElem?_insert]
    split
    · next hends =>
      -- the numbers of the new edge: its inclusion is the only one between them
      obtain ⟨rfl, rfl⟩ := Prod.mk.inj (Digraph.endsOrder_eq_iff.mp hends)
      rw [Option.some_inj]
      constructor
      · rintro rfl
        exact ⟨y, List.mem_append_right _ List.mem_cons_self, hhead, htail, rfl⟩
      · rintro ⟨z, -, hi, hj, rfl⟩
        rw [inclusion_eq_of_getElem?_eraseDups hhead htail hi hj]
        rfl
    · next hends =>
      rw [h.edge_iff]
      constructor
      · rintro ⟨z, hz, hrest⟩
        exact ⟨z, List.mem_append_left _ hz, hrest⟩
      · rintro ⟨z, hz, hi, hj, rfl⟩
        rcases List.mem_append.mp hz with hz | hz
        · exact ⟨z, hz, hi, hj, rfl⟩
        · rw [List.mem_singleton.mp hz] at hi hj
          have hij : (head, tail) = (i, j) := by
            rw [eq_of_getElem?_eraseDups hhead hi, eq_of_getElem?_eraseDups htail hj]
          exact absurd (Digraph.endsOrder_eq_iff.mpr hij) hends

/-- **Putting in an inclusion succeeds.** -/
theorem Represents.addInclusion (h : Represents e xs is g) (y : Inclusion) :
    ∃ g', addInclusion e g y = .ok g' ∧ Represents e (xs ++ y.sides) (is ++ [y]) g' := by
  obtain ⟨g₁, head, hg₁, h₁, hhead⟩ := h.addVertex y.src
  obtain ⟨g₂, tail, hg₂, h₂, htail⟩ := h₁.addVertex y.dst
  have hhead₂ : (xs ++ [y.src] ++ [y.dst]).eraseDups[head]? = some y.src :=
    (getElem?_eraseDups_concat (by simp)).mpr hhead
  have hsides : xs ++ y.sides = xs ++ [y.src] ++ [y.dst] := by simp [Inclusion.sides]
  rw [hsides, ConstraintGraph.addInclusion, hg₁]
  show ∃ g', (ConstraintGraph.addVertex e g₁ y.dst >>= _) = .ok g' ∧ _
  rw [hg₂]
  show ∃ g', (if g₂.graph.hasEdge head tail then _ else _) = Except.ok g' ∧ _
  by_cases hedge : (head, tail) ∈ g₂.graph.edges
  · rw [if_pos (Digraph.hasEdge_iff.mpr hedge)]
    obtain ⟨z, hz, hzhead, hztail⟩ := h₂.mem_edges_iff.mp hedge
    have hyz := inclusion_eq_of_getElem?_eraseDups hhead₂ htail hzhead hztail
    exact ⟨g₂, rfl, h₂.inclusions_concat_of_mem (hyz ▸ hz)⟩
  · rw [if_neg fun hc ↦ hedge (Digraph.hasEdge_iff.mp hc)]
    obtain ⟨graph, hgraph, h₃⟩ := h₂.inclusions_concat hhead₂ htail hedge
    rw [hgraph]
    exact ⟨_, rfl, h₃⟩

theorem Represents.foldlM_addVertex (h : Represents e xs is g) (ys : List Storage) :
    ∃ g', ys.foldlM (fun g s ↦ Prod.fst <$> ConstraintGraph.addVertex e g s) g = .ok g' ∧
      Represents e (xs ++ ys) is g' := by
  induction ys generalizing xs g with
  | nil => exact ⟨g, rfl, by rwa [List.append_nil]⟩
  | cons s ys ih =>
    obtain ⟨g₁, i, hg₁, h₁, -⟩ := h.addVertex s
    obtain ⟨g', hg', h'⟩ := ih h₁
    refine ⟨g', ?_, by rwa [List.append_cons]⟩
    rw [List.foldlM_cons, hg₁]
    exact hg'

theorem Represents.foldlM_addInclusion (h : Represents e xs is g) (js : List Inclusion) :
    ∃ g', js.foldlM (ConstraintGraph.addInclusion e) g = .ok g' ∧
      Represents e (xs ++ js.flatMap Inclusion.sides) (is ++ js) g' := by
  induction js generalizing xs is g with
  | nil => exact ⟨g, rfl, by rwa [List.flatMap_nil, List.append_nil, List.append_nil]⟩
  | cons y js ih =>
    obtain ⟨g₁, hg₁, h₁⟩ := h.addInclusion y
    obtain ⟨g', hg', h'⟩ := ih h₁
    refine ⟨g', ?_, by rwa [List.append_cons is, List.flatMap_cons, ← List.append_assoc]⟩
    rw [List.foldlM_cons, hg₁]
    exact hg'

end Construction

/-- The storage of a constraint graph as the construction comes by it. -/
def storageOf (e : Environment) (is : List Inclusion) : List Storage :=
  e.keys ++ is.flatMap Inclusion.sides

/-- **The construction succeeds**, with the vertices and edges that it is asked for. -/
theorem represents_build (e : Environment) (is : List Inclusion) :
    ∃ g, build e is = .ok g ∧ Represents e (storageOf e is) is g := by
  obtain ⟨g₁, hg₁, h₁⟩ := (represents_empty e).foldlM_addVertex e.keys
  obtain ⟨g, hg, h⟩ := h₁.foldlM_addInclusion is
  refine ⟨g, ?_, h⟩
  rw [build, hg₁]
  exact hg

/-! ## The vertices and edges, listed -/

section Listing

variable {e : Environment} {xs : List Storage} {is : List Inclusion} {g : ConstraintGraph}

theorem Represents.toList_vertices (h : Represents e xs is g) :
    g.graph.vertices.toList = xs.eraseDups.mapIdx fun i s ↦ (i, ⟨i, s, e.pointsTo s⟩) :=
  toList_eq_mapIdx h.vertices_eq

theorem Represents.mem_edgeList (h : Represents e xs is g) {x : InclusionEdge} :
    x ∈ g.graph.edgeList ↔ x.inclusion ∈ is ∧ g.index x.inclusion.src = some x.head ∧
      g.index x.inclusion.dst = some x.tail := by
  rw [Digraph.edgeList, List.mem_map, index, index, h.index_iff, h.index_iff]
  refine ⟨?_, fun ⟨hx, hhead, htail⟩ ↦ ?_⟩
  · rintro ⟨⟨⟨i, j⟩, x⟩, hx, rfl⟩
    obtain ⟨y, hy, hi, hj, rfl⟩ :=
      (h.edge_iff i j x).mp (ExtTreeMap.mem_toList_iff_getElem?_eq_some.mp hx)
    exact ⟨hy, hi, hj⟩
  · refine ⟨((x.head, x.tail), x), ExtTreeMap.mem_toList_iff_getElem?_eq_some.mpr ?_, rfl⟩
    exact (h.edge_iff _ _ x).mpr ⟨_, hx, hhead, htail, rfl⟩

/-- No two edges have the same inclusion, since its sides give their numbers. -/
theorem Represents.nodup_inclusions (h : Represents e xs is g) :
    (g.graph.edgeList.map InclusionEdge.inclusion).Nodup := by
  rw [Digraph.edgeList, List.map_map, List.Nodup, List.pairwise_map]
  refine g.graph.edges.distinct_keys_toList.imp_of_mem ?_
  rintro ⟨⟨i, j⟩, x⟩ ⟨⟨i', j'⟩, x'⟩ hx hx' hne heq
  obtain ⟨y, -, hi, hj, rfl⟩ :=
    (h.edge_iff i j x).mp (ExtTreeMap.mem_toList_iff_getElem?_eq_some.mp hx)
  obtain ⟨z, -, hi', hj', rfl⟩ :=
    (h.edge_iff i' j' x').mp (ExtTreeMap.mem_toList_iff_getElem?_eq_some.mp hx')
  have hyz : y = z := heq
  subst hyz
  have hends : (i, j) = (i', j') := by
    rw [eq_of_getElem?_eraseDups hi hi', eq_of_getElem?_eraseDups hj hj']
  exact hne (Digraph.endsOrder_eq_iff.mpr hends)

/-- The inclusions of the edges, each of them once. -/
theorem Represents.perm_inclusions (h : Represents e xs is g) :
    (g.graph.edgeList.map InclusionEdge.inclusion).Perm is.eraseDups := by
  refine (List.perm_ext_iff_of_nodup h.nodup_inclusions (nodup_eraseDups is)).mpr fun y ↦ ?_
  rw [List.mem_eraseDups, List.mem_map]
  refine ⟨?_, fun hy ↦ ?_⟩
  · rintro ⟨x, hx, rfl⟩
    exact (h.mem_edgeList.mp hx).1
  · obtain ⟨hsrc, hdst⟩ := h.sides_mem y hy
    obtain ⟨i, hi⟩ := exists_getElem?_eraseDups.mpr hsrc
    obtain ⟨j, hj⟩ := exists_getElem?_eraseDups.mpr hdst
    exact ⟨⟨i, j, y⟩, h.mem_edgeList.mpr
      ⟨hy, (h.index_iff _ i).mpr hi, (h.index_iff _ j).mpr hj⟩, rfl⟩

end Listing

/-! ## Reachability -/

/-- An inclusion lets what the one storage points to flow into the other. -/
def Flows (is : List Inclusion) (s t : Storage) : Prop := { dst := t, src := s } ∈ is

section Reach

variable {e : Environment} {xs : List Storage} {is : List Inclusion} {g : ConstraintGraph}
  {s t : Storage} {i j : Nat}

theorem Represents.leads_iff (h : Represents e xs is g) (hi : xs.eraseDups[i]? = some s) :
    g.graph.Leads i j ↔ ∃ t, xs.eraseDups[j]? = some t ∧ Flows is s t := by
  rw [h.consistent.leads_iff, h.mem_edges_iff]
  constructor
  · rintro ⟨y, hy, hyi, hyj⟩
    rw [hi, Option.some_inj] at hyi
    exact ⟨y.dst, hyj, hyi ▸ hy⟩
  · rintro ⟨t, hj, hst⟩
    exact ⟨_, hst, hi, hj⟩

/-- **Paths between numbers are chains of inclusions between storage.** -/
theorem Represents.reaches_iff (h : Represents e xs is g) (hi : xs.eraseDups[i]? = some s) :
    ReflTransGen g.graph.Leads i j ↔
      ∃ t, xs.eraseDups[j]? = some t ∧ ReflTransGen (Flows is) s t := by
  constructor
  · intro hij
    induction hij with
    | refl => exact ⟨s, hi, .refl⟩
    | tail _ hjk ih =>
      obtain ⟨t, hj, hst⟩ := ih
      obtain ⟨u, hk, htu⟩ := (h.leads_iff hj).mp hjk
      exact ⟨u, hk, hst.tail htu⟩
  · rintro ⟨t, hj, hst⟩
    induction hst generalizing j with
    | refl => rw [eq_of_getElem?_eraseDups hi hj]
    | tail _ htu ih =>
      obtain ⟨k, hk⟩ := exists_getElem?_eraseDups.mpr (h.sides_mem _ htu).1
      exact (ih hk).tail ((h.leads_iff hk).mpr ⟨_, hj, htu⟩)

theorem Represents.mem_of_flows (h : Represents e xs is g) (hs : s ∈ xs)
    (hst : ReflTransGen (Flows is) s t) : t ∈ xs := by
  cases hst with
  | refl => exact hs
  | tail _ hut => exact (h.sides_mem _ hut).2

/-- Vertex numbers are read back as storage. -/
theorem Represents.mapM_storage (h : Represents e xs is g) {js : List Nat}
    (hjs : ∀ j ∈ js, ∃ t, xs.eraseDups[j]? = some t) :
    js.mapM (fun j ↦ StorageVertex.storage <$> g.graph.vertex j) =
      .ok (js.filterMap fun j ↦ xs.eraseDups[j]?) := by
  induction js with
  | nil => rfl
  | cons j js ih =>
    obtain ⟨t, ht⟩ := hjs j List.mem_cons_self
    have hvertex : g.graph.vertex j = .ok ⟨j, t, e.pointsTo t⟩ := by
      rw [Digraph.vertex, h.vertices_eq, ht]
      rfl
    rw [List.mapM_cons, hvertex, ih fun k hk ↦ hjs k (List.mem_cons_of_mem _ hk),
      List.filterMap_cons_some ht]
    rfl

theorem Represents.indexOf (h : Represents e xs is g) (hi : xs.eraseDups[i]? = some s) :
    g.indexOf s = .ok i := by
  rw [ConstraintGraph.indexOf, index, (h.index_iff s i).mpr hi]

theorem Represents.indexOf_of_not_mem (h : Represents e xs is g) (hs : s ∉ xs) :
    g.indexOf s = .error (.notInConstraintGraph s) := by
  cases hi : g.indices[s]? with
  | none => rw [ConstraintGraph.indexOf, index, hi]
  | some i => exact absurd (exists_getElem?_eraseDups.mp ⟨i, (h.index_iff s i).mp hi⟩) hs

/-- The answer to `reachable` is the storage of the numbers that the search finds, sorted. -/
theorem Represents.reachable_eq (h : Represents e xs is g) (hi : xs.eraseDups[i]? = some s) :
    ∃ js : List Nat, js.Nodup ∧
      (∀ j, j ∈ js ↔ ∃ t, xs.eraseDups[j]? = some t ∧ ReflTransGen (Flows is) s t) ∧
      g.reachable s = .ok ((js.filterMap fun j ↦ xs.eraseDups[j]?).mergeSort
        fun a b ↦ (compare a b).isLE) := by
  obtain ⟨seen, hseen, hmem⟩ := Digraph.reachable_of_mem (h.mem_vertices_iff.mpr ⟨s, hi⟩)
  have hmem' : ∀ j, j ∈ seen.toList ↔
      ∃ t, xs.eraseDups[j]? = some t ∧ ReflTransGen (Flows is) s t := by
    intro j
    rw [ExtTreeSet.mem_toList, hmem, h.reaches_iff hi]
  have hstorage := h.mapM_storage fun j hj ↦ ((hmem' j).mp hj).imp fun _ ↦ And.left
  refine ⟨seen.toList, nodup_toList seen, hmem', ?_⟩
  rw [ConstraintGraph.reachable, h.indexOf hi]
  show (g.graph.reachable i >>= _) = Except.ok _
  rw [hseen]
  show (seen.toList.mapM (fun j ↦ StorageVertex.storage <$> g.graph.vertex j) >>= _) =
    Except.ok _
  rw [hstorage]
  rfl

/-- **What is reachable from storage** is the end of every chain of inclusions from there. -/
theorem Represents.reachable (h : Represents e xs is g) (hs : s ∈ xs) :
    ∃ r, g.reachable s = .ok r ∧ ∀ t, t ∈ r ↔ ReflTransGen (Flows is) s t := by
  obtain ⟨i, hi⟩ := exists_getElem?_eraseDups.mpr hs
  obtain ⟨js, -, hmem, hreachable⟩ := h.reachable_eq hi
  refine ⟨_, hreachable, fun t ↦ ?_⟩
  rw [List.mem_mergeSort]
  exact mem_filterMap_getElem?_eraseDups hmem (h.mem_of_flows hs)

theorem Represents.reachable_of_not_mem (h : Represents e xs is g) (hs : s ∉ xs) :
    g.reachable s = .error (.notInConstraintGraph s) := by
  rw [ConstraintGraph.reachable, h.indexOf_of_not_mem hs]
  rfl

end Reach

end ConstraintGraph

end PointsTo
