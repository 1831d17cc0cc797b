import IntoMarkdown.Drawio.Resolved

/-! # Places of cells

A cell that is no edge is a label of the nearest edge above it, any other cell is below its parent,
and what has no parent is a root. -/

namespace IntoMarkdown.Drawio
open Lib Strings Converters Relation Forest

def IsEdge (cells : List Cell) (i : Nat) : Prop := (cells[i]?).any Cell.edge = true

/-- The nearest edge above a cell. -/
inductive NearestEdge (cells : List Cell) (up : Nat → Option Nat) : Nat → Nat → Prop where
  | here {i e : Nat} (h : up i = some e) (hedge : IsEdge cells e) : NearestEdge cells up i e
  | above {i p e : Nat} (h : up i = some p) (hp : ¬ IsEdge cells p)
    (he : NearestEdge cells up p e) : NearestEdge cells up i e

/-- A cell that is no edge, below an edge. -/
def LabelOf (cells : List Cell) (up : Nat → Option Nat) (i e : Nat) : Prop :=
  ¬ IsEdge cells i ∧ NearestEdge cells up i e

def ChildOf (cells : List Cell) (up : Nat → Option Nat) (i p : Nat) : Prop :=
  up i = some p ∧ ∀ e, ¬ LabelOf cells up i e

/-- The nearest edge from a cell upwards, as far as the fuel goes. -/
def edgeFrom (cells : List Cell) (up : Nat → Option Nat) : Nat → Option Nat → Option Nat
  | _, none => none
  | 0, some _ => none
  | fuel + 1, some p => if (cells[p]?).any Cell.edge then some p else edgeFrom cells up fuel (up p)

/-- Where a cell hangs: at the edge that it labels, or at its parent. -/
def hangs (cells : List Cell) (up : Nat → Option Nat) (fuel i : Nat) : Option Nat :=
  ((edgeFrom cells up fuel (up i)).filter fun _ => !(cells[i]?).any Cell.edge).or (up i)

namespace Graph

def up (graph : Graph) (i : Nat) : Option Nat := graph.parents.getD i none

def below (graph : Graph) (i : Nat) : List Nat :=
  graph.children.getD i [] ++ graph.labels.getD i []

def roots (graph : Graph) (count : Nat) : List Nat :=
  (List.range count).filter fun i => graph.up i = none

/-- A walk from the roots, through children and labels. -/
def walk (graph : Graph) (count levels : Nat) : List Nat :=
  (graph.roots count).flatMap (visit graph.below levels)

end Graph

/-- The cells before a number are in their places, once each, and no other cell is. -/
structure Placed (cells : List Cell) (count : Nat) (graph : Graph) : Prop where
  children_length : graph.children.length = cells.length
  labels_length : graph.labels.length = cells.length
  children_nodup : ∀ p, (graph.children.getD p []).Nodup
  labels_nodup : ∀ e, (graph.labels.getD e []).Nodup
  mem_children : ∀ i p, i ∈ graph.children.getD p [] ↔ i < count ∧ ChildOf cells graph.up i p
  mem_labels : ∀ i e, i ∈ graph.labels.getD e [] ↔ i < count ∧ LabelOf cells graph.up i e

section
variable {σ : Type} {runtime : Runtime σ} {options : Options} {deep : Prop} {cells : List Cell}
  {up : Nat → Option Nat} {fuel i e k : Nat} {graph : Graph}

/-! ## The nearest edge -/

theorem NearestEdge.unique {f : Nat} (he : NearestEdge cells up i e)
    (hf : NearestEdge cells up i f) : e = f := by
  induction he with
  | here h hedge =>
    cases hf with
    | here h' _ => exact Option.some.inj (h.symm.trans h')
    | above h' hp _ => exact absurd (Option.some.inj (h.symm.trans h') ▸ hedge) hp
  | above h hp _ ih =>
    cases hf with
    | here h' hedge => exact absurd (Option.some.inj (h'.symm.trans h) ▸ hedge) hp
    | above h' _ hf => exact ih (Option.some.inj (h.symm.trans h') ▸ hf)

theorem NearestEdge.isEdge (h : NearestEdge cells up i e) : IsEdge cells e := by
  induction h with
  | here _ hedge => exact hedge
  | above _ _ _ ih => exact ih

theorem NearestEdge.links (h : NearestEdge cells up i e) : TransGen (Link up) i e := by
  induction h with
  | here h _ => exact .single h
  | above h _ _ ih => exact .head h ih

theorem NearestEdge.exists_parent (h : NearestEdge cells up i e) : ∃ p, up i = some p := by
  cases h with
  | here h _ => exact ⟨_, h⟩
  | above h _ _ => exact ⟨_, h⟩

theorem IsEdge.lt (h : IsEdge cells i) : i < cells.length := by
  by_contra hge
  rw [IsEdge, List.getElem?_eq_none (Nat.not_lt.mp hge)] at h
  cases h

theorem edgeFrom_eq_some (h : Climbs up i k) (hfuel : k ≤ fuel) :
    edgeFrom cells up fuel (up i) = some e ↔ NearestEdge cells up i e := by
  induction h generalizing fuel with
  | root h =>
    rw [h, edgeFrom]
    refine iff_of_false (fun hnone => by cases hnone) fun hedge => ?_
    obtain ⟨p, hp⟩ := hedge.exists_parent
    rw [h] at hp
    cases hp
  | @step i p j h _ ih =>
    obtain ⟨fuel, rfl⟩ := Nat.exists_eq_add_of_lt hfuel
    rw [h, show j + fuel + 1 = (j + fuel) + 1 from rfl, edgeFrom]
    split
    · next hedge =>
      constructor
      · intro heq
        exact Option.some.inj heq ▸ .here h hedge
      · intro hnearest
        rw [(NearestEdge.here h hedge).unique hnearest]
    · next hedge =>
      rw [ih (Nat.le_add_right j fuel)]
      constructor
      · exact fun hnearest => .above h hedge hnearest
      · intro hnearest
        cases hnearest with
        | here h' hedge' => exact absurd (Option.some.inj (h'.symm.trans h) ▸ hedge') hedge
        | above h' _ hnearest => exact Option.some.inj (h'.symm.trans h) ▸ hnearest

theorem ownerFrom_granted {parents : Parents} {next : Option Nat}
    (h : ∀ p, next = some p → ∃ k < fuel, Climbs (fun n => parents.getD n none) p k)
    (out : Output σ) :
    Grants runtime deep (ownerFrom runtime cells parents fuel next out) fun result =>
      result.1 = edgeFrom cells (fun n => parents.getD n none) fuel next ∧
        result.2.diagnostics = out.diagnostics := by
  induction fuel generalizing next out with
  | zero =>
    cases next with
    | none => exact Grants.ok ⟨rfl, rfl⟩
    | some p =>
      obtain ⟨k, hk, -⟩ := h p rfl
      exact absurd hk (Nat.not_lt_zero k)
  | succ fuel ih =>
    cases next with
    | none => exact Grants.ok ⟨rfl, rfl⟩
    | some p =>
      rw [ownerFrom, edgeFrom]
      refine (checkpoint_granted out).bind fun out' hout => ?_
      split
      · exact Grants.ok ⟨rfl, hout⟩
      · refine (ih (fun q hq => ?_) out').mono fun result hresult =>
          ⟨hresult.1, hresult.2.trans hout⟩
        obtain ⟨k, hk, hclimbs⟩ := h p rfl
        obtain ⟨j, rfl, hj⟩ := hclimbs.of_link hq
        exact ⟨j, Nat.lt_of_succ_lt_succ hk, hj⟩

/-! ## Lists of cells -/

theorem getD_pushAt {lists : List (List Nat)} (hi : i < lists.length) (n j : Nat) :
    (pushAt lists i n).getD j [] = if j = i then lists.getD j [] ++ [n] else lists.getD j [] := by
  rw [pushAt, List.getD_eq_getElem?_getD, List.getElem?_modify, List.getD_eq_getElem?_getD]
  by_cases hj : j = i
  · subst hj
    simp [List.getElem?_eq_getElem hi]
  · simp [hj, Ne.symm hj]

/-- Adding the next cell to one list. -/
theorem mem_pushAt {lists : List (List Nat)} {R : Nat → Nat → Prop} {count owner : Nat}
    (howner : owner < lists.length) (hR : ∀ j, R count j ↔ j = owner)
    (h : ∀ i j, i ∈ lists.getD j [] ↔ i < count ∧ R i j) (i j : Nat) :
    i ∈ (pushAt lists owner count).getD j [] ↔ i < count + 1 ∧ R i j := by
  have hsplit : i < count + 1 ↔ i < count ∨ i = count := Nat.lt_succ_iff_lt_or_eq
  rw [getD_pushAt howner, hsplit]
  by_cases hj : j = owner
  · rw [if_pos hj, List.mem_append, List.mem_singleton, h]
    constructor
    · rintro (⟨hlt, hrel⟩ | rfl)
      · exact ⟨.inl hlt, hrel⟩
      · exact ⟨.inr rfl, (hR j).mpr hj⟩
    · rintro ⟨hlt | rfl, hrel⟩
      · exact .inl ⟨hlt, hrel⟩
      · exact .inr rfl
  · rw [if_neg hj, h]
    constructor
    · exact fun hlt => ⟨.inl hlt.1, hlt.2⟩
    · rintro ⟨hlt | rfl, hrel⟩
      · exact ⟨hlt, hrel⟩
      · exact absurd ((hR j).mp hrel) hj

/-- Adding the next cell to no list. -/
theorem mem_unchanged {lists : List (List Nat)} {R : Nat → Nat → Prop} {count : Nat}
    (hR : ∀ j, ¬ R count j) (h : ∀ i j, i ∈ lists.getD j [] ↔ i < count ∧ R i j) (i j : Nat) :
    i ∈ lists.getD j [] ↔ i < count + 1 ∧ R i j := by
  rw [h, Nat.lt_succ_iff_lt_or_eq]
  constructor
  · exact fun hlt => ⟨.inl hlt.1, hlt.2⟩
  · rintro ⟨hlt | rfl, hrel⟩
    · exact ⟨hlt, hrel⟩
    · exact absurd hrel (hR j)

theorem nodup_pushAt {lists : List (List Nat)} {count owner : Nat}
    (howner : owner < lists.length) (hnodup : ∀ j, (lists.getD j []).Nodup)
    (hlt : ∀ j, ∀ i ∈ lists.getD j [], i < count) (j : Nat) :
    ((pushAt lists owner count).getD j []).Nodup := by
  rw [getD_pushAt howner]
  split
  · refine List.nodup_append'.mpr ⟨hnodup j, List.nodup_singleton count, fun i hi hmem => ?_⟩
    exact absurd (hlt j i hi) (Nat.not_lt.mpr (List.mem_singleton.mp hmem).ge)
  · exact hnodup j

theorem length_pushAt (lists : List (List Nat)) (i n : Nat) :
    (pushAt lists i n).length = lists.length := List.length_modify _ _ _

/-! ## Placing -/

/-- The parents of a graph whose chains end, below the limit, inside the cells. -/
structure Grounded (cells : List Cell) (most : Nat) (graph : Graph) : Prop where
  length : graph.parents.length = cells.length
  inside : ∀ i p, graph.up i = some p → p < cells.length
  climbs : ∀ i < cells.length, Climbs graph.up i (graph.depths.getD i 0)
  shallow : ∀ i < cells.length, graph.depths.getD i 0 ≤ most

theorem Grounded.lt {most : Nat} (h : Grounded cells most graph) {p : Nat}
    (hp : graph.up i = some p) : i < cells.length := by
  by_contra hge
  rw [Graph.up, List.getD_eq_getElem?_getD,
    List.getElem?_eq_none (h.length ▸ Nat.not_lt.mp hge)] at hp
  cases hp

theorem Grounded.edgeFrom {most : Nat} (h : Grounded cells most graph) (hi : i < cells.length) :
    Drawio.edgeFrom cells graph.up (most + 1) (graph.up i) = some e ↔
      NearestEdge cells graph.up i e :=
  edgeFrom_eq_some (h.climbs i hi) ((h.shallow i hi).trans (Nat.le_succ most))

theorem place_granted {front : List Cell} {cell : Cell}
    (hcell : cells[front.length]? = some cell)
    (hgraph : Grounded cells options.maxNestingDepth graph)
    (h : Placed cells front.length graph) (out : Output σ) :
    Grants runtime deep (place runtime options cells front.length cell graph out) fun result =>
      Placed cells (front.length + 1) result.1 ∧ result.1.parents = graph.parents ∧
        result.1.depths = graph.depths ∧ result.2.diagnostics = out.diagnostics := by
  have hi : front.length < cells.length := (List.getElem?_eq_some_iff.mp hcell).1
  have hedge : IsEdge cells front.length ↔ cell.edge = true := by
    rw [IsEdge, hcell, Option.any_some]
  have hbelow : ∀ j, ∀ i ∈ graph.labels.getD j [], i < front.length :=
    fun j i hmem => ((h.mem_labels i j).mp hmem).1
  have hbelow' : ∀ j, ∀ i ∈ graph.children.getD j [], i < front.length :=
    fun j i hmem => ((h.mem_children i j).mp hmem).1
  rw [place]
  refine (checkpoint_granted out).bind fun out₁ h₁ => ?_
  refine (ownerFrom_granted (fun p hp => ?_) out₁).bind fun state hstate => ?_
  · obtain ⟨k, hk, hclimbs⟩ := (hgraph.climbs _ hi).of_link hp
    have hshallow := hgraph.shallow _ hi
    exact ⟨k, by omega, hclimbs⟩
  obtain ⟨owner, out₂⟩ := state
  obtain ⟨howner, hout⟩ := hstate
  dsimp only at howner hout ⊢
  have hnearest : ∀ e, owner = some e ↔ NearestEdge cells graph.up front.length e := by
    intro e
    rw [howner]
    exact hgraph.edgeFrom hi
  have hlabel : ∀ e, (owner.filter fun _ => !cell.edge) = some e ↔
      LabelOf cells graph.up front.length e := by
    intro e
    rw [Option.filter_eq_some_iff, hnearest, LabelOf, hedge, Bool.not_eq_true', Bool.not_eq_true,
      and_comm]
  have hdone : out₂.diagnostics = out.diagnostics := hout.trans h₁
  cases hfilter : owner.filter fun _ => !cell.edge with
  | some e =>
    have hthis : ∀ f, LabelOf cells graph.up front.length f ↔ f = e := by
      intro f
      rw [← hlabel, hfilter, Option.some.injEq, eq_comm]
    have hlength : e < graph.labels.length := by
      rw [h.labels_length]
      exact ((hthis e).mpr rfl).2.isEdge.lt
    have hno : ∀ p, ¬ ChildOf cells graph.up front.length p :=
      fun p hchild => hchild.2 e ((hthis e).mpr rfl)
    refine Grants.ok ⟨⟨h.children_length, ?_, h.children_nodup,
      nodup_pushAt hlength h.labels_nodup hbelow, mem_unchanged hno h.mem_children,
      mem_pushAt hlength hthis h.mem_labels⟩, rfl, rfl, hdone⟩
    exact (length_pushAt _ _ _).trans h.labels_length
  | none =>
    have hnone : ∀ e, ¬ LabelOf cells graph.up front.length e := by
      intro e hlabelled
      rw [← hlabel, hfilter] at hlabelled
      cases hlabelled
    cases hparent : graph.parents.getD front.length none with
    | some p =>
      have hthis : ∀ q, ChildOf cells graph.up front.length q ↔ q = p := by
        intro q
        rw [ChildOf, Graph.up, hparent, Option.some.injEq, and_iff_left hnone, eq_comm]
      have hlength : p < graph.children.length := by
        rw [h.children_length]
        exact hgraph.inside _ p hparent
      refine Grants.ok ⟨⟨?_, h.labels_length, nodup_pushAt hlength h.children_nodup hbelow',
        h.labels_nodup, mem_pushAt hlength hthis h.mem_children,
        mem_unchanged hnone h.mem_labels⟩, rfl, rfl, hdone⟩
      exact (length_pushAt _ _ _).trans h.children_length
    | none =>
      have hno : ∀ p, ¬ ChildOf cells graph.up front.length p := by
        intro p hchild
        rw [ChildOf, Graph.up, hparent] at hchild
        cases hchild.1
      exact Grants.ok ⟨⟨h.children_length, h.labels_length, h.children_nodup, h.labels_nodup,
        mem_unchanged hno h.mem_children, mem_unchanged hnone h.mem_labels⟩, rfl, rfl, hdone⟩

theorem placeFrom_granted {front rest : List Cell} (hcells : cells = front ++ rest)
    (hgraph : Grounded cells options.maxNestingDepth graph)
    (h : Placed cells front.length graph) (out : Output σ) :
    Grants runtime deep (placeFrom runtime options cells front.length rest graph out) fun result =>
      Placed cells cells.length result.1 ∧ result.1.parents = graph.parents ∧
        result.1.depths = graph.depths ∧ result.2.diagnostics = out.diagnostics := by
  induction rest generalizing front graph out with
  | nil =>
    rw [List.append_nil] at hcells
    exact Grants.ok ⟨hcells ▸ h, rfl, rfl, rfl⟩
  | cons cell rest ih =>
    rw [placeFrom]
    have hcell : cells[front.length]? = some cell := by
      rw [hcells, List.getElem?_append_right (Nat.le_refl _), Nat.sub_self]
      rfl
    refine (place_granted hcell hgraph h out).bind fun state hstate => ?_
    obtain ⟨hplaced, hparents, hdepths, hout⟩ := hstate
    have hup : state.1.up = graph.up := by
      funext i
      rw [Graph.up, hparents]
      rfl
    have hstill : Grounded cells options.maxNestingDepth state.1 := by
      refine ⟨hparents ▸ hgraph.length, hup ▸ hgraph.inside, ?_, ?_⟩
      · rw [hup, hdepths]
        exact hgraph.climbs
      · rw [hdepths]
        exact hgraph.shallow
    have hrest := @ih state.1 (front ++ [cell]) (by rw [hcells, List.append_assoc]; rfl) hstill
      (by rw [List.length_append]; exact hplaced) state.2
    rw [List.length_append, List.length_singleton] at hrest
    refine hrest.mono fun result hresult => ?_
    exact ⟨hresult.1, hresult.2.1.trans hparents, hresult.2.2.1.trans hdepths,
      hresult.2.2.2.trans hout⟩

/-! ## The walk -/

theorem LabelOf.unique {f : Nat} (he : LabelOf cells up i e) (hf : LabelOf cells up i f) : e = f :=
  he.2.unique hf.2

theorem Grounded.hangs_eq_some {most : Nat} (h : Grounded cells most graph) (hi : i < cells.length)
    (a : Nat) : hangs cells graph.up (most + 1) i = some a ↔
      LabelOf cells graph.up i a ∨ ChildOf cells graph.up i a := by
  have hlabel : ∀ e, ((Drawio.edgeFrom cells graph.up (most + 1) (graph.up i)).filter
      fun _ => !(cells[i]?).any Cell.edge) = some e ↔ LabelOf cells graph.up i e := by
    intro e
    rw [Option.filter_eq_some_iff, h.edgeFrom hi, LabelOf, IsEdge, Bool.not_eq_true',
      Bool.not_eq_true, and_comm]
  rw [hangs]
  cases hfilter : (Drawio.edgeFrom cells graph.up (most + 1) (graph.up i)).filter
      fun _ => !(cells[i]?).any Cell.edge with
  | some e =>
    have he := (hlabel e).mp hfilter
    rw [Option.some_or, Option.some.injEq]
    constructor
    · rintro rfl
      exact .inl he
    · rintro (hother | hchild)
      · exact he.unique hother
      · exact absurd he (hchild.2 e)
  | none =>
    have hnone : ∀ e, ¬ LabelOf cells graph.up i e := by
      intro e he
      rw [← hlabel, hfilter] at he
      cases he
    rw [Option.none_or, ChildOf, and_iff_left hnone, or_iff_right (hnone a)]

theorem Placed.rooted {most : Nat} (hgraph : Grounded cells most graph)
    (h : Placed cells cells.length graph) :
    Rooted (fun i => if i < cells.length then hangs cells graph.up (most + 1) i else none)
      (List.range cells.length) graph.below (fun i => graph.depths.getD i 0) := by
  have hiff : ∀ i a, (if i < cells.length then hangs cells graph.up (most + 1) i else none) =
      some a ↔ i < cells.length ∧ (LabelOf cells graph.up i a ∨ ChildOf cells graph.up i a) := by
    intro i a
    split
    · next hi => rw [hgraph.hangs_eq_some hi, and_iff_right hi]
    · next hi => exact iff_of_false (fun hnone => by cases hnone) fun hlt => hi hlt.1
  have hlinks : ∀ i a, (LabelOf cells graph.up i a ∨ ChildOf cells graph.up i a) →
      TransGen (Link graph.up) i a := by
    rintro i a (hlabel | hchild)
    · exact hlabel.2.links
    · exact .single hchild.1
  refine ⟨List.nodup_range, fun i a hia => ?_, fun a => ?_, fun a i => ?_, fun i _ a hia => ?_⟩
  · obtain ⟨hi, hplace⟩ := (hiff i a).mp hia
    obtain ⟨k, hk, hclimbs⟩ := (hgraph.climbs i hi).of_transGen (hlinks i a hplace)
    have ha : a < cells.length := by
      obtain ⟨j, -, hlink⟩ := TransGen.tail'_iff.mp (hlinks i a hplace)
      exact hgraph.inside j a hlink
    rw [(hgraph.climbs a ha).unique hclimbs]
    exact hk
  · refine List.nodup_append'.mpr ⟨h.children_nodup a, h.labels_nodup a, fun i hi hlabel => ?_⟩
    exact ((h.mem_children i a).mp hi).2.2 a ((h.mem_labels i a).mp hlabel).2
  · rw [hiff, Graph.below, List.mem_append, h.mem_children, h.mem_labels, List.mem_range]
    tauto
  · obtain ⟨-, hplace⟩ := (hiff i a).mp hia
    obtain ⟨j, -, hlink⟩ := TransGen.tail'_iff.mp (hlinks i a hplace)
    exact List.mem_range.mpr (hgraph.inside j a hlink)

/-- The walk from the roots meets every cell, and none twice. -/
theorem Placed.walk_perm {most : Nat} (hgraph : Grounded cells most graph)
    (h : Placed cells cells.length graph) :
    (graph.walk cells.length most).Perm (List.range cells.length) := by
  have hrooted := h.rooted hgraph
  have hwalk := hrooted.walk_perm fun i hi => hgraph.shallow i (List.mem_range.mp hi)
  have hroots : ((List.range cells.length).filter fun i =>
      (if i < cells.length then hangs cells graph.up (most + 1) i else none) = none) =
      graph.roots cells.length := by
    refine List.filter_congr fun i hi => ?_
    have hlt := List.mem_range.mp hi
    rw [if_pos hlt, decide_eq_decide]
    constructor
    · intro hnone
      rw [hangs, Option.or_eq_none_iff] at hnone
      exact hnone.2
    · intro hnone
      rw [hangs, hnone, edgeFrom]
      rfl
  rw [hroots] at hwalk
  exact hwalk

end

end IntoMarkdown.Drawio
