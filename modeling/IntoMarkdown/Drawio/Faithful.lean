import IntoMarkdown.Drawio.Places

/-! # The graph is a faithful forest

Where defects are recorded, a graph is built unless a limit is reached. Its parents are the
resolved ones with one link cut on each cycle, and each cell has one place. -/

namespace IntoMarkdown.Drawio
open Lib Strings Converters Relation Forest

/-- The place of a cell. -/
inductive Role where
  | root
  | child (parent : Nat)
  | label (edge : Nat)
  deriving DecidableEq, Repr

def Graph.Has (graph : Graph) (i : Nat) : Role → Prop
  | .root => graph.up i = none
  | .child p => i ∈ graph.children.getD p []
  | .label e => i ∈ graph.labels.getD e []

/-- A chain of resolved parents, up to a cut link, is longer than the limit. -/
def TooDeep (cells : List Cell) (most : Nat) : Prop :=
  ∃ up, (∀ i p, up i = some p ↔ NamesParent cells i p) ∧ Deep up most

structure Faithful {σ : Type} (cells : List Cell) (locations : List SourceLocator) (most : Nat)
    (out : Output σ) (result : Graph × Output σ) : Prop where
  /-- The parents are the resolved ones with one link cut on each cycle, which is reported. -/
  parents : ∃ up cut, (∀ i p, up i = some p ↔ NamesParent cells i p) ∧
    Cut up result.1.up cut ∧ OnePerCycle up cut ∧
    cycleReports result.2 = cycleReports out ++ cut.map (cycleReport locations)
  acyclic : ∀ i, ¬ TransGen (Link result.1.up) i i
  depths : ∀ i < cells.length, Climbs result.1.up i (result.1.depths.getD i 0)
  role : ∀ i < cells.length, ∃! role, result.1.Has i role
  once : ∀ i, (result.1.children.getD i []).Nodup ∧ (result.1.labels.getD i []).Nodup
  child : ∀ i p, result.1.Has i (.child p) → result.1.up i = some p
  label : ∀ i e, result.1.Has i (.label e) ↔ i < cells.length ∧ LabelOf cells result.1.up i e
  walk : (result.1.walk cells.length most).Perm (List.range cells.length)

section
variable {σ : Type} {runtime : Runtime σ} {options : Options} {deep : Prop} {cells : List Cell}
  {graph : Graph} {locations : List SourceLocator}

theorem Placed.role (h : Placed cells cells.length graph) {i : Nat} (hi : i < cells.length) :
    ∃! role, graph.Has i role := by
  have hchild : ∀ p, graph.Has i (.child p) ↔ ChildOf cells graph.up i p := by
    intro p
    rw [Graph.Has, h.mem_children, and_iff_right hi]
  have hlabel : ∀ e, graph.Has i (.label e) ↔ LabelOf cells graph.up i e := by
    intro e
    rw [Graph.Has, h.mem_labels, and_iff_right hi]
  have hroot : ∀ e, LabelOf cells graph.up i e → graph.up i ≠ none := by
    intro e he hnone
    obtain ⟨p, hp⟩ := he.2.exists_parent
    rw [hnone] at hp
    cases hp
  by_cases hedge : ∃ e, LabelOf cells graph.up i e
  · obtain ⟨e, he⟩ := hedge
    refine ⟨.label e, (hlabel e).mpr he, fun role hrole => ?_⟩
    cases role with
    | root => exact absurd hrole (hroot e he)
    | child p => exact absurd he (((hchild p).mp hrole).2 e)
    | label f => rw [((hlabel f).mp hrole).unique he]
  · have hnone : ∀ e, ¬ LabelOf cells graph.up i e := not_exists.mp hedge
    cases hup : graph.up i with
    | none =>
      refine ⟨.root, hup, fun role hrole => ?_⟩
      cases role with
      | root => rfl
      | child p =>
        have hparent := ((hchild p).mp hrole).1
        rw [hup] at hparent
        cases hparent
      | label e => exact absurd ((hlabel e).mp hrole) (hnone e)
    | some p =>
      refine ⟨.child p, (hchild p).mpr ⟨hup, hnone⟩, fun role hrole => ?_⟩
      cases role with
      | root =>
        rw [Graph.Has, hup] at hrole
        cases hrole
      | child q =>
        have hparent := ((hchild q).mp hrole).1
        rw [hup] at hparent
        rw [Option.some.inj hparent]
      | label e => exact absurd ((hlabel e).mp hrole) (hnone e)

theorem placed_start {ids : Ids} {parents : Parents} {depths : List Nat} :
    Placed cells 0 ⟨ids, parents, cells.map fun _ => [], depths, cells.map fun _ => []⟩ := by
  have hnil : ∀ j, (cells.map fun _ => ([] : List Nat)).getD j [] = [] := by
    intro j
    rw [List.getD_eq_getElem?_getD, List.getElem?_map]
    cases cells[j]? <;> rfl
  refine ⟨List.length_map _, List.length_map _, fun j => ?_, fun j => ?_, fun i j => ?_,
    fun i j => ?_⟩
  · exact (hnil j).symm ▸ .nil
  · exact (hnil j).symm ▸ .nil
  all_goals
    dsimp only
    rw [hnil]
    exact iff_of_false List.not_mem_nil fun h => Nat.not_lt_zero i h.1

/-- The parents that resolving gives. -/
theorem parents_resolved {ids : Ids} (hids : Complete ids cells) (i p : Nat) :
    (cells.map (parentOf ids)).getD i none = some p ↔ NamesParent cells i p := by
  rw [List.getD_eq_getElem?_getD, List.getElem?_map, NamesParent]
  cases hcell : cells[i]? with
  | none =>
    refine iff_of_false (fun h => by cases h) ?_
    rintro ⟨cell, heq, -⟩
    cases heq
  | some cell =>
    rw [Option.map_some, Option.getD_some, parentOf_eq_some hids]
    constructor
    · exact fun h => ⟨cell, rfl, h⟩
    · rintro ⟨other, heq, h⟩
      exact Option.some.inj heq ▸ h

theorem NamesParent.lt {i p : Nat} (h : NamesParent cells i p) : p < cells.length := by
  obtain ⟨_, _, _, hnamed⟩ := h
  obtain ⟨_, hcell, -⟩ := (hnamed p).mpr rfl
  exact (List.getElem?_eq_some_iff.mp hcell).1

theorem Grants.mono_deep {α : Type} {deep' : Prop} {x : Except Stop α} {Q : α → Prop}
    (h : Grants runtime deep x Q) (himp : deep → deep') : Grants runtime deep' x Q := by
  rcases h with hok | ⟨stop, hx, hstop⟩
  · exact .inl hok
  · refine .inr ⟨stop, hx, ?_⟩
    cases hstop with
    | interrupted h => exact .interrupted h
    | memory h => exact .memory h
    | diagnostics => exact .diagnostics
    | nesting h => exact .nesting (himp h)

end

/-! ## A cycle with a label -/

def sampleCell (fields : List (String × String)) : Cell :=
  ⟨fun key => (fields.lookup (String.ofList key)).map String.toList⟩

def sampleCells : List Cell :=
  [sampleCell [("id", "a"), ("parent", "b")], sampleCell [("id", "b"), ("parent", "a")],
    sampleCell [("id", "e"), ("parent", "a"), ("edge", "1")],
    sampleCell [("id", "l"), ("parent", "e"), ("vertex", "1")],
    sampleCell [("id", "l"), ("parent", "missing")]]

/-- A context that grants everything. -/
def sampleRuntime : Runtime Unit := ⟨.ok, fun _ _ => .ok (), fun _ _ => .ok (), fun _ n => .ok (n, ())⟩

def sampleOptions : Options := ⟨.bestEffort, 64, 256⟩

end IntoMarkdown.Drawio
