import IntoMarkdown.Docx.Merging

/-! # Merged tables are the grid of their source

The loops of `normalize_vertical_merges` over cells and over rows. -/

namespace IntoMarkdown.Docx
open Lib Lib.Tiling Ir

section
variable {β : Type} {visible : List β → Bool} {rows : List (TableRow β)}
  {declarations : List (List VerticalMerge)} {W r C i : Nat} {cell : Cell β}
  {top : Board β} {now : List (Piece β)} {active : ActiveMerges} {state : Merging β}
  {key : Nat × Nat}

/-! ## One row -/

theorem declared_eq (declarations : List (List VerticalMerge)) (r i : Nat) :
    ((declarations.getD r []).drop i).headD .none = declared declarations r i := by
  rw [declared, List.headD_eq_head?_getD, List.head?_drop]
  exact (List.getD_eq_getElem?_getD ..).symm

/-- The cells of a row from one on. -/
theorem mergeCells_going (part : String) {before cells : List (Cell β)}
    (h : Going visible rows declarations W r (before.map Cell.width).sum active state top now)
    (hrow : rows[r]? = some ⟨before ++ cells⟩)
    (hpos : ∀ j c cell, Stands rows r j c cell → 0 < Cell.width cell)
    (hwithin : ((before ++ cells).map Cell.width).sum ≤ W)
    (hspan : ∀ cell ∈ cells, cell.rowSpan = 1) (hW : W < 2 ^ 64) :
    (∃ state' top' now', mergeCells visible part active state cells
        ((declarations.getD r []).drop before.length) = .ok state' ∧
      Going visible rows declarations W r ((before ++ cells).map Cell.width).sum active state'
        top' now') ∨
      (mergeCells visible part active state cells ((declarations.getD r []).drop before.length) =
        .error spanOverflow ∧ 2 ^ 32 ≤ r + 1) := by
  induction cells generalizing before state top now with
  | nil =>
    rw [List.append_nil]
    exact .inl ⟨state, top, now, rfl, h⟩
  | cons cell cells ih =>
    have hcell : Stands rows r before.length (before.map Cell.width).sum cell :=
      ⟨before, cells, hrow, rfl, rfl⟩
    obtain ⟨hone, hspan⟩ := List.forall_mem_cons.mp hspan
    have hsum : (before.map Cell.width).sum + Cell.width cell ≤ W := by
      rw [List.map_append, List.sum_append, List.map_cons, List.sum_cons] at hwithin
      omega
    have hnext : ((before ++ [cell]).map Cell.width).sum =
        (before.map Cell.width).sum + Cell.width cell := by
      rw [List.map_append, List.sum_append, List.map_singleton, List.sum_singleton]
    rw [mergeCells, declared_eq, List.tail_drop]
    rcases mergeCell_going part h hcell hpos hsum hone hW with
      ⟨state', top', now', hok, hgoing⟩ | ⟨herror, hover⟩
    · rw [← hnext] at hgoing
      rw [List.append_cons] at hrow hwithin ⊢
      have hrest := ih hgoing hrow hwithin hspan
      rw [List.length_append, List.length_singleton] at hrest
      rw [hok]
      exact hrest
    · rw [herror]
      exact .inr ⟨rfl, hover⟩

/-! ## All rows -/

/-- Before row `r`. -/
structure Between (visible : List β → Bool) (rows : List (TableRow β))
    (declarations : List (List VerticalMerge)) (W r : Nat) (active : ActiveMerges)
    (top : Board β) : Prop where
  length : top.length = r
  mid : Mid visible rows declarations W r 0 (top ++ [[]])
  earlier : Earlier visible rows declarations (top ++ [[]]) active 0 r

theorem Between.going (h : Between visible rows declarations W r active top)
    (diagnostics : List Diagnostic) : Going visible rows declarations W r 0 active
      ⟨top.shown, [], .empty, 0, diagnostics⟩ top [] where
  isRows := rfl
  output := rfl
  column := rfl
  length := h.length
  mid := h.mid
  earlier := h.earlier
  current := ⟨fun c _ hc => absurd hc (Nat.not_lt_zero c),
    fun _ c _ _ hc => absurd hc (Nat.not_lt_zero c)⟩
  fresh _ _ := rfl

theorem flatten_nil_last (top : Board β) : (top ++ [[]]).flatten = top.flatten := by
  rw [List.flatten_concat, List.append_nil]

/-- When a row is full, the next one begins. -/
theorem Going.between (h : Going visible rows declarations W r W active state top now)
    (hcolumns : ∀ i c cell, Stands rows r i c cell → c < W) :
    Between visible rows declarations W (r + 1) state.nextActive (top ++ [now]) where
  length := by rw [List.length_append, List.length_singleton, h.length]
  mid := by
    constructor
    case ok =>
      rw [flatten_nil_last]
      intro p hp
      have hok := h.mid.ok p hp
      exact { hok with below := Nat.le_succ_of_le hok.below }
    case rowOf =>
      intro r' pieces hpieces
      rcases getElem?_last hpieces with hrow | ⟨-, rfl⟩
      · exact h.mid.rowOf r' pieces hrow
      · exact fun p hp => absurd hp List.not_mem_nil
    case order =>
      rw [flatten_nil_last]
      exact h.mid.order
    case front =>
      rw [flatten_nil_last]
      intro p hp hrow
      have hok := h.mid.ok p hp
      have hheight := hok.height
      have hbelow := hok.below
      omega
    case full =>
      rw [flatten_nil_last]
      intro r' hr' c hc
      by_cases hlt : r' < r
      · exact h.mid.full r' hlt c hc
      · obtain rfl : r' = r := by omega
        rw [h.mid.passed c, if_pos hc]
    case passed =>
      rw [flatten_nil_last]
      intro c
      refine coverage_eq_zero.mpr fun rect hrect hcovers => ?_
      obtain ⟨p, hp, rfl⟩ := List.mem_map.mp hrect
      have hbelow := (h.mid.ok p hp).below
      have := covers_iff.mp hcovers
      omega
    case owners =>
      rw [flatten_nil_last]
      intro r' i c cell hcell hdone
      refine h.mid.owners r' i c cell hcell ?_
      by_cases hlt : r' < r
      · exact .inl hlt
      · obtain rfl : r' = r := by omega
        exact .inr ⟨rfl, hcolumns i c cell hcell⟩
  earlier := by
    constructor
    · intro c m _ hlookup
      have hc : c < W := by
        by_contra hc
        rw [h.fresh c (Nat.not_lt.mp hc)] at hlookup
        cases hlookup
      obtain ⟨p, hp, hrest⟩ := h.current.tracks c m hc hlookup
      exact ⟨p, locate_append hp _, hrest⟩
    · intro j c cell key _ hcell hmerges
      exact h.current.complete j c cell key (hcolumns j c cell hcell) hcell hmerges

/-- Rows of one width whose cells span one row each. -/
structure Rectangular (rows : List (TableRow β)) (W : Nat) : Prop where
  width : ∀ row ∈ rows, rowWidth row = W
  spans : ∀ row ∈ rows, ∀ cell ∈ row.cells, cell.rowSpan = 1 ∧ 0 < cell.columnSpan
  bounded : W < 2 ^ 64

theorem Rectangular.stands (h : Rectangular rows W) (hcell : Stands rows r i C cell) :
    0 < Cell.width cell ∧ C + Cell.width cell ≤ W := by
  obtain ⟨before, after, hrow, -, rfl⟩ := hcell
  have hmem := List.mem_of_getElem? hrow
  have hspan := (h.spans _ hmem cell (List.mem_append_right _ List.mem_cons_self)).2
  have hwidth : ((before ++ cell :: after).map Cell.width).sum = W := h.width _ hmem
  rw [List.map_append, List.sum_append, List.map_cons, List.sum_cons] at hwidth
  exact ⟨hspan, by omega⟩

theorem mergeRows_between (part : String) (hrect : Rectangular rows W) {rest : List (TableRow β)}
    (h : Between visible rows declarations W r active top) (hrest : rows.drop r = rest)
    (diagnostics : List Diagnostic) :
    (∃ out active' top', mergeRows visible part top.shown active diagnostics rest
        (declarations.drop r) = .ok out ∧ out.1 = top'.shown ∧
      Between visible rows declarations W (r + rest.length) active' top') ∨
      (mergeRows visible part top.shown active diagnostics rest (declarations.drop r) =
        .error spanOverflow ∧ 2 ^ 32 ≤ r + rest.length) := by
  induction rest generalizing r active top diagnostics with
  | nil => exact .inl ⟨_, active, top, rfl, rfl, h⟩
  | cons row rest ih =>
    have hrow : rows[r]? = some row := by
      rw [← List.head?_drop, hrest, List.head?_cons]
    have hmem := List.mem_of_getElem? hrow
    have hwidth : ((([] : List (Cell β)) ++ row.cells).map Cell.width).sum = W :=
      hrect.width row hmem
    have hheadD : (declarations.drop r).headD [] = declarations.getD r [] := by
      rw [List.headD_eq_head?_getD, List.head?_drop, List.getD_eq_getElem?_getD]
    have hstart : Going visible rows declarations W r (([] : List (Cell β)).map Cell.width).sum
        active _ top [] := h.going diagnostics
    have hcells := mergeCells_going part hstart hrow
      (fun j c cell hcell => (hrect.stands hcell).1) hwidth.le
      (fun cell hcell => (hrect.spans row hmem cell hcell).1) hrect.bounded
    rw [hwidth, List.length_nil, List.drop_zero] at hcells
    rw [mergeRows, hheadD, List.tail_drop]
    rcases hcells with ⟨state, top', now, hok, hgoing⟩ | ⟨herror, hover⟩
    · have hnext := hgoing.between fun i c cell hcell => by
        have := hrect.stands hcell
        omega
      have hdrop : rows.drop (r + 1) = rest := by
        rw [← List.tail_drop, hrest, List.tail_cons]
      have hshown : state.rows ++ [⟨state.outputCells⟩] = Board.shown (top' ++ [now]) := by
        rw [hgoing.isRows, hgoing.output, Board.shown, Board.shown, List.map_append,
          List.map_singleton]
      have hrest := ih hnext hdrop state.diagnostics
      rw [hok, List.length_cons, show r + (rest.length + 1) = r + 1 + rest.length by omega]
      rw [← hshown] at hrest
      exact hrest
    · rw [herror, List.length_cons]
      exact .inr ⟨rfl, by omega⟩

/-! ## The grid -/

theorem between_start : Between visible rows declarations W 0 .empty [] where
  length := rfl
  mid := by
    constructor
    case ok => exact fun p hp => absurd hp List.not_mem_nil
    case rowOf =>
      intro r' pieces hpieces
      rcases getElem?_last hpieces with hrow | ⟨-, rfl⟩
      · cases hrow
      · exact fun p hp => absurd hp List.not_mem_nil
    case order => exact List.Pairwise.nil
    case front => exact fun p hp => absurd hp List.not_mem_nil
    case full => exact fun r' hr' => absurd hr' (Nat.not_lt_zero r')
    case passed => exact fun c => rfl
    case owners =>
      intro r' i c cell _ hdone
      omega
  earlier _ := rfl

theorem itemsFrom_shown {top : Board β} {r : Nat}
    (hrow : ∀ r' (pieces : List (Piece β)), top[r']? = some pieces →
      ∀ p ∈ pieces, p.rect.row = r + r')
    (hok : ∀ p ∈ top.flatten, p.rect.width = Cell.width p.source ∧ p.rect.height < 2 ^ 32) :
    itemsFrom r (extents top.shown) = (top.flatten.map Piece.rect).map Rect.item := by
  induction top generalizing r with
  | nil => rfl
  | cons pieces top ih =>
    rw [List.flatten_cons] at hok
    obtain ⟨hpieces, htop⟩ := List.forall_mem_append.mp hok
    have hrest := @ih (r + 1) (fun r' pieces h p hp => by
      have := hrow (r' + 1) pieces h p hp
      omega) htop
    rw [List.flatten_cons, List.map_append, List.map_append, ← hrest]
    refine congrArg (· ++ itemsFrom (r + 1) (extents (Board.shown top))) ?_
    rw [rowItems, TableRow.extents, List.map_map, List.map_map, List.map_map]
    refine List.map_congr_left fun p hp => ?_
    obtain ⟨hwidth, hshort⟩ := hpieces p hp
    have hfirst := hrow 0 pieces rfl p hp
    simp only [Function.comp_apply, Cell.extent, Piece.cell, Rect.item,
      UInt32.toNat_ofNat_of_lt' hshort, hwidth, hfirst, Nat.add_zero]
    rfl

theorem Between.sourceGrid (h : Between visible rows declarations W rows.length active top)
    (hrect : Rectangular rows W) :
    SourceGrid visible rows declarations top.shown W top.flatten := by
  have hok : ∀ p ∈ top.flatten, PieceOk rows (rows.length + 1) W p := by
    have hok := h.mid.ok
    rwa [flatten_nil_last] at hok
  have hpos : ∀ rect ∈ top.flatten.map Piece.rect, 0 < rect.height ∧ 0 < rect.width := by
    intro rect hrect'
    obtain ⟨p, hp, rfl⟩ := List.mem_map.mp hrect'
    refine ⟨(hok p hp).height, ?_⟩
    rw [(hok p hp).width]
    exact (hrect.stands (hok p hp).source).1
  have htiles : Tiles rows.length W (top.flatten.map Piece.rect) := by
    constructor
    · have hfull := h.mid.full
      rwa [flatten_nil_last] at hfull
    · intro rect hmem
      obtain ⟨p, hp, rfl⟩ := List.mem_map.mp hmem
      refine ⟨?_, (hok p hp).within⟩
      by_contra hlong
      have hempty := h.mid.passed p.rect.column
      rw [flatten_nil_last, if_neg (Nat.not_lt_zero _)] at hempty
      have hbelow := (hok p hp).below
      have hsize := hpos p.rect hmem
      exact coverage_eq_zero.mp hempty p.rect hmem (covers_iff.mpr (by
        have := (hok p hp).row
        have hrow := h.mid.front
        rw [flatten_nil_last] at hrow
        have hne := fun heq => Nat.not_lt_zero _ (hrow p hp heq)
        omega))
  have howners : ∀ r i c cell, Stands rows r i c cell →
      Owned visible rows declarations top.flatten r i c cell := by
    intro r i c cell hcell
    have howners := h.mid.owners r i c cell hcell
    rw [flatten_nil_last] at howners
    obtain ⟨before, after, hrow, -, -⟩ := hcell
    exact howners (.inl (List.getElem?_eq_some_iff.mp hrow).1)
  constructor
  case cells =>
    rw [Board.shown, List.flatMap_map, List.map_flatten, List.flatMap_def]
  case placed =>
    have horder := h.mid.order
    rw [flatten_nil_last] at horder
    have hrow : ∀ r' (pieces : List (Piece β)), top[r']? = some pieces →
        ∀ p ∈ pieces, p.rect.row = 0 + r' := by
      intro r' pieces hpieces p hp
      rw [Nat.zero_add]
      refine h.mid.rowOf r' pieces ?_ p hp
      rw [List.getElem?_append_left (List.getElem?_eq_some_iff.mp hpieces).1, hpieces]
    rw [itemsFrom_shown hrow fun p hp => ⟨(hok p hp).width, (hok p hp).short⟩]
    exact htiles.places hpos horder
  case tiles => exact htiles
  case sources => exact fun p hp => (hok p hp).source
  case owners => exact howners
  case kept =>
    intro r i c cell hcell hvisible
    obtain ⟨p, hp, ⟨hcontinues, hmerges⟩ | ⟨-, hkey⟩, -⟩ := howners r i c cell hcell
    · rcases hmerges.cases_cell hcell with ⟨hrestart, -⟩ | ⟨-, hblank, -⟩
      · rw [hcontinues] at hrestart
        cases hrestart
      · rw [hvisible] at hblank
        cases hblank
    · exact ⟨p, hp, hkey⟩

end

end IntoMarkdown.Docx
