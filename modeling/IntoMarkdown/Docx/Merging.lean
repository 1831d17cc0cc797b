import IntoMarkdown.Docx.Pieces

/-! # One cell of a merge

What one turn of the loop over the cells of a row keeps: the pieces so far, and the merges that
are active. -/

namespace IntoMarkdown.Docx
open Lib Lib.Tiling Ir

section
variable {β : Type} {visible : List β → Bool} {rows : List (TableRow β)}
  {declarations : List (List VerticalMerge)} {W r C i c : Nat} {cell : Cell β} {p q : Piece β}
  {board above : Board β} {now : List (Piece β)} {m m' : ActiveVerticalMerge}
  {active next : ActiveMerges} {P Q : Nat → Prop}

/-! ## Active merges -/

theorem locate_last (h : locate (above ++ [now]) m = some p) (q : Piece β) :
    locate (above ++ [now ++ [q]]) m = some p := by
  obtain ⟨pieces, hrow, hcell⟩ := locate_eq_some.mp h
  rcases getElem?_last hrow with hrow | ⟨heq, rfl⟩
  · exact locate_append (locate_eq_some.mpr ⟨pieces, hrow, hcell⟩) _
  · refine locate_eq_some.mpr ⟨pieces ++ [q], by rw [heq, List.getElem?_concat_length], ?_⟩
    rw [List.getElem?_append_left (List.getElem?_eq_some_iff.mp hcell).1, hcell]

theorem Active.mono {board' : Board β} (h : Active visible rows declarations board active r P Q)
    (hlocate : ∀ c m p, P c → locate board m = some p → p.rect.column = c →
      locate board' m = some p) : Active visible rows declarations board' active r P Q where
  tracks := by
    intro c m hc hlookup
    obtain ⟨p, hp, hcolumn, hrest⟩ := h.tracks c m hc hlookup
    exact ⟨p, hlocate c m p hc hp hcolumn, hcolumn, hrest⟩
  complete := h.complete

theorem Active.weaken {P' Q' : Nat → Prop}
    (h : Active visible rows declarations board active r P Q) (hP : ∀ c, P' c → P c)
    (hQ : ∀ c, Q' c → Q c) : Active visible rows declarations board active r P' Q' where
  tracks c m hc := h.tracks c m (hP c hc)
  complete j c cell key hc := h.complete j c cell key (hQ c hc)

section
variable (h : Active visible rows declarations board next r (· < C) (· < C))
  (hfresh : ∀ c, C ≤ c → next.lookup c = none) (hcell : Stands rows r i C cell)
  (hpos : ∀ j c cell, Stands rows r j c cell → 0 < Cell.width cell)
include h hfresh hcell hpos

/-- A merge of row `r` that begins at column `C` is noted. -/
theorem Active.insert (hm : m.width = Cell.width cell)
    (htracks : Tracks visible rows declarations board r C m) :
    Active visible rows declarations board (next.insert C m) r (· < C + Cell.width cell)
      (· < C + Cell.width cell) where
  tracks := by
    intro c m' _ hlookup
    rw [OrderedMap.lookup_insert] at hlookup
    split at hlookup
    · rename_i hc
      rw [hc, ← Option.some.inj hlookup]
      exact htracks
    · by_cases hlt : c < C
      · exact h.tracks c m' hlt hlookup
      · rw [hfresh c (by omega)] at hlookup
        cases hlookup
  complete := by
    intro j c cell' key hc hcell' hmerges
    rw [OrderedMap.lookup_insert]
    by_cases hlt : c < C
    · rw [if_neg hlt.ne]
      exact h.complete j c cell' key hlt hcell' hmerges
    · have hindex := hcell.index_eq hcell' (hpos _ _ _ hcell') (by omega) hc
      subst hindex
      obtain ⟨rfl, rfl⟩ := hcell.unique hcell'
      exact ⟨m, if_pos rfl, hm⟩

/-- No merge of row `r` begins at column `C`. -/
theorem Active.skip (hnone : ∀ key, ¬ Merges visible rows declarations r i key) :
    Active visible rows declarations board next r (· < C + Cell.width cell)
      (· < C + Cell.width cell) where
  tracks := by
    intro c m' _ hlookup
    by_cases hlt : c < C
    · exact h.tracks c m' hlt hlookup
    · rw [hfresh c (by omega)] at hlookup
      cases hlookup
  complete := by
    intro j c cell' key hc hcell' hmerges
    by_cases hlt : c < C
    · exact h.complete j c cell' key hlt hcell' hmerges
    · have hindex := hcell.index_eq hcell' (hpos _ _ _ hcell') (by omega) hc
      subst hindex
      exact absurd hmerges (hnone key)

end

theorem Earlier.mono {board' : Board β} {C' : Nat}
    (h : Earlier visible rows declarations board active C r) (hle : C ≤ C')
    (hlocate : ∀ c m p, C' ≤ c → locate board m = some p → p.rect.column = c →
      locate board' m = some p) : Earlier visible rows declarations board' active C' r := by
  cases r with
  | zero => exact h
  | succ r =>
    have hweak : Active visible rows declarations board active r (C' ≤ ·) (C' ≤ ·) :=
      Active.weaken h (fun c hc => Nat.le_trans hle hc) fun c hc => Nat.le_trans hle hc
    exact hweak.mono hlocate

/-! ## The origin of a merge -/

theorem getElem?_shown {r : Nat} {pieces : List (Piece β)} (h : above[r]? = some pieces) :
    above.shown[r]? = some ⟨pieces.map Piece.cell⟩ := by
  rw [Board.shown, List.getElem?_map, h]
  rfl

theorem put_eq {pieces : List (Piece β)} (hrow : above[m.originRow]? = some pieces)
    (q : Piece β) : above.put m q = above.take m.originRow ++
      pieces.set m.originCell q :: above.drop (m.originRow + 1) := by
  obtain ⟨hr, rfl⟩ := List.getElem?_eq_some_iff.mp hrow
  rw [Board.put, List.modify_eq_take_cons_drop hr]

theorem put_append (h : locate above m = some p) (more : Board β) (q : Piece β) :
    Board.put (above ++ more) m q = above.put m q ++ more := by
  obtain ⟨pieces, hrow, -⟩ := locate_eq_some.mp h
  have hr := (List.getElem?_eq_some_iff.mp hrow).1
  have hrow' : (above ++ more)[m.originRow]? = some pieces := by
    rw [List.getElem?_append_left hr, hrow]
  rw [put_eq hrow, put_eq hrow', List.take_append_of_le_length hr.le,
    List.drop_append_of_le_length hr, List.append_assoc, List.cons_append]

theorem locate_put_self (h : locate board m = some p) (q : Piece β) :
    locate (board.put m q) m = some q := by
  obtain ⟨pieces, hrow, hcell⟩ := locate_eq_some.mp h
  refine locate_eq_some.mpr ⟨pieces.set m.originCell q, ?_, ?_⟩
  · rw [Board.put, List.getElem?_modify, hrow, Option.map_eq_map, Option.map_some, if_pos rfl]
  · rw [List.getElem?_set_self (List.getElem?_eq_some_iff.mp hcell).1]

def spanOverflow : ConversionError := limit "max_table_rows" "vertical merge span overflow"

theorem extendOrigin_shown (part : String) (h : locate above m = some p)
    (hshort : p.rect.height < 2 ^ 32) : extendOrigin part above.shown m =
      if 2 ^ 32 ≤ p.rect.height + 1 then .error spanOverflow
      else .ok (above.put m p.taller).shown := by
  obtain ⟨pieces, hrow, hcell⟩ := locate_eq_some.mp h
  have hshown := getElem?_shown hrow
  have hspan : p.cell.rowSpan.toNat = p.rect.height := UInt32.toNat_ofNat_of_lt' hshort
  have hfound : (above.shown[m.originRow]?.bind fun row => row.cells[m.originCell]?) =
      some p.cell := by
    rw [hshown, Option.bind_some, List.getElem?_map, hcell, Option.map_some]
  rw [extendOrigin, hfound]
  simp only [hspan]
  by_cases hover : 2 ^ 32 ≤ p.rect.height + 1
  · rw [if_pos hover, refuse_of hover]
    rfl
  · rw [if_neg hover, refuse_of_not hover]
    obtain ⟨hr, hpieces⟩ := List.getElem?_eq_some_iff.mp hshown
    have htaller : ({ p.cell with rowSpan := p.cell.rowSpan + 1 } : Cell β) = p.taller.cell := by
      refine congrArg (fun span => ({ p.source with rowSpan := span } : Cell β)) ?_
      exact (UInt32.ofNat_add p.rect.height 1).symm
    have hmodify := List.modify_eq_take_cons_drop
      (f := fun row : TableRow β => (⟨row.cells.set m.originCell p.taller.cell⟩ : TableRow β)) hr
    rw [hpieces] at hmodify
    rw [htaller, put_eq hrow]
    refine congrArg Except.ok (hmodify.trans ?_)
    simp only [Board.shown, List.map_append, List.map_cons, List.map_set, List.map_take,
      List.map_drop]

end

/-! ## One cell -/

section
variable {β : Type} (visible : List β → Bool) (rows : List (TableRow β))
  (declarations : List (List VerticalMerge))

/-- The loop over the cells of row `r` is at column `C`. -/
structure Going (W r C : Nat) (active : ActiveMerges) (state : Merging β) (top : Board β)
    (now : List (Piece β)) : Prop where
  isRows : state.rows = top.shown
  output : state.outputCells = now.map Piece.cell
  column : state.column = C
  length : top.length = r
  mid : Mid visible rows declarations W r C (top ++ [now])
  earlier : Earlier visible rows declarations (top ++ [now]) active C r
  current : Active visible rows declarations (top ++ [now]) state.nextActive r (· < C) (· < C)
  fresh : ∀ c, C ≤ c → state.nextActive.lookup c = none

end

section
variable {β : Type} {visible : List β → Bool} {rows : List (TableRow β)}
  {declarations : List (List VerticalMerge)} {W r C i : Nat} {cell : Cell β}
  {top : Board β} {now : List (Piece β)} {active : ActiveMerges} {state : Merging β}
  {key : Nat × Nat}

/-- The cell above continues the merge, or the cell begins one. -/
theorem Merges.cases_cell (h : Merges visible rows declarations r i key)
    (hcell : Stands rows r i C cell) :
    (declared declarations r i = .restart ∧ key = (r, i)) ∨
      (declared declarations r i = .continuation ∧ visible cell.blocks = false ∧
        ∃ r₀ j above, r = r₀ + 1 ∧ Stands rows r₀ j C above ∧
          above.columnSpan = cell.columnSpan ∧ Merges visible rows declarations r₀ j key) := by
  cases h with
  | start _ hrestart => exact .inl ⟨hrestart, rfl⟩
  | next hcell' hcontinues hblank habove hwidth hmerges =>
    obtain ⟨rfl, rfl⟩ := hcell.unique hcell'
    exact .inr ⟨hcontinues, hblank, _, _, _, rfl, habove, hwidth, hmerges⟩

theorem keptPiece_cell (hspan : cell.rowSpan = 1) : (keptPiece r i C cell).cell = cell := by
  rw [Piece.cell, keptPiece]
  exact congrArg (fun span => ({ cell with rowSpan := span } : Cell β)) hspan.symm

section
variable (h : Going visible rows declarations W r C active state top now)
  (hcell : Stands rows r i C cell)
  (hpos : ∀ j c cell, Stands rows r j c cell → 0 < Cell.width cell)
  (hwithin : C + Cell.width cell ≤ W) (hspan : cell.rowSpan = 1)
include h hcell hpos hwithin hspan

/-- A cell that is kept and in no merge. -/
theorem Going.keep (hnone : ∀ key, ¬ Merges visible rows declarations r i key)
    {diagnostics : List Diagnostic} : Going visible rows declarations W r (C + Cell.width cell)
      active { state.keep cell (C + Cell.width cell) with diagnostics } top
      (now ++ [keptPiece r i C cell]) where
  isRows := h.isRows
  output := by
    rw [List.map_append, List.map_singleton, keptPiece_cell hspan, ← h.output]
    rfl
  column := rfl
  length := h.length
  mid := h.mid.keep h.length hcell hpos hwithin fun hremoved => hremoved.2.elim hnone
  earlier := h.earlier.mono (Nat.le_add_right _ _) fun _ _ _ _ hp _ => locate_last hp _
  current := (h.current.mono fun _ _ _ _ hp _ => locate_last hp _).skip h.fresh hcell hpos hnone
  fresh c hc := h.fresh c (Nat.le_trans (Nat.le_add_right _ _) hc)

/-- A cell that begins a merge. -/
theorem Going.restart (hrestart : declared declarations r i = .restart)
    {diagnostics : List Diagnostic} : Going visible rows declarations W r (C + Cell.width cell)
      active { state.keep cell (C + Cell.width cell) with
        nextActive := state.nextActive.insert C
          ⟨Cell.width cell, state.rows.length, state.outputCells.length⟩
        diagnostics } top
      (now ++ [keptPiece r i C cell]) where
  isRows := h.isRows
  output := by
    rw [List.map_append, List.map_singleton, keptPiece_cell hspan, ← h.output]
    rfl
  column := rfl
  length := h.length
  mid := by
    refine h.mid.keep h.length hcell hpos hwithin fun hremoved => ?_
    have hcontinues := hremoved.1
    rw [hrestart] at hcontinues
    cases hcontinues
  earlier := h.earlier.mono (Nat.le_add_right _ _) fun _ _ _ _ hp _ => locate_last hp _
  current := by
    refine (h.current.mono fun _ _ _ _ hp _ => locate_last hp _).insert h.fresh hcell hpos rfl ?_
    refine ⟨keptPiece r i C cell, locate_eq_some.mpr ⟨now ++ [keptPiece r i C cell], ?_, ?_⟩, rfl,
      rfl, rfl, i, cell, hcell, rfl, .start hcell hrestart⟩
    · rw [h.isRows, Board.shown, List.length_map, List.getElem?_concat_length]
    · rw [h.output, List.length_map, List.getElem?_concat_length]
  fresh c hc := by
    have hwidth := hpos i C cell hcell
    show (state.nextActive.insert C _).lookup c = none
    rw [OrderedMap.lookup_insert, if_neg (by omega)]
    exact h.fresh c (Nat.le_trans (Nat.le_add_right _ _) hc)

end

/-- A cell that continues the merge of the piece above. -/
theorem Going.extend {m : ActiveVerticalMerge} {p : Piece β}
    (h : Going visible rows declarations W r C active state top now)
    (hcell : Stands rows r i C cell)
    (hpos : ∀ j c cell, Stands rows r j c cell → 0 < Cell.width cell)
    (hcontinues : declared declarations r i = .continuation)
    (hlocate : locate top m = some p) (hcolumn : p.rect.column = C)
    (hwidth : p.rect.width = Cell.width cell) (hm : m.width = Cell.width cell)
    (hbottom : p.rect.row + p.rect.height = r) (hshort : p.rect.height + 1 < 2 ^ 32)
    (hmerges : Merges visible rows declarations r i p.key) {diagnostics : List Diagnostic} :
    Going visible rows declarations W r (C + Cell.width cell) active
      { state with
        rows := (top.put m p.taller).shown
        nextActive := state.nextActive.insert C m
        column := C + Cell.width cell
        diagnostics } (top.put m p.taller) now := by
  have hboard : top.put m p.taller ++ [now] = Board.put (top ++ [now]) m p.taller :=
    (put_append hlocate [now] p.taller).symm
  have hmem : locate (top ++ [now]) m = some p := locate_append hlocate _
  have hother : ∀ c m' q, c ≠ C → locate (top ++ [now]) m' = some q → q.rect.column = c →
      locate (top.put m p.taller ++ [now]) m' = some q := by
    intro c m' q hc hq hqc
    rw [hboard]
    exact locate_put hmem hq (by rw [hcolumn, hqc]; exact hc.symm) _
  have hpositive := hpos i C cell hcell
  constructor
  case isRows => rfl
  case output => exact h.output
  case column => rfl
  case length => rw [Board.put, List.length_modify, h.length]
  case mid =>
    rw [hboard]
    exact h.mid.extend hcell hpos hmem hcolumn hwidth hbottom hshort (.inl ⟨hcontinues, hmerges⟩)
  case earlier =>
    exact h.earlier.mono (Nat.le_add_right _ _) fun c m' q hc => hother c m' q (by omega)
  case current =>
    refine (h.current.mono fun c m' q hc => hother c m' q hc.ne).insert h.fresh hcell hpos hm ?_
    refine ⟨p.taller, ?_, hcolumn, hwidth.trans hm.symm, ?_, i, cell, hcell, hm.symm, hmerges⟩
    · rw [hboard]
      exact locate_put_self hmem _
    · dsimp only [Piece.taller]
      omega
  case fresh =>
    intro c hc
    show (state.nextActive.insert C m).lookup c = none
    rw [OrderedMap.lookup_insert, if_neg (by omega)]
    exact h.fresh c (Nat.le_trans (Nat.le_add_right _ _) hc)

/-- The span of a cell would leave its word. -/
def Overflows (visible : List β → Bool) (part : String) (active : ActiveMerges) (r : Nat)
    (state : Merging β) (cell : Cell β) (merge : VerticalMerge) : Prop :=
  mergeCell visible part active state cell merge = .error spanOverflow ∧ 2 ^ 32 ≤ r + 1

/-- The merge of the cell above, if the loop finds one for this cell. -/
theorem Going.matched {m : ActiveVerticalMerge}
    (h : Going visible rows declarations W r C active state top now)
    (hcell : Stands rows r i C cell) (hcontinues : declared declarations r i = .continuation)
    (hblank : visible cell.blocks = false) (hlookup : active.lookup C = some m)
    (hm : m.width = Cell.width cell) :
    ∃ p, locate top m = some p ∧ p.rect.column = C ∧ p.rect.width = Cell.width cell ∧
      p.rect.row + p.rect.height = r ∧ PieceOk rows (r + 1) W p ∧
      Merges visible rows declarations r i p.key := by
  have hearlier := h.earlier
  cases r with
  | zero =>
    have hnone : active.lookup C = none := hearlier C
    rw [hlookup] at hnone
    cases hnone
  | succ r =>
    obtain ⟨p, hp, hcolumn, hwidth, hbottom, j, above, habove, hsame, hmerges⟩ :=
      Active.tracks hearlier C m (Nat.le_refl C) hlookup
    obtain ⟨pieces, hrow, hmem⟩ := locate_eq_some.mp hp
    have hok : PieceOk rows (r + 1 + 1) W p := h.mid.ok p
      (List.mem_flatten.mpr ⟨pieces, List.mem_of_getElem? hrow, List.mem_of_getElem? hmem⟩)
    have hheight := hok.height
    have horigin : p.rect.row = m.originRow :=
      h.mid.rowOf m.originRow pieces hrow p (List.mem_of_getElem? hmem)
    have htop : top[m.originRow]? = some pieces := by
      rwa [List.getElem?_append_left (by rw [h.length]; omega)] at hrow
    refine ⟨p, locate_eq_some.mpr ⟨pieces, htop, hmem⟩, hcolumn, hwidth.trans hm, hbottom, hok, ?_⟩
    exact .next hcell hcontinues hblank habove (UInt32.toNat_inj.mp (hsame.trans hm)) hmerges

/-- Without an entry of its width, no merge above reaches the cell. -/
theorem Going.unmatched (h : Going visible rows declarations W r C active state top now)
    (hcell : Stands rows r i C cell) (hcontinues : declared declarations r i = .continuation)
    (hnone : (active.lookup C).filter (·.width = Cell.width cell) = none) (key : Nat × Nat) :
    ¬ Merges visible rows declarations r i key := by
  intro hmerges
  rcases hmerges.cases_cell hcell with ⟨hrestart, -⟩ |
    ⟨-, -, r₀, j, above, rfl, habove, hsame, hmerges⟩
  · rw [hcontinues] at hrestart
    cases hrestart
  · obtain ⟨m, hlookup, hm⟩ :=
      Active.complete h.earlier j C above key (Nat.le_refl C) habove hmerges
    have hwidth : m.width = Cell.width cell := by
      rw [hm, Cell.width, hsame, Cell.width]
    rw [hlookup, Option.filter_some, if_pos (decide_eq_true hwidth)] at hnone
    cases hnone

theorem mergeCell_going (part : String)
    (h : Going visible rows declarations W r C active state top now)
    (hcell : Stands rows r i C cell)
    (hpos : ∀ j c cell, Stands rows r j c cell → 0 < Cell.width cell)
    (hwithin : C + Cell.width cell ≤ W) (hspan : cell.rowSpan = 1) (hW : W < 2 ^ 64) :
    (∃ state' top' now', mergeCell visible part active state cell (declared declarations r i) =
        .ok state' ∧
      Going visible rows declarations W r (C + Cell.width cell) active state' top' now') ∨
      Overflows visible part active r state cell (declared declarations r i) := by
  have hstop : ¬ 2 ^ 64 ≤ state.column + cell.columnSpan.toNat := by
    rw [h.column]
    exact Nat.not_le.mpr (Nat.lt_of_le_of_lt hwithin hW)
  simp only [Overflows, mergeCell, refuse_of_not hstop]
  simp only [h.column]
  cases hmerge : declared declarations r i with
  | none =>
    refine .inl ⟨_, top, _, rfl, h.keep hcell hpos hwithin hspan fun key hmerges => ?_⟩
    rcases hmerges.cases_cell hcell with ⟨hother, -⟩ | ⟨hother, -⟩ <;>
    · rw [hmerge] at hother
      cases hother
  | invalid =>
    refine .inl ⟨_, top, _, rfl, h.keep hcell hpos hwithin hspan fun key hmerges => ?_⟩
    rcases hmerges.cases_cell hcell with ⟨hother, -⟩ | ⟨hother, -⟩ <;>
    · rw [hmerge] at hother
      cases hother
  | restart => exact .inl ⟨_, top, _, rfl, h.restart hcell hpos hwithin hspan hmerge⟩
  | continuation =>
    cases hvisible : visible cell.blocks with
    | true =>
      refine .inl ⟨_, top, _, rfl, h.keep hcell hpos hwithin hspan fun key hmerges => ?_⟩
      rcases hmerges.cases_cell hcell with ⟨hother, -⟩ | ⟨-, hblank, -⟩
      · rw [hmerge] at hother
        cases hother
      · rw [hvisible] at hblank
        cases hblank
    | false =>
      cases hfound : (active.lookup C).filter (·.width = Cell.width cell) with
      | none =>
        have hfound' : (active.lookup C).filter (·.width = cell.columnSpan.toNat) = none := hfound
        simp only [hfound']
        exact .inl ⟨_, top, _, rfl,
          h.keep hcell hpos hwithin hspan (h.unmatched hcell hmerge hfound)⟩
      | some m =>
        have hfound' : (active.lookup C).filter (·.width = cell.columnSpan.toNat) = some m := hfound
        obtain ⟨hlookup, hm⟩ := Option.filter_eq_some_iff.mp hfound
        obtain ⟨p, hp, hcolumn, hwidth, hbottom, hok, hmerges⟩ :=
          h.matched hcell hmerge hvisible hlookup (of_decide_eq_true hm)
        simp only [hfound', h.isRows, extendOrigin_shown part hp hok.short]
        by_cases hover : 2 ^ 32 ≤ p.rect.height + 1
        · rw [if_pos hover]
          exact .inr ⟨rfl, by omega⟩
        · rw [if_neg hover]
          exact .inl ⟨_, _, now, rfl, h.extend hcell hpos hmerge hp hcolumn hwidth
            (of_decide_eq_true hm) hbottom (Nat.not_le.mp hover) hmerges⟩

end

end IntoMarkdown.Docx
