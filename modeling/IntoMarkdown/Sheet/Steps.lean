import IntoMarkdown.Sheet.SheetRuns

/-! # The steps of a scan

What a step does to the fields that say where a scan is, and to what it has recorded. -/

namespace IntoMarkdown.Sheet
open Lib Strings

/-- Where a scan is, and what it has recorded. -/
structure Places where
  currentRow : Option Nat
  nextRow : Nat
  nextColumn : Nat
  lastCoordinate : Option CellCoordinate
  coordinate : Option CellCoordinate
  inCell : Bool
  runs : List SheetRun
  written : List CellCoordinate

def SheetState.places (state : SheetState) : Places :=
  ⟨state.currentRow, state.nextRow, state.nextColumn, state.lastCoordinate,
    state.currentCell.coordinate, state.inCell, state.layout.runs,
    state.tokens.map CellToken.coordinate⟩

namespace Places

def beginRow (row : Nat) (empty : Bool) (places : Places) : Places :=
  if empty then
    { places with currentRow := none, nextColumn := 0, nextRow := saturatingAdd 32 row 1 }
  else { places with currentRow := some row, nextColumn := 0 }

def beginCell (coordinate : CellCoordinate) (places : Places) : Places :=
  { places with
    coordinate := some coordinate
    inCell := true
    nextColumn := saturatingAdd 32 coordinate.2 1
    lastCoordinate := some coordinate }

/-- The cell is over, and recorded where it is populated. -/
def endCell (consumed : Bool) (coordinate : CellCoordinate) (isPopulated : Bool)
    (places : Places) : Places :=
  { places with
    coordinate := none
    inCell := false
    runs := if isPopulated then addToRuns places.runs coordinate else places.runs
    written :=
      if isPopulated && consumed then places.written ++ [coordinate] else places.written }

def endRow (row : Nat) (places : Places) : Places :=
  { places with currentRow := none, nextRow := saturatingAdd 32 row 1, lastCoordinate := none }

end Places

section
variable {part : String} {options : Options} {consumer : Option Consumer}

/-! ## Cells -/

theorem cellValue_runs {cell : CurrentCell} {layout layout' : SheetLayout} {value : CellValueToken}
    (h : cellValue part options cell layout = .ok (value, layout')) :
    layout'.runs = layout.runs := by
  rw [cellValue] at h
  split at h
  · split at h
    · cases h
      rfl
    · obtain ⟨index, -, h⟩ := ok_bind h
      cases h
      rfl
  · cases h
    rfl

theorem followFormula_places {coordinate : CellCoordinate} {cached omitted : Bool} {index : Nat}
    {cell cell' : CurrentCell} {state state' : SheetState}
    (h : followFormula part options coordinate cached index cell state =
      .ok (omitted, cell', state')) : state'.places = state.places := by
  rw [followFormula] at h
  obtain ⟨-, h⟩ := refuse_bind_ok.mp h
  split at h
  · obtain ⟨-, h⟩ := refuse_bind_ok.mp h
    cases h
    rfl
  · obtain ⟨-, h⟩ := refuse_bind_ok.mp h
    cases h
    rfl

theorem anchorFormula_places {coordinate : CellCoordinate} {omitted : Bool} {index : Nat}
    {cell cell' : CurrentCell} {state state' : SheetState}
    (h : anchorFormula part coordinate index cell state = .ok (omitted, cell', state')) :
    state'.places = state.places := by
  rw [anchorFormula] at h
  split at h
  · cases h
  · obtain ⟨-, h⟩ := refuse_bind_ok.mp h
    cases h
    rfl

theorem finishFormula_places {coordinate : CellCoordinate} {cached omitted : Bool}
    {cell cell' : CurrentCell} {state state' : SheetState}
    (h : finishFormula part options coordinate cached cell state = .ok (omitted, cell', state')) :
    state'.places = state.places := by
  rw [finishFormula] at h
  split at h
  · split at h
    · cases h
    · obtain ⟨-, h⟩ := refuse_bind_ok.mp h
      cases h
      rfl
  · split at h
    · split at h
      · cases h
      · split at h
        · exact followFormula_places h
        · exact anchorFormula_places h
    · split at h
      · cases h
      · cases h
        rfl

theorem countCell_runs (cell : CurrentCell) (value : CellValueToken) (layout : SheetLayout) :
    (countCell cell value layout).runs = layout.runs := by
  by_cases hformula : cell.formula = []
  · simp only [countCell, if_pos hformula]
  · simp only [countCell, if_neg hformula]

theorem deliver_places {token : CellToken} {state state' : SheetState}
    (h : deliver consumer token state = .ok state') :
    state'.places = { state.places with
      written := if consumer.isSome then state.places.written ++ [token.coordinate]
        else state.places.written } := by
  cases consumer with
  | none =>
    cases h
    rfl
  | some accept =>
    obtain ⟨-, -, h⟩ := ok_bind h
    cases h
    simp [SheetState.places]

theorem finishCell_places {state state' : SheetState}
    (h : finishCell part options consumer state = .ok state') :
    ∃ coordinate isPopulated, state.currentCell.coordinate = some coordinate ∧
      { state' with inCell := false }.places =
        state.places.endCell consumer.isSome coordinate isPopulated := by
  rw [finishCell] at h
  split at h
  · cases h
  · rename_i coordinate hcoordinate
    obtain ⟨-, h⟩ := refuse_bind_ok.mp h
    obtain ⟨⟨value, layout⟩, hvalue, h⟩ := ok_bind h
    obtain ⟨⟨omitted, cell, middle⟩, hformula, h⟩ := ok_bind h
    have hruns := cellValue_runs hvalue
    have hmiddle : middle.places = state.places := by
      rw [finishFormula_places hformula]
      simp only [SheetState.places, hruns]
    simp only [SheetState.places, Places.mk.injEq] at hmiddle
    obtain ⟨hrow, hnext, hcolumn, hlast, hcell, hin, hlayout, htokens⟩ := hmiddle
    refine ⟨coordinate, !omitted && (!cell.formula.isEmpty || value.present), hcoordinate, ?_⟩
    dsimp only at h
    by_cases hpopulated : (!omitted && (!cell.formula.isEmpty || value.present)) = true
    · rw [if_pos hpopulated, if_pos hpopulated] at h
      have hplaces := deliver_places h
      simp only [SheetState.places, Places.mk.injEq] at hplaces
      obtain ⟨hrow', hnext', hcolumn', hlast', hcell', -, hlayout', htokens'⟩ := hplaces
      simp only [SheetState.places, Places.endCell, Places.mk.injEq, hpopulated, Bool.true_and,
        if_true]
      refine ⟨hrow'.trans hrow, hnext'.trans hnext, hcolumn'.trans hcolumn, hlast'.trans hlast,
        hcell', trivial, ?_, ?_⟩
      · rw [hlayout', countCell_runs]
        exact congrArg (addToRuns · coordinate) hlayout
      · rw [htokens', htokens]
    · rw [if_neg hpopulated, if_neg hpopulated] at h
      cases h
      rw [Bool.not_eq_true] at hpopulated
      simp only [SheetState.places, Places.endCell, Places.mk.injEq, hpopulated, Bool.false_and,
        countCell_runs]
      exact ⟨hrow, hnext, hcolumn, hlast, trivial, trivial, hlayout, htokens⟩

theorem finish_places {state state' : SheetState}
    (h : finish part options consumer state = .ok state') :
    state.inCell = true ∧ ∃ coordinate isPopulated, state.currentCell.coordinate = some coordinate ∧
      state'.places = state.places.endCell consumer.isSome coordinate isPopulated := by
  rw [finish] at h
  obtain ⟨hin, h⟩ := refuse_bind_ok.mp h
  obtain ⟨middle, hmiddle, h⟩ := ok_bind h
  cases h
  exact ⟨by simpa using hin, finishCell_places hmiddle⟩

/-! ## Tags -/

theorem dimension_places {element : Element} {state state' : SheetState}
    (h : dimension part element state = .ok state') : state'.places = state.places := by
  rw [dimension] at h
  obtain ⟨reference, -, h⟩ := ok_bind h
  split at h
  · cases h
    rfl
  · obtain ⟨range, -, h⟩ := ok_bind h
    cases h
    rfl

theorem merge_places {element : Element} {state state' : SheetState}
    (h : merge part element state = .ok state') : state'.places = state.places := by
  rw [merge] at h
  obtain ⟨reference, -, h⟩ := ok_bind h
  split at h
  · cases h
  · obtain ⟨range, -, h⟩ := ok_bind h
    split at h
    · cases h
      rfl
    · cases h
      rfl

theorem startFormula_places {element : Element} {empty : Bool} {state state' : SheetState}
    (h : startFormula part element empty state = .ok state') : state'.places = state.places := by
  rw [startFormula] at h
  obtain ⟨formulaType, -, h⟩ := ok_bind h
  obtain ⟨index, -, h⟩ := ok_bind h
  obtain ⟨reference, -, h⟩ := ok_bind h
  obtain ⟨range, -, h⟩ := ok_bind h
  obtain ⟨-, h⟩ := refuse_bind_ok.mp h
  cases h
  rfl

theorem addText_places (value : Text) (state : SheetState) :
    (addText value state).places = state.places := by
  by_cases hformula : state.currentCell.inFormula
  · simp only [addText, if_pos hformula, SheetState.places]
  · by_cases hvalue : state.currentCell.inValue || state.currentCell.inInlineText
    · simp only [addText, if_neg hformula, if_pos hvalue, SheetState.places]
    · simp only [addText, if_neg hformula, if_neg hvalue]

theorem startRow_places {element : Element} {empty : Bool} {state state' : SheetState}
    (h : startRow part element empty state = .ok state') :
    state.currentRow = none ∧ state.inCell = false ∧
      ∃ row, rowNumber part element state = .ok row ∧
        state'.places = state.places.beginRow row empty := by
  rw [startRow] at h
  obtain ⟨hbad, h⟩ := refuse_bind_ok.mp h
  obtain ⟨hopen, hin⟩ := not_or.mp hbad
  obtain ⟨row, hrow, h⟩ := ok_bind h
  refine ⟨by simpa using hopen, by simpa using hin, row, hrow, ?_⟩
  split at h
  · rename_i hempty
    cases h
    simp [SheetState.places, Places.beginRow, hempty]
  · rename_i hempty
    cases h
    simp [SheetState.places, Places.beginRow, hempty]

theorem startCell_places {element : Element} {empty : Bool} {state state' : SheetState}
    (h : startCell part options consumer element empty state = .ok state') :
    ∃ row coordinate, state.currentRow = some row ∧ state.inCell = false ∧
      cellCoordinate part element row state = .ok coordinate ∧
      (∃ style, attributeOf part element "s" = .ok style) ∧
      if empty then
        ∃ isPopulated, state'.places =
          (state.places.beginCell coordinate).endCell consumer.isSome coordinate isPopulated
      else state'.places = state.places.beginCell coordinate := by
  rw [startCell] at h
  split at h
  · cases h
  · rename_i row hrow
    obtain ⟨hin, h⟩ := refuse_bind_ok.mp h
    obtain ⟨coordinate, hcoordinate, h⟩ := ok_bind h
    obtain ⟨cellType, -, h⟩ := ok_bind h
    obtain ⟨styleIndex, hindex, h⟩ := ok_bind h
    obtain ⟨layout, hlayout, h⟩ := ok_bind h
    obtain ⟨style, hstyle, -⟩ := ok_bind hindex
    refine ⟨row, coordinate, hrow, by simpa using hin, hcoordinate, ⟨style, hstyle⟩, ?_⟩
    have hruns : layout.runs = state.layout.runs := by
      rw [recordCoordinate] at hlayout
      obtain ⟨-, hlayout⟩ := refuse_bind_ok.mp hlayout
      cases hlayout
      rfl
    dsimp only at h
    split at h
    · rename_i hempty
      obtain ⟨-, coordinate', isPopulated, hcell, hplaces⟩ := finish_places h
      cases hcell
      rw [if_pos hempty]
      refine ⟨isPopulated, hplaces.trans ?_⟩
      simp only [SheetState.places, Places.beginCell, hruns]
    · rename_i hempty
      cases h
      rw [if_neg hempty]
      simp only [SheetState.places, Places.beginCell, hruns]

/-! ## Events -/

/-- What a step does. -/
inductive Did (part : String) (consumed : Bool) (scan scan' : Scan) (event : Event) : Prop where
  | nothing (hplaces : scan'.state.places = scan.state.places)
      (hquiet : ∀ tag ∈ tagOf scan.opaqueDepth event, tag.1.name ≠ "row" ∧ tag.1.name ≠ "c")
      (hnext : ∀ position : Position, position.opaqueDepth = scan.opaqueDepth →
        position.next part event = { position with opaqueDepth := scan'.opaqueDepth })
  | row {element : Element} {empty : Bool} {row : Nat}
      (htag : tagOf scan.opaqueDepth event = some (element, empty))
      (hname : element.name = "row") (hdepth : scan'.opaqueDepth = scan.opaqueDepth)
      (hopen : scan.state.currentRow = none) (hin : scan.state.inCell = false)
      (hrow : rowNumber part element scan.state = .ok row)
      (hplaces : scan'.state.places = scan.state.places.beginRow row empty)
  | cell {element : Element} {empty : Bool} {row : Nat} {coordinate : CellCoordinate}
      (htag : tagOf scan.opaqueDepth event = some (element, empty))
      (hname : element.name = "c") (hdepth : scan'.opaqueDepth = scan.opaqueDepth)
      (hopen : scan.state.currentRow = some row) (hin : scan.state.inCell = false)
      (hcoordinate : cellCoordinate part element row scan.state = .ok coordinate)
      (hstyle : ∃ style, attributeOf part element "s" = .ok style)
      (hplaces : if empty then
          ∃ isPopulated, scan'.state.places =
            (scan.state.places.beginCell coordinate).endCell consumed coordinate isPopulated
        else scan'.state.places = scan.state.places.beginCell coordinate)
  | endCell {coordinate : CellCoordinate} {isPopulated : Bool}
      (hevent : event = .close "c" true) (hdepth : scan'.opaqueDepth = scan.opaqueDepth)
      (hzero : scan.opaqueDepth = 0) (hin : scan.state.inCell = true)
      (hcoordinate : scan.state.currentCell.coordinate = some coordinate)
      (hplaces : scan'.state.places =
        scan.state.places.endCell consumed coordinate isPopulated)
  | endRow {row : Nat} (hevent : event = .close "row" true)
      (hdepth : scan'.opaqueDepth = scan.opaqueDepth) (hzero : scan.opaqueDepth = 0)
      (hin : scan.state.inCell = false) (hopen : scan.state.currentRow = some row)
      (hplaces : scan'.state.places = scan.state.places.endRow row)

theorem Did.tag {scan : Scan} {state : SheetState} {event : Event} {element : Element}
    {empty : Bool} (htag : tagOf scan.opaqueDepth event = some (element, empty))
    (hnext : ∀ position : Position, position.opaqueDepth = scan.opaqueDepth →
      position.next part event = position.tag part element empty)
    (h : start part options consumer element empty scan.state = .ok state) :
    Did part consumer.isSome scan { scan with state } event := by
  have other (hrow : element.name ≠ "row") (hcell : element.name ≠ "c")
      (hplaces : state.places = scan.state.places) :
      Did part consumer.isSome scan { scan with state } event := by
    refine .nothing hplaces (fun tag htag' => ?_) fun position hdepth => ?_
    · obtain rfl := Option.some.inj (htag.symm.trans htag')
      exact ⟨hrow, hcell⟩
    rw [hnext position hdepth, Position.tag, ← hdepth]
    split
    · exact absurd ‹_› hrow
    · exact absurd ‹_› hcell
    · rfl
  rw [start] at h
  split at h
  · rename_i hname
    exact other (by simp [hname]) (by simp [hname]) (dimension_places h)
  · rename_i hname
    obtain ⟨hopen, hin, row, hrow, hplaces⟩ := startRow_places h
    exact .row htag hname rfl hopen hin hrow hplaces
  · rename_i hname
    obtain ⟨row, coordinate, hopen, hin, hcoordinate, hstyle, hplaces⟩ := startCell_places h
    exact .cell htag hname rfl hopen hin hcoordinate hstyle hplaces
  · rename_i hname
    refine other (by simp [hname]) (by simp [hname]) ?_
    split at h <;> cases h <;> rfl
  · rename_i hname
    refine other (by simp [hname]) (by simp [hname]) ?_
    split at h
    · exact startFormula_places h
    · cases h
      rfl
  · rename_i hname
    refine other (by simp [hname]) (by simp [hname]) ?_
    split at h <;> cases h <;> rfl
  · rename_i hname
    exact other (by simp [hname]) (by simp [hname]) (merge_places h)
  · rename_i hrow hcell _ _ _ _
    cases h
    exact other hrow hcell rfl

theorem Did.close {scan : Scan} {state : SheetState} {name : String}
    (hzero : scan.opaqueDepth = 0)
    (h : close part options consumer name scan.state = .ok state) :
    Did part consumer.isSome scan { scan with state } (.close name true) := by
  have other (hrow : name ≠ "row") (hplaces : state.places = scan.state.places) :
      Did part consumer.isSome scan { scan with state } (.close name true) := by
    refine .nothing hplaces (fun tag htag => by cases htag) fun position hdepth => ?_
    have hdepth : position.opaqueDepth = 0 := hdepth.trans hzero
    rw [Position.next, if_neg (by omega), if_neg (fun h => hrow h.2), hzero, ← hdepth]
  unfold Sheet.close at h
  split at h
  · cases h
    exact other (by simp) rfl
  · cases h
    exact other (by simp) rfl
  · cases h
    exact other (by simp) rfl
  · obtain ⟨hin, coordinate, isPopulated, hcoordinate, hplaces⟩ := finish_places h
    exact .endCell rfl rfl hzero hin hcoordinate hplaces
  · split at h
    · cases h
    · rename_i row hopen
      obtain ⟨hin, h⟩ := refuse_bind_ok.mp h
      cases h
      exact .endRow rfl rfl hzero (by simpa using hin) hopen rfl
  · rename_i hrow
    cases h
    exact other hrow rfl

theorem step_did {scan scan' : Scan} {event : Event}
    (h : step part options consumer scan event = .ok scan') :
    Did part consumer.isSome scan scan' event := by
  have same (position : Position) (hdepth : position.opaqueDepth = scan.opaqueDepth) :
      position = { position with opaqueDepth := scan.opaqueDepth } := by
    rw [← hdepth]
  have quiet (hnone : tagOf scan.opaqueDepth event = none) :
      ∀ tag ∈ tagOf scan.opaqueDepth event, tag.1.name ≠ "row" ∧ tag.1.name ≠ "c" := by
    rw [hnone]
    exact fun tag htag => by cases htag
  cases event with
  | broken error => cases h
  | docType => cases h
  | other =>
    cases h
    exact .nothing rfl (quiet rfl) same
  | reference value =>
    obtain ⟨c, -, h⟩ := ok_bind h
    split at h
    · cases h
      exact .nothing (addText_places _ _) (quiet rfl) same
    · cases h
      exact .nothing rfl (quiet rfl) same
  | text value =>
    rw [step] at h
    split at h
    · obtain ⟨text, -, h⟩ := ok_bind h
      cases h
      exact .nothing (addText_places _ _) (quiet rfl) same
    · cases h
      exact .nothing rfl (quiet rfl) same
  | start element =>
    rw [step] at h
    split at h
    · rename_i hdepth
      obtain ⟨-, h⟩ := refuse_bind_ok.mp h
      cases h
      refine .nothing rfl (quiet (if_neg fun h => hdepth.ne' h.1)) fun position hposition => ?_
      rw [Position.next, if_pos (Or.inl (hposition ▸ hdepth)), hposition]
    · rename_i hdepth
      have hzero : scan.opaqueDepth = 0 := Nat.eq_zero_of_not_pos hdepth
      split at h
      · rename_i hcore
        obtain ⟨-, h⟩ := refuse_bind_ok.mp h
        cases h
        refine .nothing rfl (quiet (if_neg fun h => by simp [hcore] at h)) fun position hposition => ?_
        rw [Position.next, if_pos (Or.inr hcore), hposition, hzero]
      · rename_i hcore
        obtain ⟨state, hstate, h⟩ := ok_bind h
        cases h
        refine Did.tag ?_ (fun position hposition => ?_) hstate
        · simp [tagOf, hzero, hcore]
        · rw [Position.next, if_neg (not_or.mpr ⟨hposition ▸ hdepth, hcore⟩)]
  | empty element =>
    rw [step] at h
    split at h
    · rename_i hopaque
      cases h
      refine .nothing rfl (quiet (if_neg fun h => ?_)) fun position hposition => ?_
      · rcases hopaque with hdepth | hcore
        · exact hdepth.ne' h.1
        · simp [hcore] at h
      rw [Position.next, if_pos (hposition ▸ hopaque), ← hposition]
    · rename_i hopaque
      obtain ⟨hdepth, hcore⟩ := not_or.mp hopaque
      obtain ⟨state, hstate, h⟩ := ok_bind h
      cases h
      refine Did.tag ?_ (fun position hposition => ?_) hstate
      · simp [tagOf, Nat.eq_zero_of_not_pos hdepth, hcore]
      · rw [Position.next, if_neg (hposition ▸ hopaque)]
  | close name core =>
    rw [step] at h
    split at h
    · rename_i hdepth
      cases h
      refine .nothing rfl (quiet rfl) fun position hposition => ?_
      rw [Position.next, if_pos (hposition ▸ hdepth), hposition]
    · rename_i hdepth
      split at h
      · rename_i hcore
        obtain ⟨state, hstate, h⟩ := ok_bind h
        cases h
        subst hcore
        exact Did.close (Nat.eq_zero_of_not_pos hdepth) hstate
      · rename_i hcore
        cases h
        refine .nothing rfl (quiet rfl) fun position hposition => ?_
        rw [Position.next, if_neg (hposition ▸ hdepth), if_neg (fun h => hcore h.1), ← hposition]

end

end IntoMarkdown.Sheet
