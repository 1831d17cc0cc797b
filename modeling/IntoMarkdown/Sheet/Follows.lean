import IntoMarkdown.Sheet.Steps

/-! # A scan and its position

While a stream stays inside the grid, the counters of a scan are where the stream stands, and what
is recorded is before them. -/

namespace IntoMarkdown.Sheet
open Lib Strings

section
variable {part : String}

/-! ## Places of tags -/

theorem placeOf_eq_some {α : Type} {f : Text → Except ConversionError α} {implied a : α}
    {given : Except ConversionError (Option Text)} :
    placeOf f implied given = some a ↔
      ∃ value, given = .ok value ∧ ∃ said, onSome f value = .ok said ∧ said.getD implied = a := by
  rcases given with error | ⟨- | value⟩
  · simp [placeOf]
  · simp [placeOf, onSome]
  · cases hvalue : f value <;> simp [placeOf, onSome, hvalue, Except.map, Except.toOption]

theorem rowNumber_ok_iff {element : Element} {state : SheetState} {last : Option Nat}
    (hnext : state.nextRow = following last) {row : Nat} :
    rowNumber part element state = .ok row ↔
      rowOf part element last = some row ∧ following last ≤ row := by
  rw [rowOf, placeOf_eq_some, ← hnext]
  constructor
  · intro h
    obtain ⟨given, hgiven, h⟩ := ok_bind h
    obtain ⟨said, hsaid, h⟩ := ok_bind h
    obtain ⟨hle, h⟩ := refuse_bind_ok.mp h
    obtain rfl := Except.ok.inj h
    exact ⟨⟨given, hgiven, said, hsaid, rfl⟩, Nat.not_lt.mp hle⟩
  · rintro ⟨⟨given, hgiven, said, hsaid, rfl⟩, hle⟩
    exact bind_ok_iff.mpr ⟨given, hgiven, bind_ok_iff.mpr ⟨said, hsaid,
      refuse_bind_ok.mpr ⟨Nat.not_lt.mpr hle, rfl⟩⟩⟩

theorem cellCoordinate_ok_iff {element : Element} {row : Nat} {state : SheetState}
    {last : Option Nat} (hnext : state.nextColumn = following last)
    (hlast : state.lastCoordinate = last.map (row, ·)) {coordinate : CellCoordinate} :
    cellCoordinate part element row state = .ok coordinate ↔
      cellOf part element row last = some coordinate ∧ coordinate.1 = row ∧
        following last ≤ coordinate.2 := by
  have hafter (c : CellCoordinate) : ¬ (c.1 ≠ row ∨
      (state.lastCoordinate.any fun last => !decide (before last c)) = true) ↔
      c.1 = row ∧ following last ≤ c.2 := by
    rw [hlast]
    cases last with
    | none => simp
    | some column =>
      simp only [Option.map_some, Option.any_some, Bool.not_eq_true', decide_eq_false_iff_not]
      simp only [before, following_some]
      omega
  rw [← hnext] at hafter ⊢
  rw [cellOf, ← hnext, placeOf_eq_some]
  constructor
  · intro h
    obtain ⟨given, hgiven, h⟩ := ok_bind h
    obtain ⟨said, hsaid, h⟩ := ok_bind h
    obtain ⟨hle, h⟩ := refuse_bind_ok.mp h
    obtain rfl := Except.ok.inj h
    exact ⟨⟨given, hgiven, said, hsaid, rfl⟩, (hafter _).mp hle⟩
  · rintro ⟨⟨given, hgiven, said, hsaid, rfl⟩, hle⟩
    exact bind_ok_iff.mpr ⟨given, hgiven, bind_ok_iff.mpr ⟨said, hsaid,
      refuse_bind_ok.mpr ⟨(hafter _).mpr hle, rfl⟩⟩⟩

end

/-! ## What a scan keeps -/

/-- The open row comes after the closed ones, and all is inside the grid. -/
structure Position.Bounded (position : Position) : Prop where
  closed : following position.closed ≤ maxExcelRows
  current : ∀ row last, position.current = some (row, last) →
    row < maxExcelRows ∧ following position.closed ≤ row ∧ following last ≤ maxExcelColumns

/-- The counters of a scan are those of a position. -/
structure Follows (places : Places) (position : Position) : Prop where
  currentRow : places.currentRow = position.current.map Prod.fst
  nextRow : places.nextRow = following position.closed
  nextColumn : ∀ row last, position.current = some (row, last) →
    places.nextColumn = following last
  lastCoordinate : places.lastCoordinate =
    position.current.bind fun current => current.2.map (current.1, ·)

theorem Follows.init : Follows (SheetState.places {}) {} :=
  ⟨rfl, rfl, (fun _ _ h => by cases h), rfl⟩

theorem Position.Bounded.init : Position.Bounded {} :=
  ⟨Nat.zero_le _, fun _ _ h => by cases h⟩

theorem saturatingAdd_row {row : Nat} (h : row < maxExcelRows) :
    saturatingAdd 32 row 1 = row + 1 :=
  Nat.min_eq_left (by simp only [maxExcelRows] at h; omega)

theorem saturatingAdd_column {column : Nat} (h : column < maxExcelColumns) :
    saturatingAdd 32 column 1 = column + 1 :=
  Nat.min_eq_left (by simp only [maxExcelColumns] at h; omega)

theorem Position.next_of_tag {part : String} {position : Position} {event : Event}
    {element : Element} {empty : Bool}
    (h : tagOf position.opaqueDepth event = some (element, empty)) :
    position.next part event = position.tag part element empty := by
  cases event with
  | start _ | empty _ =>
    simp only [tagOf] at h
    split at h
    · rename_i hactive
      cases h
      rw [Position.next, if_neg (by simp [hactive.1, hactive.2])]
    · cases h
  | _ => cases h

theorem Position.tag_row {part : String} {position : Position} {element : Element} {row : Nat}
    (hname : element.name = "row") (hrow : rowOf part element position.closed = some row)
    (empty : Bool) :
    position.tag part element empty =
      if empty then { position with closed := some row }
      else { position with current := some (row, none) } := by
  simp only [Position.tag, hname, hrow, Option.map_some]

theorem Position.tag_cell {part : String} {position : Position} {element : Element} {row : Nat}
    {last : Option Nat} {coordinate : CellCoordinate} (hname : element.name = "c")
    (hcurrent : position.current = some (row, last))
    (hcell : cellOf part element row last = some coordinate) (empty : Bool) :
    position.tag part element empty =
      { position with current := some (row, some coordinate.2) } := by
  simp only [Position.tag, hname, hcurrent, hcell, Option.map_some]

theorem Position.Inside.row {part : String} {position : Position} {event : Event}
    {element : Element} {empty : Bool} {row : Nat} (h : position.Inside part event)
    (htag : tagOf position.opaqueDepth event = some (element, empty))
    (hname : element.name = "row") (hrow : rowOf part element position.closed = some row) :
    row < maxExcelRows :=
  h.1 row (by simp only [Position.rowAt, htag, Option.bind_some, if_pos hname, hrow,
    Option.mem_some])

theorem Position.Inside.cell {part : String} {position : Position} {event : Event}
    {element : Element} {empty : Bool} {row : Nat} {last : Option Nat}
    {coordinate : CellCoordinate} (h : position.Inside part event)
    (htag : tagOf position.opaqueDepth event = some (element, empty))
    (hname : element.name = "c") (hcurrent : position.current = some (row, last))
    (hcell : cellOf part element row last = some coordinate) : InGrid coordinate :=
  h.2 coordinate (by simp only [Position.cellAt, htag, Option.bind_some, if_pos hname, hcurrent,
    hcell, Option.mem_some])

/-! ## What a scan has recorded -/

/-- Everything recorded is before this. -/
def Places.frontier (places : Places) : CellCoordinate :=
  match places.currentRow with
  | none => (places.nextRow, 0)
  | some row =>
    if places.inCell then (row, places.nextColumn - 1) else (row, places.nextColumn)

structure Recorded (consumed : Bool) (places : Places) : Prop where
  runs : MaximalRuns places.runs (populated places.runs)
  reached : ∀ coordinate ∈ populated places.runs, before coordinate places.frontier
  written : consumed = true → places.written = populated places.runs
  inCell : places.inCell = true → ∃ row column, places.currentRow = some row ∧
    places.coordinate = some (row, column) ∧ places.nextColumn = column + 1 ∧ InGrid (row, column)

theorem Recorded.init (consumed : Bool) : Recorded consumed (SheetState.places {}) :=
  ⟨.empty, List.forall_mem_nil _, fun _ => rfl, (fun h => by cases h)⟩

/-- Nothing is recorded, and the frontier does not go back. -/
theorem Recorded.move {consumed : Bool} {places places' : Places} (h : Recorded consumed places)
    (hruns : places'.runs = places.runs) (hwritten : places'.written = places.written)
    (hfrontier : places.frontier = places'.frontier ∨ before places.frontier places'.frontier)
    (hcell : places'.inCell = true → ∃ row column, places'.currentRow = some row ∧
      places'.coordinate = some (row, column) ∧ places'.nextColumn = column + 1 ∧
        InGrid (row, column)) : Recorded consumed places' := by
  refine ⟨hruns ▸ h.runs, ?_, fun hconsumed => ?_, hcell⟩
  · intro c hc
    rw [hruns] at hc
    have hbefore := h.reached c hc
    rcases hfrontier with hsame | hon
    · exact hsame ▸ hbefore
    · exact before_trans hbefore hon
  · rw [hwritten, hruns, h.written hconsumed]

theorem Recorded.endCell {consumed : Bool} {places : Places} {coordinate : CellCoordinate}
    (h : Recorded consumed places) (hin : places.inCell = true)
    (hcoordinate : places.coordinate = some coordinate) (isPopulated : Bool) :
    Recorded consumed (places.endCell consumed coordinate isPopulated) := by
  obtain ⟨row, column, hrow, hcell, hnext, hgrid⟩ := h.inCell hin
  obtain rfl : coordinate = (row, column) := Option.some.inj (hcoordinate.symm.trans hcell)
  have hat : places.frontier = (row, column) := by
    simp only [Places.frontier, hrow, hin, if_true, hnext, Nat.add_sub_cancel]
  have hpast : (places.endCell consumed (row, column) isPopulated).frontier = (row, column + 1) := by
    simp only [Places.frontier, Places.endCell, hrow, hnext]
    rfl
  have hon : before (row, column) (row, column + 1) := Or.inr ⟨rfl, Nat.lt_succ_self _⟩
  cases isPopulated with
  | false =>
    refine h.move rfl rfl (Or.inr ?_) fun h => by cases h
    rw [hat, hpast]
    exact hon
  | true =>
    have hadded := h.runs.add hgrid fun c hc => hat ▸ h.reached c hc
    have hcovered : populated (addToRuns places.runs (row, column)) =
      populated places.runs ++ [(row, column)] := hadded.covered
    refine ⟨?_, ?_, fun hconsumed => ?_, (fun h => by cases h)⟩
    · show MaximalRuns (addToRuns places.runs (row, column)) _
      rw [← hcovered] at hadded
      exact hadded
    · intro c hc
      rw [hpast]
      rcases List.mem_append.mp (hcovered ▸ hc) with hc | hc
      · exact before_trans (hat ▸ h.reached c hc) hon
      · exact List.mem_singleton.mp hc ▸ hon
    · show (if (true && consumed) = true then _ else _) = populated (addToRuns _ _)
      rw [if_pos (by simpa using hconsumed), hcovered, h.written hconsumed]

/-! ## The step -/

/-- A scan is where its stream is, and has recorded what it should have. -/
structure Tracks (consumed : Bool) (scan : Scan) (position : Position) : Prop where
  depth : position.opaqueDepth = scan.opaqueDepth
  follows : Follows scan.state.places position
  bounded : position.Bounded
  recorded : Recorded consumed scan.state.places
  nextColumn : scan.state.nextColumn ≤ maxExcelColumns

theorem Tracks.init (consumed : Bool) : Tracks consumed {} {} :=
  ⟨rfl, .init, .init, .init consumed, Nat.zero_le _⟩

namespace Tracks
variable {part : String} {consumed : Bool} {scan scan' : Scan} {position : Position}
  {event : Event} {element : Element} {empty : Bool}

theorem current_none (h : Tracks consumed scan position) (hopen : scan.state.currentRow = none) :
    position.current = none := by
  have hrow : none = position.current.map Prod.fst := hopen.symm.trans h.follows.currentRow
  simpa using hrow.symm

theorem current_some (h : Tracks consumed scan position) {row : Nat}
    (hopen : scan.state.currentRow = some row) : ∃ last, position.current = some (row, last) := by
  have hrow : some row = position.current.map Prod.fst := hopen.symm.trans h.follows.currentRow
  obtain ⟨⟨row', last⟩, hcurrent, rfl⟩ := Option.map_eq_some_iff.mp hrow.symm
  exact ⟨last, hcurrent⟩

theorem same (h : Tracks consumed scan position)
    (hplaces : scan'.state.places = scan.state.places) :
    Tracks consumed scan' { position with opaqueDepth := scan'.opaqueDepth } where
  depth := rfl
  follows := ⟨hplaces ▸ h.follows.currentRow, hplaces ▸ h.follows.nextRow,
    hplaces ▸ h.follows.nextColumn, hplaces ▸ h.follows.lastCoordinate⟩
  bounded := ⟨h.bounded.closed, h.bounded.current⟩
  recorded := hplaces ▸ h.recorded
  nextColumn := by
    have hcolumn : scan'.state.nextColumn = scan.state.nextColumn :=
      congrArg Places.nextColumn hplaces
    exact hcolumn ▸ h.nextColumn

theorem of_places {places : Places} (hplaces : scan'.state.places = places)
    (hdepth : position.opaqueDepth = scan'.opaqueDepth) (hfollows : Follows places position)
    (hbounded : position.Bounded) (hrecorded : Recorded consumed places)
    (hcolumn : places.nextColumn ≤ maxExcelColumns) : Tracks consumed scan' position := by
  subst hplaces
  exact ⟨hdepth, hfollows, hbounded, hrecorded, hcolumn⟩

theorem row (h : Tracks consumed scan position) (hinside : position.Inside part event)
    (htag : tagOf scan.opaqueDepth event = some (element, empty)) (hname : element.name = "row")
    (hdepth : scan'.opaqueDepth = scan.opaqueDepth) (hopen : scan.state.currentRow = none)
    (hin : scan.state.inCell = false) {row : Nat}
    (hrow : rowNumber part element scan.state = .ok row)
    (hplaces : scan'.state.places = scan.state.places.beginRow row empty) :
    Tracks consumed scan' (position.next part event) := by
  have hcurrent := h.current_none hopen
  have hnext : scan.state.nextRow = following position.closed := h.follows.nextRow
  obtain ⟨hrow, hafter⟩ := (rowNumber_ok_iff hnext).mp hrow
  rw [← h.depth] at htag
  have hlt := hinside.row htag hname hrow
  have hlast : scan.state.lastCoordinate = none := by
    have hlast := h.follows.lastCoordinate
    rwa [hcurrent] at hlast
  have hfrontier : scan.state.places.frontier = (following position.closed, 0) := by
    show (match scan.state.currentRow with | none => _ | some row => _) = _
    rw [hopen]
    exact congrArg (·, 0) hnext
  rw [Position.next_of_tag htag, Position.tag_row hname hrow]
  cases empty with
  | true =>
    have hsum := saturatingAdd_row hlt
    refine of_places hplaces (h.depth.trans hdepth.symm) ⟨?_, hsum, ?_, ?_⟩ ⟨hlt, ?_⟩
      (h.recorded.move rfl rfl (Or.inr ?_) ?_) (Nat.zero_le _)
    · exact congrArg (Option.map Prod.fst) hcurrent.symm
    · intro row' last hsome
      exact absurd (hcurrent.symm.trans hsome) (by simp)
    · exact hlast.trans (congrArg (Option.bind · _) hcurrent.symm)
    · intro row' last hsome
      exact absurd (hcurrent.symm.trans hsome) (by simp)
    · rw [hfrontier]
      exact Or.inl (by simp only [Places.frontier, Places.beginRow, if_true, hsum]; omega)
    · intro hcell
      exact absurd (hin.symm.trans hcell) (by simp)
  | false =>
    refine of_places hplaces (h.depth.trans hdepth.symm) ⟨rfl, hnext, ?_, hlast⟩
      ⟨h.bounded.closed, ?_⟩ (h.recorded.move rfl rfl ?_ ?_) (Nat.zero_le _)
    · intro row' last hsome
      cases hsome
      rfl
    · intro row' last hsome
      cases hsome
      exact ⟨hlt, hafter, Nat.zero_le _⟩
    · have hbegun : (scan.state.places.beginRow row false).frontier = (row, 0) := by
        show (if scan.state.inCell then _ else _) = _
        rw [hin]
        rfl
      rw [hfrontier, hbegun]
      rcases Nat.eq_or_lt_of_le hafter with heq | hlt
      · exact Or.inl (by rw [heq])
      · exact Or.inr (Or.inl hlt)
    · intro hcell
      exact absurd (hin.symm.trans hcell) (by simp)

theorem cell (h : Tracks consumed scan position) (hinside : position.Inside part event)
    (htag : tagOf scan.opaqueDepth event = some (element, empty)) (hname : element.name = "c")
    (hdepth : scan'.opaqueDepth = scan.opaqueDepth) {row : Nat} {coordinate : CellCoordinate}
    (hopen : scan.state.currentRow = some row) (hin : scan.state.inCell = false)
    (hcoordinate : cellCoordinate part element row scan.state = .ok coordinate)
    (hplaces : if empty then
        ∃ isPopulated, scan'.state.places =
          (scan.state.places.beginCell coordinate).endCell consumed coordinate isPopulated
      else scan'.state.places = scan.state.places.beginCell coordinate) :
    Tracks consumed scan' (position.next part event) := by
  obtain ⟨last, hcurrent⟩ := h.current_some hopen
  have hnext : scan.state.nextColumn = following last := h.follows.nextColumn row last hcurrent
  have hlast : scan.state.lastCoordinate = last.map (row, ·) := by
    have hlast := h.follows.lastCoordinate
    rwa [hcurrent] at hlast
  obtain ⟨hcell, hrow, hafter⟩ := (cellCoordinate_ok_iff hnext hlast).mp hcoordinate
  obtain ⟨row', column⟩ := coordinate
  obtain rfl : row' = row := hrow
  rw [← h.depth] at htag
  have hgrid := hinside.cell htag hname hcurrent hcell
  have hsum : saturatingAdd 32 column 1 = column + 1 := saturatingAdd_column hgrid.2
  obtain ⟨hlt, hclosed, -⟩ := h.bounded.current row' last hcurrent
  have hdepth' := h.depth.trans hdepth.symm
  rw [Position.next_of_tag htag, Position.tag_cell hname hcurrent hcell]
  have hbounded : Position.Bounded { position with current := some (row', some column) } := by
    refine ⟨h.bounded.closed, fun row last hsome => ?_⟩
    cases hsome
    exact ⟨hlt, hclosed, hgrid.2⟩
  have hfollows : Follows (scan.state.places.beginCell (row', column))
      { position with current := some (row', some column) } := by
    refine ⟨hopen, h.follows.nextRow, fun row last hsome => ?_, rfl⟩
    cases hsome
    exact hsum
  have hrecorded : Recorded consumed (scan.state.places.beginCell (row', column)) := by
    refine h.recorded.move rfl rfl ?_ fun _ => ⟨row', column, hopen, rfl, hsum, hgrid⟩
    have hat : scan.state.places.frontier = (row', following last) := by
      show (match scan.state.currentRow with | none => _ | some row => _) = _
      rw [hopen]
      show (if scan.state.inCell then _ else _) = _
      rw [hin]
      exact congrArg (row', ·) hnext
    have hbegun : (scan.state.places.beginCell (row', column)).frontier = (row', column) := by
      show (match scan.state.currentRow with | none => _ | some row => _) = _
      rw [hopen]
      show (row', saturatingAdd 32 column 1 - 1) = _
      rw [hsum, Nat.add_sub_cancel]
    rw [hat, hbegun]
    rcases Nat.eq_or_lt_of_le hafter with heq | hlt
    · exact Or.inl (congrArg (row', ·) heq)
    · exact Or.inr (Or.inr ⟨rfl, hlt⟩)
  have hcolumn : (scan.state.places.beginCell (row', column)).nextColumn ≤ maxExcelColumns :=
    hsum.trans_le hgrid.2
  cases empty with
  | true =>
    obtain ⟨isPopulated, hplaces⟩ := hplaces
    exact of_places hplaces hdepth'
      ⟨hfollows.currentRow, hfollows.nextRow, hfollows.nextColumn, hfollows.lastCoordinate⟩
      hbounded (hrecorded.endCell rfl rfl isPopulated) hcolumn
  | false => exact of_places hplaces hdepth' hfollows hbounded hrecorded hcolumn

theorem endCell (h : Tracks consumed scan position)
    (hdepth : scan'.opaqueDepth = scan.opaqueDepth) (hin : scan.state.inCell = true)
    {coordinate : CellCoordinate} {isPopulated : Bool}
    (hcoordinate : scan.state.currentCell.coordinate = some coordinate)
    (hplaces : scan'.state.places = scan.state.places.endCell consumed coordinate isPopulated) :
    Tracks consumed scan' position :=
  of_places hplaces (h.depth.trans hdepth.symm)
    ⟨h.follows.currentRow, h.follows.nextRow, h.follows.nextColumn, h.follows.lastCoordinate⟩
    h.bounded (h.recorded.endCell hin hcoordinate isPopulated) h.nextColumn

theorem endRow (h : Tracks consumed scan position)
    (hdepth : scan'.opaqueDepth = scan.opaqueDepth) (hin : scan.state.inCell = false) {row : Nat}
    (hopen : scan.state.currentRow = some row)
    (hplaces : scan'.state.places = scan.state.places.endRow row) :
    Tracks consumed scan'
      { position with closed := position.current.map Prod.fst, current := none } := by
  obtain ⟨last, hcurrent⟩ := h.current_some hopen
  obtain ⟨hlt, -, -⟩ := h.bounded.current row last hcurrent
  have hsum := saturatingAdd_row hlt
  have hclosed : position.current.map Prod.fst = some row := congrArg (Option.map _) hcurrent
  rw [hclosed]
  refine of_places hplaces (h.depth.trans hdepth.symm) ⟨rfl, hsum, ?_, rfl⟩ ⟨hlt, ?_⟩
    (h.recorded.move rfl rfl (Or.inr ?_) ?_) h.nextColumn
  · intro row last hsome
    cases hsome
  · intro row last hsome
    cases hsome
  · have hat : scan.state.places.frontier = (row, scan.state.nextColumn) := by
      show (match scan.state.currentRow with | none => _ | some row => _) = _
      rw [hopen]
      show (if scan.state.inCell then _ else _) = _
      rw [hin]
      rfl
    have hpast : (scan.state.places.endRow row).frontier = (row + 1, 0) := congrArg (·, 0) hsum
    rw [hat, hpast]
    exact Or.inl (Nat.lt_succ_self row)
  · intro hcell
    exact absurd (hin.symm.trans hcell) (by simp)

/-- **Step.** What begins inside the grid keeps the scan where its stream is. -/
theorem step (h : Tracks consumed scan position) (hinside : position.Inside part event)
    (hdid : Did part consumed scan scan' event) :
    Tracks consumed scan' (position.next part event) := by
  cases hdid with
  | nothing hplaces _ hnext =>
    rw [hnext position h.depth]
    exact h.same hplaces
  | row htag hname hdepth hopen hin hrow hplaces =>
    exact h.row hinside htag hname hdepth hopen hin hrow hplaces
  | cell htag hname hdepth hopen hin hcoordinate _ hplaces =>
    exact h.cell hinside htag hname hdepth hopen hin hcoordinate hplaces
  | endCell hevent hdepth hzero hin hcoordinate hplaces =>
    have hstay : position.next part event = position := by
      subst hevent
      rw [Position.next, if_neg (by rw [h.depth, hzero]; exact Nat.lt_irrefl 0), if_neg (by simp)]
    rw [hstay]
    exact h.endCell hdepth hin hcoordinate hplaces
  | endRow hevent hdepth hzero hin hopen hplaces =>
    have hclose : position.next part event =
        { position with closed := position.current.map Prod.fst, current := none } := by
      subst hevent
      rw [Position.next, if_neg (by rw [h.depth, hzero]; exact Nat.lt_irrefl 0),
        if_pos ⟨rfl, rfl⟩]
    rw [hclose]
    exact h.endRow hdepth hin hopen hplaces

end Tracks

end IntoMarkdown.Sheet
