import IntoMarkdown.Sheet.Follows

/-! # Two scans of one stream

The scan of the metadata stands where the scan of the cells stands, and gives the same places. -/

namespace IntoMarkdown.Sheet
open Lib Strings

section
variable (part : String)

/-- The row that a scan gives the tag of a row. -/
def Scan.rowAt (scan : Scan) (event : Event) : Option Nat :=
  (tagOf scan.opaqueDepth event).bind fun tag =>
    if tag.1.name = "row" then (rowNumber part tag.1 scan.state).toOption else none

/-- The coordinate that a scan gives the tag of a cell. -/
def Scan.cellAt (scan : Scan) (event : Event) : Option CellCoordinate :=
  (tagOf scan.opaqueDepth event).bind fun tag =>
    if tag.1.name = "c" then
      scan.state.currentRow.bind fun row => (cellCoordinate part tag.1 row scan.state).toOption
    else none

def MetadataState.rowAt (state : MetadataState) (event : Event) : Option Nat :=
  (tagOf state.opaqueDepth event).bind fun tag =>
    if tag.1.name = "row" then (metadataRowNumber part tag.1 state).toOption else none

def MetadataState.cellAt (state : MetadataState) (event : Event) : Option CellCoordinate :=
  (tagOf state.opaqueDepth event).bind fun tag =>
    if tag.1.name = "c" then
      state.currentRow.bind fun row =>
        (do
          let attributes ← cellAttributes part none none tag.1.attributes
          metadataCoordinate part attributes.1 row state).toOption
    else none

variable {part}

/-! ## Attributes -/

theorem attributeFrom_some {name : String} {text : Text} {result : Option Text}
    {attributes : List (String × Except String Text)}
    (h : attributeFrom part name (some text) attributes = .ok result) : result = some text := by
  induction attributes with
  | nil => exact (Except.ok.inj h).symm
  | cons first attributes ih =>
    obtain ⟨key, value⟩ := first
    rw [attributeFrom] at h
    split at h
    · obtain ⟨decoded, -, h⟩ := ok_bind h
      obtain ⟨hfound, -⟩ := refuse_bind_ok.mp h
      exact absurd rfl hfound
    · exact ih h

/-- An attribute that is there once is read as the same number by both scans. -/
theorem optionalU32From_of {name : String} {g : Text → Nat} {found result : Option Text}
    {attributes : List (String × Except String Text)}
    (h : attributeFrom part name found attributes = .ok result)
    (hnumber : ∀ text ∈ result, parseUnsigned (2 ^ 32) text = some (g text)) :
    optionalU32From part name (found.map g) attributes = .ok (result.map g) := by
  induction attributes generalizing found with
  | nil =>
    obtain rfl := Except.ok.inj h
    rfl
  | cons first attributes ih =>
    obtain ⟨key, value⟩ := first
    rw [attributeFrom] at h
    rw [optionalU32From]
    split at h
    · rename_i hkey
      obtain ⟨text, htext, h⟩ := ok_bind h
      obtain ⟨hfound, h⟩ := refuse_bind_ok.mp h
      obtain rfl : found = none := by simpa using hfound
      obtain rfl := attributeFrom_some h
      rw [if_pos hkey]
      refine bind_ok_iff.mpr ⟨text, htext, bind_ok_iff.mpr ⟨g text, ?_, ?_⟩⟩
      · rw [parseNumber, hnumber text rfl]
      · exact refuse_bind_ok.mpr ⟨by simp, ih h⟩
    · rename_i hkey
      rw [if_neg hkey]
      exact ih h

theorem cellAttributes_of {reference style given said : Option Text}
    {attributes : List (String × Except String Text)}
    (hreference : attributeFrom part "r" reference attributes = .ok given)
    (hstyle : attributeFrom part "s" style attributes = .ok said) :
    cellAttributes part reference style attributes = .ok (given, said) := by
  induction attributes generalizing reference style with
  | nil =>
    obtain rfl := Except.ok.inj hreference
    obtain rfl := Except.ok.inj hstyle
    rfl
  | cons first attributes ih =>
    obtain ⟨key, value⟩ := first
    rw [attributeFrom] at hreference hstyle
    rw [cellAttributes]
    split at hreference
    · rename_i hkey
      subst hkey
      obtain ⟨text, htext, hreference⟩ := ok_bind hreference
      obtain ⟨-, hreference⟩ := refuse_bind_ok.mp hreference
      rw [if_neg (by decide)] at hstyle
      rw [if_pos rfl]
      exact bind_ok_iff.mpr ⟨text, htext, ih hreference hstyle⟩
    · rename_i hkey
      rw [if_neg hkey]
      split at hstyle
      · rename_i hstyleKey
        obtain ⟨text, htext, hstyle⟩ := ok_bind hstyle
        obtain ⟨-, hstyle⟩ := refuse_bind_ok.mp hstyle
        rw [if_pos hstyleKey]
        exact bind_ok_iff.mpr ⟨text, htext, ih hreference hstyle⟩
      · rename_i hstyleKey
        rw [if_neg hstyleKey]
        exact ih hreference hstyle

/-! ## Places -/

theorem metadataRowNumber_of {element : Element} {state : MetadataState} {last : Option Nat}
    {row : Nat} (hnext : state.nextRow = following last)
    (hrow : rowOf part element last = some row) (hlt : row < maxExcelRows)
    (hafter : following last ≤ row) : metadataRowNumber part element state = .ok row := by
  obtain ⟨given, hgiven, said, hsaid, hrow⟩ := placeOf_eq_some.mp hrow
  have hrefuse : (refuse (row < state.nextRow)
      (malformed part "worksheet metadata rows are out of order") : Except ConversionError Unit) =
      .ok () := refuse_of_not (hnext ▸ Nat.not_lt.mpr hafter)
  cases given with
  | none =>
    cases hsaid
    obtain rfl : following last = row := hrow
    have hattribute : optionalU32Attribute part element "r" = .ok none :=
      optionalU32From_of (g := fun _ => 0) hgiven fun text htext => by cases htext
    refine bind_ok_iff.mpr ⟨none, hattribute, bind_ok_iff.mpr ⟨_, congrArg Except.ok hnext, ?_⟩⟩
    rw [hrefuse]
    rfl
  | some text =>
    obtain ⟨n, hn, rfl⟩ := map_ok hsaid
    obtain rfl : n = row := hrow
    rw [rowIndex] at hn
    split at hn
    · rename_i m hparse
      obtain rfl := Except.ok.inj hn
      have hattribute : optionalU32Attribute part element "r" = .ok (some (m + 1)) :=
        optionalU32From_of (g := fun _ => m + 1) hgiven fun text' htext => by
          obtain rfl := Option.some.inj htext
          exact hparse
      refine bind_ok_iff.mpr ⟨_, hattribute, bind_ok_iff.mpr ⟨m, ?_, ?_⟩⟩
      · rw [explicitRow, if_pos ⟨Nat.succ_ne_zero m, hlt⟩, Nat.add_sub_cancel]
      · rw [hrefuse]
        rfl
    · cases hn

theorem metadataCoordinate_of (part : String) {given : Option Text} {row : Nat}
    {state : MetadataState} {last : Option Nat} {said : Option CellCoordinate} {coordinate : CellCoordinate}
    (hnext : state.nextColumn = following last) (hsaid : onSome parseCellRef given = .ok said)
    (hcoordinate : said.getD (row, following last) = coordinate) (hrow : coordinate.1 = row)
    (hafter : following last ≤ coordinate.2) :
    metadataCoordinate part given row state = .ok coordinate := by
  refine bind_ok_iff.mpr ⟨said, hsaid, ?_⟩
  dsimp only
  rw [hnext, hcoordinate]
  exact refuse_bind_ok.mpr ⟨by omega, rfl⟩

/-! ## The scan of the metadata -/

structure MetadataTracks (state : MetadataState) (position : Position) : Prop where
  depth : position.opaqueDepth = state.opaqueDepth
  currentRow : state.currentRow = position.current.map Prod.fst
  nextRow : state.nextRow = following position.closed
  nextColumn : ∀ row last, position.current = some (row, last) → state.nextColumn = following last

theorem MetadataTracks.init : MetadataTracks {} {} :=
  ⟨rfl, rfl, rfl, (fun _ _ h => by cases h)⟩

section
variable {consumed : Bool} {scan scan' : Scan} {position : Position} {event : Event}
  {element : Element} {empty : Bool} {state state' : MetadataState}

theorem Tracks.row_of_did (h : Tracks consumed scan position)
    (hdid : Did part consumed scan scan' event)
    (htag : tagOf scan.opaqueDepth event = some (element, empty)) (hname : element.name = "row") :
    position.current = none ∧ ∃ row, rowNumber part element scan.state = .ok row ∧
      rowOf part element position.closed = some row ∧ following position.closed ≤ row := by
  cases hdid with
  | nothing _ hquiet _ => exact absurd hname (hquiet _ htag).1
  | row htag' _ _ hopen _ hrow _ =>
    obtain ⟨rfl, rfl⟩ := Prod.mk.inj (Option.some.inj (htag'.symm.trans htag))
    exact ⟨h.current_none hopen, _, hrow, (rowNumber_ok_iff h.follows.nextRow).mp hrow⟩
  | cell htag' hname' =>
    obtain ⟨rfl, rfl⟩ := Prod.mk.inj (Option.some.inj (htag'.symm.trans htag))
    rw [hname] at hname'
    exact absurd hname' (by decide)
  | endCell hevent => exact absurd htag (by rw [hevent]; exact fun h => by cases h)
  | endRow hevent => exact absurd htag (by rw [hevent]; exact fun h => by cases h)

theorem Tracks.cell_of_did (h : Tracks consumed scan position)
    (hdid : Did part consumed scan scan' event)
    (htag : tagOf scan.opaqueDepth event = some (element, empty)) (hname : element.name = "c") :
    ∃ row last coordinate, position.current = some (row, last) ∧
      scan.state.currentRow = some row ∧
      cellCoordinate part element row scan.state = .ok coordinate ∧
      cellOf part element row last = some coordinate ∧ coordinate.1 = row ∧
      following last ≤ coordinate.2 ∧ ∃ style, attributeOf part element "s" = .ok style := by
  cases hdid with
  | nothing _ hquiet _ => exact absurd hname (hquiet _ htag).2
  | row htag' hname' =>
    obtain ⟨rfl, rfl⟩ := Prod.mk.inj (Option.some.inj (htag'.symm.trans htag))
    rw [hname] at hname'
    exact absurd hname' (by decide)
  | cell htag' _ _ hopen _ hcoordinate hstyle _ =>
    obtain ⟨rfl, rfl⟩ := Prod.mk.inj (Option.some.inj (htag'.symm.trans htag))
    obtain ⟨last, hcurrent⟩ := h.current_some hopen
    have hlast := h.follows.lastCoordinate
    rw [hcurrent] at hlast
    obtain ⟨hcell, hrow, hafter⟩ :=
      (cellCoordinate_ok_iff (h.follows.nextColumn _ last hcurrent) hlast).mp hcoordinate
    exact ⟨_, last, _, hcurrent, hopen, hcoordinate, hcell, hrow, hafter, hstyle⟩
  | endCell hevent => exact absurd htag (by rw [hevent]; exact fun h => by cases h)
  | endRow hevent => exact absurd htag (by rw [hevent]; exact fun h => by cases h)

theorem markCell_ok {options : Options} {styles : List (List InlineMark)}
    {coordinate : CellCoordinate} {style : Option Text}
    (h : markCell part options styles coordinate style state = .ok state') :
    ∃ marks, state' = { state with marks } := by
  unfold markCell at h
  split at h
  · cases h
    exact ⟨_, rfl⟩
  · obtain ⟨index, -, h⟩ := ok_bind h
    split at h
    · obtain ⟨-, h⟩ := refuse_bind_ok.mp h
      cases h
      exact ⟨_, rfl⟩
    · split at h
      · cases h
        exact ⟨_, rfl⟩
      · cases h
        exact ⟨_, rfl⟩

theorem hideRow_ok {options : Options} {row : Nat} {hidden : Bool}
    (h : hideRow part options row hidden state = .ok state') :
    ∃ hiddenRows hiddenRowFieldBytes, state' = { state with hiddenRows, hiddenRowFieldBytes } := by
  rw [hideRow] at h
  split at h
  · obtain ⟨⟨ranges, bytes⟩, -, h⟩ := ok_bind h
    cases h
    exact ⟨ranges, bytes, rfl⟩
  · cases h
    exact ⟨_, _, rfl⟩

theorem metadataColumn_ok {options : Options}
    (h : metadataColumn part options element state = .ok state') :
    ∃ hiddenColumns hiddenColumnFieldBytes,
      state' = { state with hiddenColumns, hiddenColumnFieldBytes } := by
  rw [metadataColumn] at h
  obtain ⟨hidden, -, h⟩ := ok_bind h
  split at h
  · obtain ⟨first, -, h⟩ := ok_bind h
    obtain ⟨last, -, h⟩ := ok_bind h
    obtain ⟨-, h⟩ := refuse_bind_ok.mp h
    obtain ⟨⟨ranges, bytes⟩, -, h⟩ := ok_bind h
    cases h
    exact ⟨ranges, bytes, rfl⟩
  · cases h
    exact ⟨_, _, rfl⟩

/-- A tag moves the scan of the metadata as it moves the stream. -/
theorem MetadataTracks.tag {options : Options} {styles : List (List InlineMark)}
    (h : MetadataTracks state position) (htracks : Tracks consumed scan position)
    (hdid : Did part consumed scan scan' event) (hinside : position.Inside part event)
    (htag : tagOf position.opaqueDepth event = some (element, empty))
    (hstate : metadataTag part options styles element empty state = .ok state') :
    MetadataTracks state' (position.tag part element empty) := by
  have htag' : tagOf scan.opaqueDepth event = some (element, empty) := htracks.depth ▸ htag
  unfold metadataTag at hstate
  split at hstate
  · rename_i hname
    obtain ⟨row, last, ⟨row', column⟩, hcurrent, -, -, hcell, hrow, hafter, style, hstyle⟩ :=
      htracks.cell_of_did hdid htag' hname
    obtain rfl : row' = row := hrow
    have hgrid := hinside.cell htag hname hcurrent hcell
    have hopen : state.currentRow = some row' := by rw [h.currentRow, hcurrent]; rfl
    obtain ⟨given, hgiven, said, hsaid, hcoordinate⟩ := placeOf_eq_some.mp hcell
    unfold metadataCell at hstate
    rw [hopen] at hstate
    obtain ⟨attributes, hattributes, hstate⟩ := ok_bind hstate
    obtain rfl := Except.ok.inj (hattributes.symm.trans (cellAttributes_of hgiven hstyle))
    obtain ⟨coordinate, hplace, hstate⟩ := ok_bind hstate
    have hplace' := metadataCoordinate_of part (h.nextColumn row' last hcurrent) hsaid
      hcoordinate rfl hafter
    obtain rfl := Except.ok.inj (hplace.symm.trans hplace')
    obtain ⟨marks, rfl⟩ := markCell_ok hstate
    rw [Position.tag_cell hname hcurrent hcell]
    refine ⟨h.depth, rfl, h.nextRow, fun row last hsome => ?_⟩
    cases hsome
    exact saturatingAdd_column hgrid.2
  · rename_i hname
    obtain ⟨hcurrent, row, -, hrow, hafter⟩ := htracks.row_of_did hdid htag' hname
    have hlt := hinside.row htag hname hrow
    obtain ⟨-, hstate⟩ := refuse_bind_ok.mp hstate
    obtain ⟨row', hrow', hstate⟩ := ok_bind hstate
    obtain rfl := Except.ok.inj
      (hrow'.symm.trans (metadataRowNumber_of h.nextRow hrow hlt hafter))
    obtain ⟨hidden, -, hstate⟩ := ok_bind hstate
    obtain ⟨hiddenState, hhidden, hstate⟩ := ok_bind hstate
    obtain ⟨hiddenRows, bytes, rfl⟩ := hideRow_ok hhidden
    rw [Position.tag_row hname hrow]
    split at hstate
    · rename_i hempty
      cases hstate
      rw [if_pos hempty]
      refine ⟨h.depth, congrArg (Option.map Prod.fst) hcurrent.symm, saturatingAdd_row hlt,
        fun row last hsome => ?_⟩
      exact absurd (hcurrent.symm.trans hsome) (by simp)
    · rename_i hempty
      cases hstate
      rw [if_neg hempty]
      refine ⟨h.depth, rfl, h.nextRow, fun row last hsome => ?_⟩
      cases hsome
      rfl
  · rename_i hname
    obtain ⟨hiddenColumns, bytes, rfl⟩ := metadataColumn_ok hstate
    have hquiet : position.tag part element empty = position := by simp [Position.tag, hname]
    rw [hquiet]
    exact ⟨h.depth, h.currentRow, h.nextRow, h.nextColumn⟩
  · rename_i hcell hrow _
    cases hstate
    have hquiet : position.tag part element empty = position := by
      unfold Position.tag
      split
      · exact absurd ‹_› hrow
      · exact absurd ‹_› hcell
      · rfl
    rw [hquiet]
    exact h

theorem MetadataTracks.step {options : Options} {styles : List (List InlineMark)}
    (h : MetadataTracks state position) (htracks : Tracks consumed scan position)
    (hdid : Did part consumed scan scan' event) (hinside : position.Inside part event)
    (hok : metadataStep part options styles state event = .ok state') :
    MetadataTracks state' (position.next part event) := by
  have hstate : metadataEvent part options styles state event = .ok state' := by
    obtain ⟨middle, hmiddle, hok⟩ := ok_bind hok
    obtain ⟨-, hok⟩ := refuse_bind_ok.mp hok
    exact Except.ok.inj hok ▸ hmiddle
  clear hok
  have hdepth := h.depth
  cases event with
  | broken error => cases hstate
  | docType => cases hstate
  | other =>
    cases hstate
    exact h
  | reference value =>
    obtain ⟨c, -, hstate⟩ := ok_bind hstate
    cases hstate
    exact h
  | text value =>
    cases hstate
    exact h
  | start element =>
    rw [metadataEvent, ← hdepth] at hstate
    rw [Position.next]
    split at hstate
    · rename_i hshut
      obtain ⟨-, hstate⟩ := refuse_bind_ok.mp hstate
      cases hstate
      rw [if_pos (Or.inl hshut)]
      exact ⟨rfl, h.currentRow, h.nextRow, h.nextColumn⟩
    · rename_i hshut
      have hzero : position.opaqueDepth = 0 := Nat.eq_zero_of_not_pos hshut
      split at hstate
      · rename_i hcore
        obtain ⟨-, hstate⟩ := refuse_bind_ok.mp hstate
        cases hstate
        rw [if_pos (Or.inr hcore)]
        exact ⟨congrArg (· + 1) hzero, h.currentRow, h.nextRow, h.nextColumn⟩
      · rename_i hcore
        rw [if_neg (not_or.mpr ⟨hshut, hcore⟩)]
        exact h.tag htracks hdid hinside (by simp [tagOf, hzero, hcore]) hstate
  | empty element =>
    rw [metadataEvent, ← hdepth] at hstate
    rw [Position.next]
    split at hstate
    · rename_i hshut
      cases hstate
      rw [if_pos hshut]
      exact h
    · rename_i hshut
      obtain ⟨hpos, hcore⟩ := not_or.mp hshut
      rw [if_neg hshut]
      exact h.tag htracks hdid hinside
        (by simp [tagOf, Nat.eq_zero_of_not_pos hpos, hcore]) hstate
  | close name core =>
    rw [metadataEvent, ← hdepth] at hstate
    rw [Position.next]
    split at hstate
    · rename_i hshut
      cases hstate
      rw [if_pos hshut]
      exact ⟨rfl, h.currentRow, h.nextRow, h.nextColumn⟩
    · rename_i hshut
      rw [if_neg hshut]
      split at hstate
      · rename_i hcore
        unfold metadataClose at hstate
        split at hstate
        · split at hstate
          · cases hstate
          · rename_i row hopen
            cases hstate
            rw [if_pos ⟨hcore, rfl⟩]
            have hcurrent := h.currentRow.symm.trans hopen
            obtain ⟨⟨row', last⟩, hsome, rfl⟩ := Option.map_eq_some_iff.mp hcurrent
            have hlt := (htracks.bounded.current row' last hsome).1
            refine ⟨h.depth, rfl, ?_, (fun row last h => by cases h)⟩
            rw [hcurrent]
            exact saturatingAdd_row hlt
        · rename_i hrow
          cases hstate
          rw [if_neg fun h => hrow h.2]
          exact h
      · rename_i hcore
        cases hstate
        rw [if_neg fun h => hcore h.1]
        exact h

end

end

end IntoMarkdown.Sheet
