import IntoMarkdown.Ir.Model
import IntoMarkdown.Lib.Except
import IntoMarkdown.Lib.Tiling

/-! # Validation of tables

The validator sweeps over the rows with one counter a column. Contents of cells are
validated by the function it is given. -/

namespace IntoMarkdown.Ir

open Lib Lib.Tiling

def consumeStructuralNode (limits : ValidationLimits) (path : String)
    (state : ValidationState) : Except IrError ValidationState :=
  let state := { state with nodeCount := saturatingAdd state.nodeCount 1 }
  if limits.maxNodes.toNat < state.nodeCount then
    .error (resourceLimit path "documentNodes" limits.maxNodes)
  else
    .ok state

/-- What validates the blocks of a cell, at a path. -/
abbrev BlocksValidator (β : Type) :=
  List β → String → ValidationState → Except IrError ValidationState

section
variable {β : Type} (limits : ValidationLimits) (validateNodes : BlocksValidator β)

/-- Some slot of the half-open range is taken, when the whole range exists. -/
def overlaps (occupancy : List Nat) (start stop : Nat) : Bool :=
  stop ≤ occupancy.length && ((occupancy.take stop).drop start).any (0 < ·)

def validateCell (tableWidth : Option Nat) (cellPath : String) (cell : Cell β) (sweep : Sweep)
    (state : ValidationState) : Except IrError (Sweep × ValidationState) := do
  let column := sweep.start
  let state ← consumeStructuralNode limits cellPath state
  refuse (cell.rowSpan = 0 ∨ cell.columnSpan = 0)
    (invalidNode s!"{cellPath}.rowSpan" "table spans must be positive")
  let stop := column + cell.columnSpan.toNat
  refuse (2 ^ 64 ≤ stop)
    ⟨.resourceLimit, s!"{cellPath}.columnSpan", "logical table width overflowed"⟩
  refuse (limits.maxTableColumns.toNat < stop)
    (resourceLimit s!"{cellPath}.columnSpan" "tableColumns" limits.maxTableColumns)
  refuse (tableWidth.any (· < stop))
    (invalidNode s!"{cellPath}.columnSpan" "cell extends beyond the table's logical width")
  refuse (overlaps sweep.counters column stop)
    (invalidNode s!"{cellPath}.columnSpan" "cell overlaps a row-spanning cell")
  let sweep := sweep.place cell.rowSpan.toNat cell.columnSpan.toNat
  let state ← validateNodes cell.blocks s!"{cellPath}.blocks" state
  return (sweep, state)

def validateCells (tableWidth : Option Nat) (rowPath : String) :
    Nat → List (Cell β) → Sweep → ValidationState → Except IrError (Sweep × ValidationState)
  | _, [], sweep, state => .ok (sweep, state)
  | index, cell :: cells, sweep, state => do
    let r ← validateCell limits validateNodes tableWidth s!"{rowPath}.cells[{index}]" cell
      sweep state
    validateCells tableWidth rowPath (index + 1) cells r.1 r.2

/-- The columns of the table are those of its first row. -/
def validateRow (tableWidth : Option Nat) (rowPath : String) (row : TableRow β)
    (occupancy : List Nat) (state : ValidationState) :
    Except IrError (Nat × List Nat × ValidationState) := do
  let state ← consumeStructuralNode limits rowPath state
  let r ← validateCells limits validateNodes tableWidth rowPath 0 row.cells ⟨occupancy, 0⟩ state
  let occupancy := r.1.counters
  let width := tableWidth.getD occupancy.length
  refuse (width = 0) (invalidNode s!"{rowPath}.cells" "table must have a logical column")
  refuse (occupancy.length ≠ width ∨ 0 ∈ occupancy)
    (invalidNode rowPath "table rows must have the same logical width")
  return (width, occupancy.map (· - 1), r.2)

def validateRows (path : String) :
    Option Nat → Nat → List (TableRow β) → List Nat → ValidationState →
      Except IrError (Option Nat × List Nat × ValidationState)
  | tableWidth, _, [], occupancy, state => .ok (tableWidth, occupancy, state)
  | tableWidth, index, row :: rows, occupancy, state => do
    let r ← validateRow limits validateNodes tableWidth s!"{path}.data.rows[{index}]" row
      occupancy state
    validateRows path (some r.1) (index + 1) rows r.2.1 r.2.2

def validateTable (rows : List (TableRow β)) (alignments : List TableAlignment) (path : String)
    (state : ValidationState) : Except IrError ValidationState := do
  refuse (rows = []) (invalidNode s!"{path}.data.rows" "table must contain a row")
  let r ← validateRows limits validateNodes path none 0 rows [] state
  refuse (r.2.1.any (0 < ·))
    (invalidNode s!"{path}.data.rows" "row span extends beyond the final table row")
  refuse (alignments ≠ [] ∧ some alignments.length ≠ r.1)
    (invalidNode s!"{path}.data.alignments"
      "table alignments must be empty or match the logical column count")
  return r.2.2

/-! ## Contents -/

/-- The same walk with no look at the spans. -/
def contentsCells (rowPath : String) :
    Nat → List (Cell β) → ValidationState → Except IrError ValidationState
  | _, [], state => .ok state
  | index, cell :: cells, state => do
    let cellPath := s!"{rowPath}.cells[{index}]"
    let state ← consumeStructuralNode limits cellPath state
    let state ← validateNodes cell.blocks s!"{cellPath}.blocks" state
    contentsCells rowPath (index + 1) cells state

def contentsRows (path : String) :
    Nat → List (TableRow β) → ValidationState → Except IrError ValidationState
  | _, [], state => .ok state
  | index, row :: rows, state => do
    let rowPath := s!"{path}.data.rows[{index}]"
    let state ← consumeStructuralNode limits rowPath state
    let state ← contentsCells limits validateNodes rowPath 0 row.cells state
    contentsRows path (index + 1) rows state

/-- The contents alone are valid and within the limits. -/
def ContentsValid (path : String) (rows : List (TableRow β)) (state : ValidationState) : Prop :=
  ∃ state', contentsRows limits validateNodes path 0 rows state = .ok state'

end

/-! ## Extents -/

def Cell.extent {β : Type} (cell : Cell β) : Extent := ⟨cell.rowSpan.toNat, cell.columnSpan.toNat⟩

def TableRow.extents {β : Type} (row : TableRow β) : List Extent := row.cells.map Cell.extent

def extents {β : Type} (rows : List (TableRow β)) : List (List Extent) :=
  rows.map TableRow.extents

/-- The cells in order, each at the first free column of its row, cover every slot of
a grid of this width once. -/
def TilesGrid {β : Type} (rows : List (TableRow β)) (W : Nat) : Prop :=
  (∃ placed, Places [] (itemsFrom 0 (extents rows)) placed ∧ Tiles rows.length W placed) ∧
    ∀ row ∈ rows, ∀ cell ∈ row.cells, 0 < cell.rowSpan ∧ 0 < cell.columnSpan

section
variable {β : Type} {limits : ValidationLimits} {validateNodes : BlocksValidator β}
  {tableWidth : Option Nat} {cellPath rowPath path : String} {cell : Cell β} {sweep : Sweep}
  {state : ValidationState}

/-- The checks of one cell. -/
structure Admits (limits : ValidationLimits) (tableWidth : Option Nat) (sweep : Sweep)
    (e : Extent) : Prop where
  height : 0 < e.height
  width : 0 < e.width
  bounded : sweep.start + e.width ≤ limits.maxTableColumns.toNat
  within : ∀ W ∈ tableWidth, sweep.start + e.width ≤ W
  apart : overlaps sweep.counters sweep.start (sweep.start + e.width) = false

theorem spans_positive_iff :
    (¬ (cell.rowSpan = 0 ∨ cell.columnSpan = 0)) ↔
      0 < cell.extent.height ∧ 0 < cell.extent.width := by
  simp only [not_or, ← UInt32.toNat_inj, Cell.extent, UInt32.toNat_zero, Nat.pos_iff_ne_zero,
    ne_eq]

theorem none_less_iff {n : Nat} :
    (¬ tableWidth.any (· < n) = true) ↔ ∀ W ∈ tableWidth, n ≤ W := by
  cases tableWidth with
  | none => simp
  | some W => simp

theorem validateCell_ok_iff {r : Sweep × ValidationState} :
    validateCell limits validateNodes tableWidth cellPath cell sweep state = .ok r ↔
      Admits limits tableWidth sweep cell.extent ∧
        r.1 = sweep.place cell.extent.height cell.extent.width ∧
        ∃ counted, consumeStructuralNode limits cellPath state = .ok counted ∧
          validateNodes cell.blocks s!"{cellPath}.blocks" counted = .ok r.2 := by
  have hword : limits.maxTableColumns.toNat < 2 ^ 64 := limits.maxTableColumns.toNat_lt
  unfold validateCell
  rw [bind_ok_iff]
  simp only [refuse_bind_ok, spans_positive_iff]
  simp only [bind_ok_iff, pure, Except.pure]
  constructor
  · rintro ⟨counted, hcounted, ⟨hheight, hwidth⟩, -, hbounded, hwithin, hapart, last, hlast, h⟩
    obtain rfl := Except.ok.inj h
    exact ⟨⟨hheight, hwidth, Nat.le_of_not_lt hbounded, none_less_iff.mp hwithin,
      Bool.eq_false_iff.mpr hapart⟩, rfl, counted, hcounted, hlast⟩
  · rintro ⟨⟨hheight, hwidth, hbounded, hwithin, hapart⟩, hplace, counted, hcounted, hlast⟩
    have hin : sweep.start + cell.columnSpan.toNat ≤ limits.maxTableColumns.toNat := hbounded
    refine ⟨counted, hcounted, ⟨hheight, hwidth⟩, by omega, by omega,
      none_less_iff.mpr hwithin, Bool.eq_false_iff.mp hapart, r.2, hlast, ?_⟩
    rw [show cell.rowSpan.toNat = cell.extent.height from rfl,
      show cell.columnSpan.toNat = cell.extent.width from rfl, ← hplace]

/-- The checks of the cells of a row, one after the other. -/
inductive CellsAdmit (limits : ValidationLimits) (tableWidth : Option Nat) :
    Sweep → List Extent → Sweep → Prop where
  | done (sweep : Sweep) : CellsAdmit limits tableWidth sweep [] sweep
  | next {sweep last : Sweep} {e : Extent} {row : List Extent}
      (h : Admits limits tableWidth sweep e)
      (hrest : CellsAdmit limits tableWidth (sweep.place e.height e.width) row last) :
      CellsAdmit limits tableWidth sweep (e :: row) last

inductive RowsAdmit (limits : ValidationLimits) :
    Option Nat → List Nat → List (List Extent) → Option Nat → List Nat → Prop where
  | done (tableWidth : Option Nat) (occupancy : List Nat) :
      RowsAdmit limits tableWidth occupancy [] tableWidth occupancy
  | next {tableWidth tableWidth' : Option Nat} {occupancy last : List Nat} {sweep : Sweep}
      {row : List Extent} {rows : List (List Extent)}
      (hcells : CellsAdmit limits tableWidth ⟨occupancy, 0⟩ row sweep)
      (hwidth : tableWidth.getD sweep.counters.length ≠ 0)
      (hlength : sweep.counters.length = tableWidth.getD sweep.counters.length)
      (hfull : 0 ∉ sweep.counters)
      (hrest : RowsAdmit limits (some sweep.counters.length) sweep.nextRow.counters rows
        tableWidth' last) :
      RowsAdmit limits tableWidth occupancy (row :: rows) tableWidth' last

theorem validateCells_ok_iff {index : Nat} {cells : List (Cell β)}
    {r : Sweep × ValidationState} :
    validateCells limits validateNodes tableWidth rowPath index cells sweep state = .ok r ↔
      CellsAdmit limits tableWidth sweep (cells.map Cell.extent) r.1 ∧
        contentsCells limits validateNodes rowPath index cells state = .ok r.2 := by
  induction cells generalizing index sweep state with
  | nil =>
    constructor
    · intro h
      obtain rfl := Except.ok.inj h
      exact ⟨.done sweep, rfl⟩
    · rintro ⟨hcells, hcontents⟩
      cases hcells
      exact congrArg (fun state => Except.ok (r.1, state)) (Except.ok.inj hcontents)
  | cons cell cells ih =>
    simp only [validateCells, contentsCells, bind_ok_iff, List.map_cons, ih,
      validateCell_ok_iff]
    constructor
    · rintro ⟨q, ⟨hadmits, hplace, counted, hcounted, hvalid⟩, hrest, hcontents⟩
      rw [hplace] at hrest
      exact ⟨.next hadmits hrest, counted, hcounted, q.2, hvalid, hcontents⟩
    · rintro ⟨hcells, counted, hcounted, state', hvalid, hcontents⟩
      cases hcells with
      | next hadmits hrest =>
        exact ⟨(_, state'), ⟨hadmits, rfl, counted, hcounted, hvalid⟩, hrest, hcontents⟩

theorem validateRow_ok_iff {row : TableRow β} {occupancy : List Nat}
    {r : Nat × List Nat × ValidationState} :
    validateRow limits validateNodes tableWidth rowPath row occupancy state = .ok r ↔
      ∃ last, CellsAdmit limits tableWidth ⟨occupancy, 0⟩ row.extents last ∧
        r.1 = tableWidth.getD last.counters.length ∧ r.1 ≠ 0 ∧ last.counters.length = r.1 ∧
        0 ∉ last.counters ∧ r.2.1 = last.nextRow.counters ∧
        ∃ counted, consumeStructuralNode limits rowPath state = .ok counted ∧
          contentsCells limits validateNodes rowPath 0 row.cells counted = .ok r.2.2 := by
  unfold validateRow
  simp only [bind_ok_iff (x := validateCells ..), bind_ok_iff (x := consumeStructuralNode ..),
    refuse_bind_ok, validateCells_ok_iff, pure, Except.pure, not_or, not_not]
  constructor
  · rintro ⟨counted, hcounted, q, ⟨hcells, hcontents⟩, hwidth, ⟨hlength, hfull⟩, h⟩
    obtain rfl := Except.ok.inj h
    exact ⟨q.1, hcells, rfl, hwidth, hlength, hfull, rfl, counted, hcounted, hcontents⟩
  · rintro ⟨last, hcells, hfirst, hwidth, hlength, hfull, hnext, counted, hcounted, hcontents⟩
    rw [hfirst] at hwidth hlength
    refine ⟨counted, hcounted, (last, r.2.2), ⟨hcells, hcontents⟩, hwidth, ⟨hlength, hfull⟩, ?_⟩
    rw [← hfirst]
    exact congrArg (fun counters => Except.ok (r.1, counters, r.2.2)) hnext.symm

theorem validateRows_ok_iff {index : Nat} {rows : List (TableRow β)} {occupancy : List Nat}
    {r : Option Nat × List Nat × ValidationState} :
    validateRows limits validateNodes path tableWidth index rows occupancy state = .ok r ↔
      RowsAdmit limits tableWidth occupancy (extents rows) r.1 r.2.1 ∧
        contentsRows limits validateNodes path index rows state = .ok r.2.2 := by
  induction rows generalizing tableWidth index occupancy state with
  | nil =>
    constructor
    · intro h
      obtain rfl := Except.ok.inj h
      exact ⟨.done tableWidth occupancy, rfl⟩
    · rintro ⟨hrows, hcontents⟩
      obtain ⟨width, last, state'⟩ := r
      cases hrows
      exact congrArg (fun state => Except.ok (_, _, state)) (Except.ok.inj hcontents)
  | cons row rows ih =>
    simp only [validateRows, contentsRows, bind_ok_iff, extents, List.map_cons,
      validateRow_ok_iff]
    constructor
    · rintro ⟨q, ⟨last, hcells, hfirst, hwidth, hlength, hfull, hnext, counted, hcounted,
        hcontents⟩, hrest⟩
      obtain ⟨hrest, hrestContents⟩ := ih.mp hrest
      rw [← hlength, hnext] at hrest
      rw [hfirst] at hwidth hlength
      exact ⟨.next hcells hwidth hlength hfull hrest, counted, hcounted, q.2.2, hcontents,
        hrestContents⟩
    · rintro ⟨hrows, counted, hcounted, state', hcontents, hrestContents⟩
      cases hrows with
      | @next _ _ _ _ last _ _ hcells hwidth hlength hfull hrest =>
        refine ⟨(last.counters.length, last.nextRow.counters, state'), ⟨last, hcells, hlength,
          ?_, rfl, hfull, rfl, counted, hcounted, hcontents⟩, ih.mpr ⟨hrest, hrestContents⟩⟩
        rwa [← hlength] at hwidth

/-! ## Admitted rows are runs -/

/-- Before the width is fixed the counters end where the sweep stands. -/
def AtWidth : Option Nat → Sweep → Prop
  | none, sweep => sweep.counters.length = sweep.column
  | some W, sweep => sweep.counters.length = W

theorem start_of_fresh (h : AtWidth none sweep) : sweep.start = sweep.counters.length := by
  have hcolumn : sweep.counters.length = sweep.column := h
  rw [Sweep.start, skip, ← hcolumn, List.drop_length]
  rfl

theorem AtWidth.place (h : AtWidth tableWidth sweep) {e : Extent}
    (hadmits : ∀ W ∈ tableWidth, sweep.start + e.width ≤ W) :
    AtWidth tableWidth (sweep.place e.height e.width) := by
  cases tableWidth with
  | none =>
    have hstart := start_of_fresh h
    simp only [AtWidth, Sweep.place, length_fill]
    omega
  | some W =>
    have hlength : sweep.counters.length = W := h
    have hle := hadmits W rfl
    simp only [AtWidth, Sweep.place, length_fill]
    omega

theorem overlaps_eq_false_iff {occupancy : List Nat} {start stop : Nat} :
    overlaps occupancy start stop = false ↔
      (stop ≤ occupancy.length → ∀ c, start ≤ c → c < stop → occupancy.getD c 0 = 0) := by
  by_cases hstop : stop ≤ occupancy.length
  · simp only [overlaps, hstop, decide_true, Bool.true_and, true_implies, List.any_eq_false,
      decide_eq_true_eq, Nat.not_lt, Nat.le_zero]
    constructor
    · intro h c hstart hc
      rw [List.getD_eq_getElem _ _ (Nat.lt_of_lt_of_le hc hstop)]
      refine h _ (List.mem_iff_getElem.mpr ⟨c - start, ?_, ?_⟩)
      · simp only [List.length_drop, List.length_take]
        omega
      · simp only [List.getElem_drop, List.getElem_take, Nat.add_sub_cancel' hstart]
    · intro h v hv
      obtain ⟨k, hk, rfl⟩ := List.mem_iff_getElem.mp hv
      simp only [List.length_drop, List.length_take] at hk
      have hfree := h (start + k) (by omega) (by omega)
      rw [List.getD_eq_getElem _ _ (by omega)] at hfree
      simpa only [List.getElem_drop, List.getElem_take] using hfree
  · simp [overlaps, hstop]

/-- Beyond the counters there is nothing to overlap with. -/
theorem Admits.free {e : Extent} (h : Admits limits tableWidth sweep e)
    (hat : AtWidth tableWidth sweep) :
    ∀ c, sweep.start ≤ c → c < sweep.start + e.width → sweep.counters.getD c 0 = 0 := by
  intro c hstart hc
  cases tableWidth with
  | none =>
    rw [start_of_fresh hat] at hstart
    exact List.getD_eq_default _ _ hstart
  | some W =>
    have hlength : sweep.counters.length = W := hat
    exact overlaps_eq_false_iff.mp h.apart (hlength ▸ h.within W rfl) c hstart hc

theorem CellsAdmit.length_le {row : List Extent} {last : Sweep}
    (h : CellsAdmit limits tableWidth sweep row last) :
    sweep.counters.length ≤ last.counters.length := by
  induction h with
  | done sweep => exact le_rfl
  | next _ _ ih =>
    refine le_trans ?_ ih
    rw [Sweep.place, length_fill]
    exact le_max_left _ _

theorem CellsAdmit.run {row : List Extent} {last : Sweep} {W r : Nat} {placed : List Rect}
    (h : CellsAdmit limits tableWidth sweep row last) (hat : AtWidth tableWidth sweep)
    (hlast : last.counters.length ≤ W) :
    ∃ middle, CellsRun W r placed sweep row middle last := by
  induction h generalizing placed with
  | done sweep => exact ⟨placed, .done placed sweep⟩
  | @next sweep last e row hadmits hrest ih =>
    have hin : sweep.start + e.width ≤ W := by
      have hlength := hrest.length_le
      rw [Sweep.place, length_fill] at hlength
      omega
    have hnext : ∃ middle, CellsRun W r (placed ++ [⟨r, sweep.start, e.height, e.width⟩])
        (sweep.place e.height e.width) row middle last := ih (hat.place hadmits.within) hlast
    obtain ⟨middle, hrun⟩ := hnext
    exact ⟨middle, .next hadmits.height hadmits.width hin (hadmits.free hat) hrun⟩

theorem admits_of_run {e : Extent} {W : Nat} (hheight : 0 < e.height) (hwidth : 0 < e.width)
    (hin : sweep.start + e.width ≤ W)
    (hfree : ∀ c, sweep.start ≤ c → c < sweep.start + e.width → sweep.counters.getD c 0 = 0)
    (hW : W ≤ limits.maxTableColumns.toNat) (htable : ∀ W' ∈ tableWidth, W' = W) :
    Admits limits tableWidth sweep e where
  height := hheight
  width := hwidth
  bounded := hin.trans hW
  within W' hW' := (htable W' hW').symm ▸ hin
  apart := overlaps_eq_false_iff.mpr fun _ => hfree

theorem CellsAdmit.of_run {row : List Extent} {last : Sweep} {W r : Nat}
    {placed middle : List Rect} (h : CellsRun W r placed sweep row middle last)
    (hW : W ≤ limits.maxTableColumns.toNat) (htable : ∀ W' ∈ tableWidth, W' = W) :
    CellsAdmit limits tableWidth sweep row last := by
  induction h with
  | done placed sweep => exact .done sweep
  | next hheight hwidth hin hfree _ ih =>
    exact .next (admits_of_run hheight hwidth hin hfree hW htable) ih

theorem zero_iff {last : List Nat} :
    (¬ last.any (0 < ·) = true) ↔ ∀ c, last.getD c 0 = 0 := by
  simp only [List.any_eq_true, decide_eq_true_eq, not_exists, not_and, Nat.not_lt, Nat.le_zero]
  constructor
  · intro h c
    rcases Nat.lt_or_ge c last.length with hc | hc
    · rw [List.getD_eq_getElem _ _ hc]
      exact h _ (List.getElem_mem hc)
    · exact List.getD_eq_default _ _ hc
  · intro h v hv
    obtain ⟨c, hc, rfl⟩ := List.mem_iff_getElem.mp hv
    rw [← List.getD_eq_getElem _ 0 hc]
    exact h c

theorem RowsAdmit.run {W r : Nat} {rows : List (List Extent)} {occupancy last : List Nat}
    {tableWidth' : Option Nat} {placed : List Rect}
    (h : RowsAdmit limits tableWidth occupancy rows tableWidth' last)
    (htable : tableWidth = some W) (hat : AtWidth tableWidth ⟨occupancy, 0⟩)
    (hlast : ∀ c, last.getD c 0 = 0) :
    tableWidth' = some W ∧ ∃ final, RowsRun W r placed occupancy rows final := by
  induction h generalizing r placed with
  | done tableWidth occupancy => exact ⟨htable, placed, .done hlast⟩
  | @next _ _ _ _ sweep row _ hcells _ hlength hfull _ ih =>
    subst htable
    have hW : sweep.counters.length = W := hlength
    have hrow : ∃ middle, CellsRun W r placed _ row middle sweep := hcells.run hat hW.le
    obtain ⟨middle, hrun⟩ := hrow
    have hnext : AtWidth (some sweep.counters.length) ⟨sweep.nextRow.counters, 0⟩ :=
      List.length_map _
    obtain ⟨hwidth', final, hrest⟩ := ih (congrArg some hW) hnext hlast
    exact ⟨hwidth', final, .next hrun hW hfull hrest⟩

theorem RowsAdmit.of_run {W r : Nat} {rows : List (List Extent)} {occupancy : List Nat}
    {placed final : List Rect} (h : RowsRun W r placed occupancy rows final)
    (hW : W ≤ limits.maxTableColumns.toNat) (hpos : W ≠ 0)
    (htable : ∀ W' ∈ tableWidth, W' = W) :
    ∃ last, (∀ c, last.getD c 0 = 0) ∧
      RowsAdmit limits tableWidth occupancy rows (if rows = [] then tableWidth else some W)
        last := by
  induction h generalizing tableWidth with
  | @done _ _ occupancy hover => exact ⟨occupancy, hover, .done tableWidth occupancy⟩
  | @next _ _ _ _ _ sweep _ rows hcells hlength hfull _ ih =>
    have hnext : ∀ W' ∈ some sweep.counters.length, W' = W := fun W' hW' =>
      (Option.mem_some_iff.mp hW').symm.trans hlength
    obtain ⟨last, hzero, hrest⟩ := ih hnext
    have hwidth : tableWidth.getD sweep.counters.length = W := by
      cases tableWidth with
      | none => exact hlength
      | some W' => exact htable W' rfl
    refine ⟨last, hzero, .next (.of_run hcells hW htable) (hwidth ▸ hpos)
      (hlength.trans hwidth.symm) hfull ?_⟩
    rw [hlength] at hrest ⊢
    simpa using hrest

theorem run_iff_tiles {rows : List (TableRow β)} {W : Nat} :
    (∃ final, RowsRun W 0 [] [] (extents rows) final) ↔ TilesGrid rows W := by
  have hlength : (extents rows).length = rows.length := List.length_map _
  have hspans : (∀ row ∈ extents rows, ∀ e ∈ row, 0 < e.height ∧ 0 < e.width) ↔
      ∀ row ∈ rows, ∀ cell ∈ row.cells, 0 < cell.rowSpan ∧ 0 < cell.columnSpan := by
    simp only [extents, TableRow.extents, List.forall_mem_map, Cell.extent, UInt32.lt_iff_toNat_lt,
      UInt32.toNat_zero]
  simp only [rowsRun_iff, hlength, hspans, TilesGrid]
  constructor
  · rintro ⟨final, hplaces, htiles, hpos⟩
    exact ⟨⟨final, hplaces, htiles⟩, hpos⟩
  · rintro ⟨⟨final, hplaces, htiles⟩, hpos⟩
    exact ⟨final, hplaces, htiles, hpos⟩

theorem CellsAdmit.bounded {row : List Extent} {last : Sweep}
    (h : CellsAdmit limits tableWidth sweep row last)
    (hlength : sweep.counters.length ≤ limits.maxTableColumns.toNat) :
    last.counters.length ≤ limits.maxTableColumns.toNat := by
  induction h with
  | done sweep => exact hlength
  | next hadmits _ ih =>
    refine ih ?_
    rw [Sweep.place, length_fill]
    exact max_le hlength hadmits.bounded

/-- Rows are admitted from the start just when they tile a grid. -/
theorem rowsAdmit_iff {rows : List (TableRow β)} (hrows : rows ≠ []) {W : Nat} :
    (∃ last, (∀ c, last.getD c 0 = 0) ∧
      RowsAdmit limits none [] (extents rows) (some W) last) ↔
      1 ≤ W ∧ W ≤ limits.maxTableColumns.toNat ∧ TilesGrid rows W := by
  rw [← run_iff_tiles]
  constructor
  · rintro ⟨last, hzero, hadmits⟩
    obtain ⟨row, rows, rfl⟩ := List.exists_cons_of_ne_nil hrows
    cases hadmits with
    | @next _ _ _ _ sweep _ _ hcells hwidth _ hfull hrest =>
      have hnext : AtWidth (some sweep.counters.length) ⟨sweep.nextRow.counters, 0⟩ :=
        List.length_map _
      have hrow : ∃ middle, CellsRun sweep.counters.length 0 [] ⟨[], 0⟩ row.extents middle sweep :=
        hcells.run rfl le_rfl
      obtain ⟨middle, hrun⟩ := hrow
      obtain ⟨hsame, final, hfinal⟩ := hrest.run rfl hnext hzero
      obtain rfl := Option.some.inj hsame
      exact ⟨Nat.one_le_iff_ne_zero.mpr hwidth, hcells.bounded (Nat.zero_le _), final,
        .next hrun rfl hfull hfinal⟩
  · rintro ⟨hpos, hmax, final, hrun⟩
    have hrows' : extents rows ≠ [] := fun h => hrows (List.map_eq_nil_iff.mp h)
    have hnone : ∀ W' ∈ (none : Option Nat), W' = W := fun W' hW' =>
      absurd hW' (Option.not_mem_none W')
    have hadmits := RowsAdmit.of_run hrun hmax (Nat.one_le_iff_ne_zero.mp hpos) hnone
    rwa [if_neg hrows'] at hadmits

theorem RowsAdmit.isSome {rows : List (List Extent)} {occupancy last : List Nat}
    {tableWidth' : Option Nat} (h : RowsAdmit limits tableWidth occupancy rows tableWidth' last)
    (hsome : tableWidth.isSome ∨ rows ≠ []) : tableWidth'.isSome := by
  induction h with
  | done tableWidth occupancy =>
    rcases hsome with hsome | hne
    · exact hsome
    · exact absurd rfl hne
  | next _ _ _ _ _ ih => exact ih (.inl rfl)

theorem validateTable_ok_iff {rows : List (TableRow β)} {alignments : List TableAlignment}
    {state' : ValidationState} :
    validateTable limits validateNodes rows alignments path state = .ok state' ↔
      rows ≠ [] ∧ contentsRows limits validateNodes path 0 rows state = .ok state' ∧
        ∃ W, 1 ≤ W ∧ W ≤ limits.maxTableColumns.toNat ∧ TilesGrid rows W ∧
          (alignments = [] ∨ alignments.length = W) := by
  unfold validateTable
  simp only [bind_ok_iff (x := validateRows ..), refuse_bind_ok, validateRows_ok_iff, pure,
    Except.pure]
  constructor
  · rintro ⟨hrows, ⟨width, last, state''⟩, ⟨hadmits, hcontents⟩, hlast, haligned, h⟩
    obtain rfl := Except.ok.inj h
    have hrows' : extents rows ≠ [] := fun h => hrows (List.map_eq_nil_iff.mp h)
    obtain ⟨W, rfl⟩ := Option.isSome_iff_exists.mp (hadmits.isSome (.inr hrows'))
    obtain ⟨hpos, hmax, htiles⟩ := (rowsAdmit_iff hrows).mp ⟨last, zero_iff.mp hlast, hadmits⟩
    refine ⟨hrows, hcontents, W, hpos, hmax, htiles, or_iff_not_imp_left.mpr fun hne => ?_⟩
    exact Option.some.inj (not_not.mp fun hwidth => haligned ⟨hne, hwidth⟩)
  · rintro ⟨hrows, hcontents, W, hpos, hmax, htiles, haligned⟩
    obtain ⟨last, hzero, hadmits⟩ := (rowsAdmit_iff hrows).mpr ⟨hpos, hmax, htiles⟩
    refine ⟨hrows, (some W, last, state'), ⟨hadmits, hcontents⟩, zero_iff.mpr hzero, ?_, rfl⟩
    rintro ⟨hne, hwidth⟩
    rcases haligned with haligned | haligned
    · exact hne haligned
    · exact hwidth (congrArg some haligned)

/-- The width that was found for an accepted table is that of the grid. -/
theorem validateTable_width {rows : List (TableRow β)} {alignments : List TableAlignment}
    {state' : ValidationState}
    (h : validateTable limits validateNodes rows alignments path state = .ok state') :
    ∃ W last, validateRows limits validateNodes path none 0 rows [] state =
        .ok (some W, last, state') ∧
      W ≤ limits.maxTableColumns.toNat ∧ TilesGrid rows W := by
  obtain ⟨hrows, h⟩ := refuse_bind_ok.mp h
  obtain ⟨⟨width, last, after⟩, hvalid, h⟩ := ok_bind h
  obtain ⟨hlast, h⟩ := refuse_bind_ok.mp h
  obtain ⟨-, h⟩ := refuse_bind_ok.mp h
  obtain rfl := Except.ok.inj h
  have hadmits := (validateRows_ok_iff.mp hvalid).1
  have hrows' : extents rows ≠ [] := fun h => hrows (List.map_eq_nil_iff.mp h)
  obtain ⟨W, rfl⟩ := Option.isSome_iff_exists.mp (hadmits.isSome (.inr hrows'))
  obtain ⟨-, hmax, htiles⟩ := (rowsAdmit_iff hrows).mp ⟨last, zero_iff.mp hlast, hadmits⟩
  exact ⟨W, last, hvalid, hmax, htiles⟩

/-- A table with rows and valid contents is accepted just when it tiles a grid. -/
theorem table_accepted_iff {rows : List (TableRow β)} {alignments : List TableAlignment}
    (hrows : rows ≠ []) (hcontents : ContentsValid limits validateNodes path rows state) :
    (∃ state', validateTable limits validateNodes rows alignments path state = .ok state') ↔
      ∃ W, 1 ≤ W ∧ W ≤ limits.maxTableColumns.toNat ∧ TilesGrid rows W ∧
        (alignments = [] ∨ alignments.length = W) := by
  simp only [validateTable_ok_iff]
  constructor
  · rintro ⟨state', -, -, h⟩
    exact h
  · intro h
    obtain ⟨state', hstate'⟩ := hcontents
    exact ⟨state', hrows, hstate', h⟩

end

/-! ## Two tables -/

/-- Two rows under a cell that spans both. -/
def spanningRows : List (TableRow Unit) :=
  [⟨[⟨2, 1, false, []⟩, ⟨1, 1, true, [()]⟩]⟩, ⟨[⟨1, 1, false, []⟩]⟩]

theorem spanning_tiles : ∃ W, 1 ≤ W ∧ W ≤ (ValidationLimits.default ⟨1, 1⟩).maxTableColumns.toNat ∧
    TilesGrid spanningRows W ∧
      ([TableAlignment.left, .right] = [] ∨ [TableAlignment.left, .right].length = W) :=
  (@table_accepted_iff Unit (.default ⟨1, 1⟩) (fun _ _ state => .ok state) "$" .new spanningRows _
    (List.cons_ne_nil _ _) (isOk_iff.mp (by decide +kernel))).mp (isOk_iff.mp (by decide +kernel))

/-- A table without rows tiles every grid of no rows, and is refused. -/
theorem no_rows_refused :
    ¬ ∀ (validateNodes : BlocksValidator Unit) (rows : List (TableRow Unit))
        (alignments : List TableAlignment),
        ContentsValid (ValidationLimits.default ⟨1, 1⟩) validateNodes "$" rows .new →
          ((∃ state', validateTable (ValidationLimits.default ⟨1, 1⟩) validateNodes rows
              alignments "$" .new = .ok state') ↔
            ∃ W, 1 ≤ W ∧ W ≤ (ValidationLimits.default ⟨1, 1⟩).maxTableColumns.toNat ∧
              TilesGrid rows W ∧ (alignments = [] ∨ alignments.length = W)) := by
  intro h
  have htiles : Tiles 0 1 [] := ⟨fun r hr => absurd hr (Nat.not_lt_zero r), List.forall_mem_nil _⟩
  have hgrid : TilesGrid ([] : List (TableRow Unit)) 1 :=
    ⟨⟨[], .done [], htiles⟩, List.forall_mem_nil _⟩
  obtain ⟨state', hok⟩ := (h (fun _ _ state => .ok state) [] [] ⟨_, rfl⟩).mpr
    ⟨1, le_rfl, by decide, hgrid, .inl rfl⟩
  exact (validateTable_ok_iff.mp hok).1 rfl

end IntoMarkdown.Ir
