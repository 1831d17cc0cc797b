import IntoMarkdown.Ir.Table
import IntoMarkdown.Render.Inline

/-! # Tables

The passes of the renderer over a table. Rendered cells come from the functions they are
given; sizes are byte counts of values in memory, whose sums stay in a word. -/

namespace IntoMarkdown.Render
open Ir Lib Lib.Tiling Lib.Strings

/-! ## Shape -/

/-- The cells of a row. A slot of the array that is not in the list is zero. -/
def shapeCells {β : Type} :
    List (Cell β) → Sweep → Nat → Except RenderError (Sweep × Nat)
  | [], sweep, width => .ok (sweep, width)
  | cell :: cells, sweep, width => do
    let span := cell.columnSpan.toNat
    refuse (span = 0) (renderError "table column span must be positive")
    let stop := sweep.start + span
    refuse (maxTableColumns.toNat < stop) (.resourceLimit "max_table_columns"
      s!"table renderer width {stop} exceeds {maxTableColumns.toNat}")
    shapeCells cells (sweep.place cell.rowSpan.toNat span) (max width stop)

def shapeRows {β : Type} :
    List (TableRow β) → List Nat → Nat → Except RenderError Nat
  | [], _, width => .ok width
  | row :: rows, counters, width => do
    let r ← shapeCells row.cells ⟨counters, 0⟩ width
    shapeRows rows r.1.nextRow.counters r.2

def sweepCells {β : Type} (cells : List (Cell β)) (sweep : Sweep) : Sweep :=
  cells.foldl (fun sweep cell => sweep.place cell.rowSpan.toNat cell.columnSpan.toNat) sweep

def spans {β : Type} (cell : Cell β) : Bool := 1 < cell.rowSpan || 1 < cell.columnSpan

/-- The second sweep: a span, or a slot of the width that is left free. -/
def requiresHtml {β : Type} (width : Nat) : List (TableRow β) → List Nat → Bool
  | [], _ => false
  | row :: rows, counters =>
    let sweep := sweepCells row.cells ⟨counters, 0⟩
    row.cells.any spans ||
      (List.range width).any (fun column => sweep.counters.getD column 0 = 0) ||
      requiresHtml width rows sweep.nextRow.counters

def firstHasHeader {β : Type} (rows : List (TableRow β)) : Bool :=
  rows.head?.any fun row => !row.cells.isEmpty && row.cells.all Cell.header

structure Shape where
  width : Nat
  firstHasHeader : Bool
  requiresHtml : Bool
  deriving DecidableEq, Repr

def tableShape {β : Type} (rows : List (TableRow β)) : Except RenderError Shape := do
  let width ← shapeRows rows [] 0
  return ⟨width, firstHasHeader rows, requiresHtml width rows []⟩

/-! ## Plans -/

structure TablePlanOwners where
  occupancy : Nat
  gridRows : Nat
  gridSlots : Nat
  fallbackHeader : Nat
  separatorSlots : Nat
  separatorStrings : Nat
  cellStrings : Nat
  cellBlockJoins : Nat
  output : Nat
  deriving DecidableEq, Repr

namespace TablePlanOwners

def default : TablePlanOwners := ⟨0, 0, 0, 0, 0, 0, 0, 0, 0⟩

def exceeded (owner : String) (actual bound : Nat) : RenderError :=
  .internal s!"table renderer {owner} allocation {actual} exceeded its {bound}-byte plan"

def within (owner : String) (actual bound : Nat) : Except RenderError Unit :=
  refuse (bound < actual) (exceeded owner actual bound)

def verifyWithin (actual planned : TablePlanOwners) : Except RenderError Unit := do
  within "occupancy" actual.occupancy planned.occupancy
  within "grid rows" actual.gridRows planned.gridRows
  within "grid slots" actual.gridSlots planned.gridSlots
  within "fallback header" actual.fallbackHeader planned.fallbackHeader
  within "separator slots" actual.separatorSlots planned.separatorSlots
  within "separator strings" actual.separatorStrings planned.separatorStrings
  within "cell strings" actual.cellStrings planned.cellStrings
  within "cell temporaries" actual.cellBlockJoins planned.cellBlockJoins
  within "output" actual.output planned.output

end TablePlanOwners

/-- Sizes in memory of a counter, a string and a row of strings. -/
def counterBytes : Nat := 4
def stringBytes : Nat := 24
def vecBytes : Nat := 24

def tablePlanOwners {β : Type} (rows : List (TableRow β)) (width : Nat) (firstHasHeader : Bool)
    (cellStrings cellBlockJoins : Nat) : TablePlanOwners :=
  let renderedRows := rows.length + 2
  let separators := width * 5
  let rowOverhead := renderedRows * width * 4 + renderedRows * 2
  let cells := (rows.map fun row => row.cells.length).sum
  let htmlOverhead := cells * 128 + rows.length * 32 + 32
  { occupancy := width * counterBytes
    gridRows := rows.length * vecBytes
    gridSlots := rows.length * width * stringBytes
    fallbackHeader := if firstHasHeader then 0 else width * stringBytes
    separatorSlots := width * stringBytes
    separatorStrings := separators
    cellStrings := cellStrings
    cellBlockJoins := cellBlockJoins
    output := cellStrings + separators + rowOverhead + htmlOverhead }

/-! ## The grid -/

/-- What renders a cell: its text, and the bytes used on the way. -/
abbrev CellRenderer (β : Type) := Cell β → Except RenderError (Text × Nat)

def TablePlanOwners.addCell (actual : TablePlanOwners) (value : Text) (temporary : Nat) :
    TablePlanOwners :=
  { actual with
    cellStrings := actual.cellStrings + byteLength value
    cellBlockJoins := max actual.cellBlockJoins temporary }

structure GridRow where
  rendered : List Text
  sweep : Sweep
  actual : TablePlanOwners

def gridCells {β : Type} (renderCell : CellRenderer β) (width : Nat) :
    List (Cell β) → GridRow → Except RenderError GridRow
  | [], state => .ok state
  | cell :: cells, state => do
    let column := state.sweep.start
    let stop := column + cell.columnSpan.toNat
    refuse (width < stop) (renderError "table width changed after deterministic preflight")
    let value ← renderCell cell
    gridCells renderCell width cells
      ⟨state.rendered.set column value.1,
        state.sweep.place cell.rowSpan.toNat cell.columnSpan.toNat,
        state.actual.addCell value.1 value.2⟩

def gridRows {β : Type} (renderCell : CellRenderer β) (width : Nat) :
    List (TableRow β) → List Nat → TablePlanOwners →
      Except RenderError (List (List Text) × TablePlanOwners)
  | [], _, actual => .ok ([], actual)
  | row :: rows, counters, actual => do
    let actual := { actual with gridSlots := actual.gridSlots + width * stringBytes }
    let state ← gridCells renderCell width row.cells
      ⟨List.replicate width [], ⟨counters, 0⟩, actual⟩
    let rest ← gridRows renderCell width rows state.sweep.nextRow.counters state.actual
    return (state.rendered :: rest.1, rest.2)

def tableGrid {β : Type} (renderCell : CellRenderer β) (rows : List (TableRow β))
    (width : Nat) : Except RenderError (List (List Text) × TablePlanOwners) :=
  gridRows renderCell width rows (List.replicate width 0)
    { TablePlanOwners.default with
      occupancy := width * counterBytes, gridRows := rows.length * vecBytes }

/-! ## Output -/

def separatorText : TableAlignment → Text
  | .none => "---".toList
  | .left => ":---".toList
  | .center => ":---:".toList
  | .right => "---:".toList

def exactSeparators (width : Nat) (alignments : List TableAlignment) : List Text :=
  (List.range width).map fun column => separatorText (alignments.getD column .none)

def tableRowLength (cells : List Text) : Nat :=
  cells.foldl (fun length cell => length + 3 + byteLength cell) 2

/-- A string of a length that is known before it is written. -/
structure ExactString where
  capacity : Nat
  text : Text

namespace ExactString

def pushStr (s : ExactString) (value : Text) : Except RenderError ExactString := do
  refuse (s.capacity < byteLength s.text + byteLength value)
    (.internal "exact string received more bytes than planned")
  return { s with text := s.text ++ value }

def finish (s : ExactString) : Except RenderError Text := do
  refuse (byteLength s.text ≠ s.capacity)
    (.internal "exact string received fewer bytes than planned")
  return s.text

end ExactString

def writeCells : List Text → ExactString → Except RenderError ExactString
  | [], output => .ok output
  | cell :: cells, output => do
    let output ← output.pushStr [' ']
    let output ← output.pushStr cell
    let output ← output.pushStr [' ', '|']
    writeCells cells output

def writeExactTableRow (output : ExactString) (cells : List Text) (newline : Bool) :
    Except RenderError ExactString := do
  let output ← output.pushStr ['|']
  let output ← writeCells cells output
  if newline then output.pushStr ['\n'] else .ok output

/-- Each row but the last ends its line. -/
def writeRows : List (List Text) → ExactString → Except RenderError ExactString
  | [], output => .ok output
  | row :: rows, output => do
    let output ← writeExactTableRow output row (!rows.isEmpty)
    writeRows rows output

def pipeTable {β : Type} (renderCell : CellRenderer β) (rows : List (TableRow β))
    (alignments : List TableAlignment) (shape : Shape) :
    Except RenderError (Text × TablePlanOwners) := do
  let r ← tableGrid renderCell rows shape.width
  let grid := r.1
  let fallback := List.replicate shape.width []
  let separators := exactSeparators shape.width alignments
  let header := if shape.firstHasHeader then grid.headD [] else fallback
  let body := if shape.firstHasHeader then grid.tail else grid
  let outputLength := tableRowLength header + tableRowLength separators +
    (body.map tableRowLength).sum - 1
  let output ← writeExactTableRow ⟨outputLength, []⟩ header true
  let output ← writeExactTableRow output separators (!body.isEmpty)
  let output ← writeRows body output
  let output ← output.finish
  let actual := { r.2 with
    fallbackHeader := if shape.firstHasHeader then 0 else shape.width * stringBytes
    separatorSlots := shape.width * stringBytes
    separatorStrings := (separators.map byteLength).sum
    output := byteLength output }
  actual.verifyWithin (tablePlanOwners rows shape.width shape.firstHasHeader actual.cellStrings
    actual.cellBlockJoins)
  return (output, actual)

/-! ## HTML -/

def spanAttribute (name : String) (span : UInt32) : Text :=
  if 1 < span then " ".toList ++ name.toList ++ "=\"".toList ++ natText span.toNat ++ ['"'] else []

def htmlCell {β : Type} (cell : Cell β) (rendered : Text) : Text :=
  let tag := if cell.header then "th".toList else "td".toList
  "    <".toList ++ tag ++ spanAttribute "rowspan" cell.rowSpan ++
    spanAttribute "colspan" cell.columnSpan ++ ['>'] ++ rendered ++ "</".toList ++ tag ++
    ">\n".toList

def htmlCells {β : Type} (renderHtmlCell : CellRenderer β) :
    List (Cell β) → Text → TablePlanOwners → Except RenderError (Text × TablePlanOwners)
  | [], output, actual => .ok (output, actual)
  | cell :: cells, output, actual => do
    let value ← renderHtmlCell cell
    htmlCells renderHtmlCell cells (output ++ htmlCell cell value.1)
      (actual.addCell value.1 value.2)

def htmlRows {β : Type} (renderHtmlCell : CellRenderer β) :
    List (TableRow β) → Text → TablePlanOwners → Except RenderError (Text × TablePlanOwners)
  | [], output, actual => .ok (output, actual)
  | row :: rows, output, actual => do
    let r ← htmlCells renderHtmlCell row.cells (output ++ "  <tr>\n".toList) actual
    htmlRows renderHtmlCell rows (r.1 ++ "  </tr>\n".toList) r.2

def renderHtmlTable {β : Type} (renderHtmlCell : CellRenderer β) (rows : List (TableRow β))
    (shape : Shape) : Except RenderError (Text × TablePlanOwners) := do
  let r ← htmlRows renderHtmlCell rows "<table>\n".toList .default
  let output := r.1 ++ "</table>".toList
  let actual := { r.2 with output := byteLength output }
  actual.verifyWithin (tablePlanOwners rows shape.width shape.firstHasHeader actual.cellStrings
    actual.cellBlockJoins)
  return (output, actual)

def renderTableMeasured {β : Type} (spreadsheetml : Bool)
    (renderCell renderHtmlCell : CellRenderer β) (rows : List (TableRow β))
    (alignments : List TableAlignment) : Except RenderError (Text × TablePlanOwners) := do
  let shape ← tableShape rows
  if shape.requiresHtml && spreadsheetml then renderHtmlTable renderHtmlCell rows shape
  else pipeTable renderCell rows alignments shape

end IntoMarkdown.Render
