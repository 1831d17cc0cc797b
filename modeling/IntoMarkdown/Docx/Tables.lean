import IntoMarkdown.Converters.LogicalMemory
import IntoMarkdown.Ir.Model
import IntoMarkdown.Lib.OrderedMap

/-! # Tables of a Word document

`tables.rs`, and what `word.rs` does with a table that closes. Memory is never refused, and a
`usize` has 64 bits. -/

namespace IntoMarkdown.Docx
open Lib Ir

abbrev ConversionError := Converters.ConversionError

def malformed (part detail : String) : ConversionError := .malformed (some part) detail

def limit (name detail : String) : ConversionError := .core (.resourceLimit name detail)

inductive ErrorPolicy where
  | bestEffort | strict
  deriving DecidableEq, Repr

/-- The options that the tables depend on. -/
structure ConversionOptions where
  errorPolicy : ErrorPolicy
  maxTableRows : UInt64
  maxTableColumns : UInt64
  maxTableCells : UInt64

/-! ## Diagnostics -/

inductive DiagnosticSeverity where
  | info | warning
  deriving DecidableEq, Repr

structure Diagnostic where
  code : String
  severity : DiagnosticSeverity
  message : String
  part : String
  deriving DecidableEq, Repr

def Diagnostic.Same (code part : String) (diagnostic : Diagnostic) : Bool :=
  diagnostic.code = code && diagnostic.part = part

/-- The first diagnostic of its code and part stays, but a warning takes the place of an
information. -/
def warning (diagnostics : List Diagnostic) (code message part : String) : List Diagnostic :=
  match diagnostics.findIdx? (Diagnostic.Same code part) with
  | some index => diagnostics.modify index fun diagnostic =>
      if diagnostic.severity = .info then { diagnostic with severity := .warning, message }
      else diagnostic
  | none => diagnostics ++ [⟨code, .warning, message, part⟩]

def info (diagnostics : List Diagnostic) (code message part : String) : List Diagnostic :=
  if diagnostics.any (Diagnostic.Same code part) then diagnostics
  else diagnostics ++ [⟨code, .info, message, part⟩]

/-! ## Visible content -/

mutual

def inlineHasVisibleContent : Inline → Bool
  | .text value _ | .sourceText value _ _ | .ocrText value _ _ _ | .code value | .formula value =>
    Strings.trim value ≠ []
  | .link _ content => inlinesHaveVisibleContent content
  | .lineBreak => false
  | .footnoteReference _ => true

def inlinesHaveVisibleContent : List Inline → Bool
  | [] => false
  | inline :: inlines => inlineHasVisibleContent inline || inlinesHaveVisibleContent inlines

end

mutual

def nodeHasVisibleContent : BlockNode → Bool
  | .mk _ block _ => blockHasVisibleContent block

def blockHasVisibleContent : Block BlockNode → Bool
  | .paragraph content | .heading _ content | .timedSegment _ _ _ _ content =>
    inlinesHaveVisibleContent content
  | .list _ _ items => itemsHaveVisibleContent items
  | .code _ text => Strings.trim text ≠ []
  | .formula value => Strings.trim value ≠ []
  | .footnote _ blocks | .page _ blocks | .sheet _ blocks => blocksHaveVisibleContent blocks
  | .slide _ title blocks =>
    title.any (fun value => Strings.trim value ≠ []) || blocksHaveVisibleContent blocks
  | .table _ _ | .image _ _ | .rule => true

def blocksHaveVisibleContent : List BlockNode → Bool
  | [] => false
  | node :: nodes => nodeHasVisibleContent node || blocksHaveVisibleContent nodes

def itemsHaveVisibleContent : List (ListItem BlockNode) → Bool
  | [] => false
  | ⟨_, blocks⟩ :: items => blocksHaveVisibleContent blocks || itemsHaveVisibleContent items

end

/-! ## Limits -/

section
variable {β : Type}

def rowWidth (row : TableRow β) : Nat := (row.cells.map fun cell => cell.columnSpan.toNat).sum

/-- The column spans of a row, added up in a word. -/
def checkedWidth (row : TableRow β) : Except ConversionError Nat := do
  refuse (2 ^ 64 ≤ rowWidth row) (limit "max_table_columns" "DOCX table width overflow")
  return rowWidth row

structure LimitScan where
  cells : Nat
  expectedWidth : Option Nat
  ragged : Bool

def validateRowLimits (part : String) (options : ConversionOptions) (scan : LimitScan)
    (row : TableRow β) : Except ConversionError LimitScan := do
  refuse (row.cells.isEmpty = true) (malformed part "table row has no cells")
  let cells := scan.cells + row.cells.length
  refuse (2 ^ 64 ≤ cells) (limit "max_table_cells" "DOCX table cell count overflow")
  let width ← checkedWidth row
  let bound := min options.maxTableColumns.toNat Ir.maxTableColumns.toNat
  refuse (bound < width) (limit "max_table_columns" s!"{width} > {bound}")
  let differs := scan.expectedWidth.any (· ≠ width)
  refuse (differs = true ∧ options.errorPolicy = .strict)
    (malformed part "table rows have inconsistent widths")
  return ⟨cells, some width, scan.ragged || differs⟩

/-- `validate_table_limits`: whether some row is not as wide as the one before. -/
def validateTableLimits (rows : List (TableRow β)) (part : String) (options : ConversionOptions) :
    Except ConversionError Bool := do
  refuse (rows.isEmpty = true) (malformed part "table has no rows")
  refuse (options.maxTableRows.toNat < rows.length)
    (limit "max_table_rows" s!"{rows.length} > {options.maxTableRows.toNat}")
  let scan ← rows.foldlM (validateRowLimits part options) ⟨0, none, false⟩
  refuse (options.maxTableCells.toNat < scan.cells)
    (limit "max_table_cells" s!"{scan.cells} > {options.maxTableCells.toNat}")
  return scan.ragged

/-! ## Ragged rows -/

def emptyCell : Cell β := ⟨1, 1, false, []⟩

def padRow (width : Nat) (row : TableRow β) : TableRow β :=
  ⟨row.cells ++ List.replicate (width - rowWidth row) emptyCell⟩

def tableWidth (rows : List (TableRow β)) : Nat := (rows.map rowWidth).foldl max 0

def cellCount (rows : List (TableRow β)) : Nat := (rows.map fun row => row.cells.length).sum

/-- `normalize_ragged_table`. -/
def normalizeRaggedTable (rows : List (TableRow β)) (options : ConversionOptions) :
    Except ConversionError (List (TableRow β)) := do
  rows.forM fun row => discard (checkedWidth row)
  let width := tableWidth rows
  let added := (rows.map fun row => width - rowWidth row).sum
  refuse (2 ^ 64 ≤ added) (limit "max_table_cells" "normalized DOCX cell count overflow")
  let rows := rows.map (padRow width)
  let total := cellCount rows
  refuse (2 ^ 64 ≤ total) (limit "max_table_cells" "normalized DOCX cell count overflow")
  refuse (options.maxTableCells.toNat < total) (limit "max_table_cells"
    s!"{total} > {options.maxTableCells.toNat} after adding {added} normalized cells")
  return rows

/-! ## Vertical merges -/

inductive VerticalMerge where
  | none | restart | continuation | invalid
  deriving DecidableEq, Repr

structure ActiveVerticalMerge where
  width : Nat
  originRow : Nat
  originCell : Nat
  deriving DecidableEq, Repr

abbrev ActiveMerges := OrderedMap Nat ActiveVerticalMerge

/-- What the loop over the cells of a row changes; the rows are those above. -/
structure Merging (β : Type) where
  rows : List (TableRow β)
  outputCells : List (Cell β)
  nextActive : ActiveMerges
  column : Nat
  diagnostics : List Diagnostic

def normalized : String := "word.tableNormalized"

/-- One row more for the cell in which the merge began. -/
def extendOrigin (part : String) (rows : List (TableRow β)) (origin : ActiveVerticalMerge) :
    Except ConversionError (List (TableRow β)) :=
  match rows[origin.originRow]?.bind fun row => row.cells[origin.originCell]? with
  | none => .error (malformed part "vertical merge origin is invalid")
  | some cell => do
    refuse (2 ^ 32 ≤ cell.rowSpan.toNat + 1) (limit "max_table_rows" "vertical merge span overflow")
    return rows.modify origin.originRow fun row =>
      ⟨row.cells.set origin.originCell { cell with rowSpan := cell.rowSpan + 1 }⟩

section
variable (visible : List β → Bool) (part : String) (active : ActiveMerges)

/-- A cell that stays where it is. -/
def Merging.keep (state : Merging β) (cell : Cell β) (stop : Nat) : Merging β :=
  { state with outputCells := state.outputCells ++ [cell], column := stop }

/-- One turn of the loop over the cells. -/
def mergeCell (state : Merging β) (cell : Cell β) (merge : VerticalMerge) :
    Except ConversionError (Merging β) := do
  let width := cell.columnSpan.toNat
  let stop := state.column + width
  refuse (2 ^ 64 ≤ stop) (limit "max_table_columns" "DOCX vertical merge overflow")
  match merge with
  | .none => return state.keep cell stop
  | .invalid => return { state.keep cell stop with
      diagnostics := warning state.diagnostics normalized
        "invalid vertical merge was kept as an ordinary cell" part }
  | .restart => return { state.keep cell stop with
      nextActive := state.nextActive.insert state.column
        ⟨width, state.rows.length, state.outputCells.length⟩
      diagnostics := info state.diagnostics normalized
        "vertical merge geometry was preserved with rowspan" part }
  | .continuation =>
    if visible cell.blocks then
      return { state.keep cell stop with
        diagnostics := warning state.diagnostics normalized
          "vertical merge continuation with visible content was kept in document order" part }
    else match (active.lookup state.column).filter (·.width = width) with
      | none => return { state.keep cell stop with
          diagnostics := warning state.diagnostics normalized
            "unmatched vertical merge was kept as an ordinary cell" part }
      | some origin => do
        let rows ← extendOrigin part state.rows origin
        return { state with
          rows
          nextActive := state.nextActive.insert state.column origin
          column := stop
          diagnostics := info state.diagnostics normalized
            "vertical merge geometry was preserved with rowspan" part }

/-- The cells of a row, each with its declaration if it has one. -/
def mergeCells : Merging β → List (Cell β) → List VerticalMerge →
    Except ConversionError (Merging β)
  | state, [], _ => .ok state
  | state, cell :: cells, declarations => do
    let state ← mergeCell visible part active state cell (declarations.headD .none)
    mergeCells state cells declarations.tail

end

def mergeRows (visible : List β → Bool) (part : String) :
    List (TableRow β) → ActiveMerges → List Diagnostic → List (TableRow β) →
      List (List VerticalMerge) → Except ConversionError (List (TableRow β) × List Diagnostic)
  | above, _, diagnostics, [], _ => .ok (above, diagnostics)
  | above, active, diagnostics, row :: rows, declarations => do
    let state ← mergeCells visible part active ⟨above, [], .empty, 0, diagnostics⟩ row.cells
      (declarations.headD [])
    mergeRows visible part (state.rows ++ [⟨state.outputCells⟩]) state.nextActive
      state.diagnostics rows declarations.tail

/-- `normalize_vertical_merges`. -/
def normalizeVerticalMerges (visible : List β → Bool) (rows : List (TableRow β))
    (declarations : List (List VerticalMerge)) (part : String) (options : ConversionOptions)
    (diagnostics : List Diagnostic) :
    Except ConversionError (List (TableRow β) × List Diagnostic) := do
  refuse (options.errorPolicy = .strict ∧ ¬ declarations.flatten.all (· = .none))
    (malformed part "vertical table merges are unsupported")
  mergeRows visible part [] .empty diagnostics rows declarations

/-- What the end of a `tbl` element does with its rows. -/
def normalizeTable (visible : List β → Bool) (rows : List (TableRow β))
    (declarations : List (List VerticalMerge)) (part : String) (options : ConversionOptions)
    (diagnostics : List Diagnostic) :
    Except ConversionError (List (TableRow β) × List Diagnostic) := do
  if ← validateTableLimits rows part options then
    let rows ← normalizeRaggedTable rows options
    normalizeVerticalMerges visible rows declarations part options
      (warning diagnostics normalized
        "ragged table rows were padded to a consistent logical width" part)
  else normalizeVerticalMerges visible rows declarations part options diagnostics

end

end IntoMarkdown.Docx
