import IntoMarkdown.Core.Error
import IntoMarkdown.Lib.Except
import IntoMarkdown.Lib.OrderedMap
import IntoMarkdown.Sheet.Formulas

/-! # The scan of a worksheet

Rows and cells may say where they are, or follow what is before them. Each cell that has a value
or a formula is delivered and recorded in a run of its row. -/

namespace IntoMarkdown.Sheet
open Lib Strings

/-- The errors of a worksheet. -/
inductive ConversionError where
  | core (error : Core.ConversionError)
  | malformed (part : Option String) (detail : String)
  | unsupported (detail : String)
  deriving DecidableEq, Repr

def limit (name detail : String) : ConversionError := .core (.resourceLimit name detail)

structure Options where
  bestEffort : Bool
  maxFieldBytes : Nat
  maxTableCells : Nat

def saturatingAdd (bits a b : Nat) : Nat := min (a + b) (2 ^ bits - 1)

/-! ## Events -/

/-- A tag by local name, with the local names of its attributes and what decoding each gives. -/
structure Element where
  name : String
  core : Bool
  attributes : List (String × Except String Text)

inductive Event where
  | start (element : Element)
  | empty (element : Element)
  | close (name : String) (core : Bool)
  | text (value : Except String Text)
  | reference (value : Except String Char)
  | docType
  | other
  /-- What the reader or a checkpoint stops with. -/
  | broken (error : ConversionError)

/-! ## Coordinates -/

def malformedHere (detail : String) : ConversionError := .malformed none detail

/-- The column that letters spell, from one on, in 32 bits. -/
def refColumn (letters : Text) : Except ConversionError Nat :=
  letters.foldlM (fun column c =>
    if column * 26 + letterValue c < 2 ^ 32 then .ok (column * 26 + letterValue c)
    else .error (malformedHere "spreadsheet column overflow")) 0

def parseCellRef (value : Text) : Except ConversionError CellCoordinate := do
  refuse (16 < byteLength value) (malformedHere "spreadsheet coordinate is too long")
  let value := value.filter (· ≠ '$')
  let letters := value.takeWhile fun c => !isAsciiDigit c
  let digits := value.dropWhile fun c => !isAsciiDigit c
  let invalid := malformedHere s!"invalid spreadsheet coordinate {String.ofList value}"
  refuse (letters = [] ∨ digits = [] ∨ letters.all isAsciiAlphabetic = false ∨
    digits.all isAsciiDigit = false) invalid
  let column ← refColumn letters
  match (decimal digits).filter (· < 2 ^ 32) with
  | none => .error (malformedHere s!"invalid spreadsheet row {String.ofList digits}")
  | some row => do
    refuse (row = 0 ∨ maxExcelRows < row ∨ column = 0 ∨ maxExcelColumns < column)
      (malformedHere s!"spreadsheet coordinate out of range {String.ofList value}")
    return (row - 1, column - 1)

def parseCellRange (value : Text) : Except ConversionError (CellCoordinate × CellCoordinate) := do
  refuse (33 < byteLength value ∨ 1 < value.count ':')
    (malformedHere "spreadsheet range is too long")
  let pair := (splitOnce ':' value).getD (value, value)
  let start ← parseCellRef pair.1
  let stop ← parseCellRef pair.2
  refuse (stop.1 < start.1 ∨ stop.2 < start.2)
    (malformedHere s!"invalid spreadsheet range {String.ofList value}")
  return (start, stop)

/-- The order of coordinates: by row, then by column. -/
def before (a b : CellCoordinate) : Prop := a.1 < b.1 ∨ a.1 = b.1 ∧ a.2 < b.2

instance (a b : CellCoordinate) : Decidable (before a b) :=
  inferInstanceAs (Decidable (_ ∨ _))

/-! ## State -/

inductive CellValueToken where
  | shared (index : Nat)
  | raw (value : Text)
  deriving DecidableEq, Repr

structure CellToken where
  coordinate : CellCoordinate
  value : CellValueToken
  formula : Text
  cellType : Text
  styleIndex : Option Nat
  deriving DecidableEq, Repr

structure SheetRun where
  row : Nat
  firstColumn : Nat
  lastColumn : Nat
  occupiedCells : Nat
  deriving DecidableEq, Repr

structure Diagnostic where
  code : String
  message : String
  coordinate : CellCoordinate
  part : String
  deriving DecidableEq, Repr

structure SheetLayout where
  runs : List SheetRun := []
  merges : List (CellCoordinate × CellCoordinate) := []
  requiredShared : List Nat := []
  physicalCells : Nat := 0
  populatedCells : Nat := 0
  formulas : Nat := 0
  formulaBytes : Nat := 0
  maxFormulaBytes : Nat := 0
  valueBytes : Nat := 0
  maxValueBytes : Nat := 0
  maxStyleIndex : Option Nat := none
  sharedFormulaSlots : Nat := 0
  bounds : Option CellCoordinate := none
  declaredBounds : Option CellCoordinate := none
  diagnostics : List Diagnostic := []

structure CurrentCell where
  coordinate : Option CellCoordinate := none
  cellType : Text := []
  styleIndex : Option Nat := none
  value : Text := []
  formula : Text := []
  inValue : Bool := false
  inFormula : Bool := false
  inInlineText : Bool := false
  formulaType : Text := []
  sharedFormulaIndex : Option Nat := none
  formulaReference : Option (CellCoordinate × CellCoordinate) := none

structure SharedFormula where
  start : CellCoordinate
  anchor : CellCoordinate
  stop : CellCoordinate
  formula : Text

/-- The state of the scan, with the tokens that the consumer has been given. -/
structure SheetState where
  layout : SheetLayout := {}
  currentRow : Option Nat := none
  nextRow : Nat := 0
  nextColumn : Nat := 0
  lastCoordinate : Option CellCoordinate := none
  currentCell : CurrentCell := {}
  sharedFormulas : OrderedMap Nat SharedFormula := .empty
  inCell : Bool := false
  tokens : List CellToken := []

/-- What a consumer answers to a token, after those before it. -/
abbrev Consumer := List CellToken → CellToken → Except ConversionError Unit

section
variable (part : String) (options : Options) (consumer : Option Consumer)

def malformed (detail : String) : ConversionError := .malformed (some part) detail

/-! ## Attributes -/

def attributeFrom (name : String) (found : Option Text) :
    List (String × Except String Text) → Except ConversionError (Option Text)
  | [] => .ok found
  | (key, value) :: rest =>
    if key = name then do
      let decoded ← value.mapError fun error => malformed part s!"invalid attribute: {error}"
      refuse found.isSome (malformed part "duplicate worksheet attribute")
      attributeFrom name (some decoded) rest
    else attributeFrom name found rest

def attributeOf (element : Element) (name : String) : Except ConversionError (Option Text) :=
  attributeFrom part name none element.attributes

/-- `transpose`. -/
def onSome {α β : Type} (f : α → Except ConversionError β) (x : Option α) :
    Except ConversionError (Option β) :=
  match x with
  | none => .ok none
  | some a => (f a).map some

def parseNumber (bits : Nat) (error : ConversionError) (value : Text) :
    Except ConversionError Nat :=
  match parseUnsigned (2 ^ bits) value with
  | some n => .ok n
  | none => .error error

def parseU64Attribute (element : Element) (name : String) :
    Except ConversionError (Option Nat) := do
  let value ← attributeOf part element name
  onSome (parseNumber 64 (malformed part "invalid numeric worksheet attribute")) value

/-! ## Cells -/

def containsCoordinate (range : CellCoordinate × CellCoordinate) (coordinate : CellCoordinate) :
    Bool :=
  range.1.1 ≤ coordinate.1 && coordinate.1 ≤ range.2.1 &&
    range.1.2 ≤ coordinate.2 && coordinate.2 ≤ range.2.2

def recordCoordinate (layout : SheetLayout) (coordinate : CellCoordinate) :
    Except ConversionError SheetLayout := do
  refuse (2 ^ 64 ≤ layout.physicalCells + 1)
    (limit "max_table_cells" "worksheet cell count overflow")
  return { layout with
    physicalCells := layout.physicalCells + 1
    bounds := some (layout.bounds.elim coordinate fun current =>
      (max current.1 coordinate.1, max current.2 coordinate.2)) }

def addToRuns (runs : List SheetRun) (coordinate : CellCoordinate) : List SheetRun :=
  match runs.getLast? with
  | some last =>
    if last.row = coordinate.1 ∧ last.lastColumn + 1 < 2 ^ 32 ∧
        last.lastColumn + 1 = coordinate.2 then
      runs.dropLast ++ [{ last with
        lastColumn := coordinate.2
        occupiedCells := saturatingAdd 64 last.occupiedCells 1 }]
    else runs ++ [⟨coordinate.1, coordinate.2, coordinate.2, 1⟩]
  | none => [⟨coordinate.1, coordinate.2, coordinate.2, 1⟩]

def recordPopulatedCoordinate (layout : SheetLayout) (coordinate : CellCoordinate) :
    SheetLayout :=
  { layout with runs := addToRuns layout.runs coordinate }

/-- A shared formula without a text of its own, found or not. -/
def followFormula (coordinate : CellCoordinate) (cached : Bool) (index : Nat) (cell : CurrentCell)
    (state : SheetState) : Except ConversionError (Bool × CurrentCell × SheetState) := do
  refuse cell.formulaReference.isSome (malformed part "invalid shared formula anchor")
  match state.sharedFormulas.lookup index with
  | none => do
    refuse (options.bestEffort = false) (malformed part "shared formula anchor is missing")
    let message :=
      if cached then "shared formula anchor is missing; preserved the cached display value"
      else "shared formula anchor and cached value are missing; omitted the cell"
    let layout := { state.layout with
      diagnostics := state.layout.diagnostics ++
        [⟨"spreadsheet.sharedFormula.omitted", message, coordinate, part⟩] }
    return (!cached, cell, { state with layout })
  | some shared => do
    refuse (!containsCoordinate (shared.start, shared.stop) coordinate)
      (malformed part "shared formula lies outside its range")
    let formula := translateSharedFormula shared.formula shared.anchor coordinate
    return (false, { cell with formula }, state)

/-- A shared formula with a text, which later ones follow. -/
def anchorFormula (coordinate : CellCoordinate) (index : Nat) (cell : CurrentCell)
    (state : SheetState) : Except ConversionError (Bool × CurrentCell × SheetState) :=
  match cell.formulaReference with
  | none => .error (malformed part "shared formula range is missing")
  | some range => do
    refuse (!containsCoordinate range coordinate) (malformed part "invalid shared formula anchor")
    let shared : SharedFormula := ⟨range.1, coordinate, range.2, cell.formula⟩
    return (false, cell,
      { state with sharedFormulas := state.sharedFormulas.insert index shared })

/-- Whether the cell is to be omitted. -/
def finishFormula (coordinate : CellCoordinate) (cached : Bool) (cell : CurrentCell)
    (state : SheetState) : Except ConversionError (Bool × CurrentCell × SheetState) :=
  if cell.formulaType = "array".toList then
    match cell.formulaReference with
    | none => .error (malformed part "array formula range is missing")
    | some range => do
      refuse (cell.formula = [] ∨ containsCoordinate range coordinate = false)
        (malformed part "invalid array formula anchor")
      return (false, cell, state)
  else if cell.formulaType = "shared".toList then
    match cell.sharedFormulaIndex with
    | none => .error (malformed part "shared formula index is missing")
    | some index =>
      if cell.formula = [] then followFormula part options coordinate cached index cell state
      else anchorFormula part coordinate index cell state
  else if cell.sharedFormulaIndex.isSome ∨ cell.formulaReference.isSome then
    .error (malformed part "formula metadata has no supported formula type")
  else .ok (false, cell, state)

/-- The value of a cell, and the layout with the shared string that it needs. -/
def cellValue (cell : CurrentCell) (layout : SheetLayout) :
    Except ConversionError (CellValueToken × SheetLayout) :=
  if cell.cellType = "s".toList then
    if trim cell.value = [] ∧ options.bestEffort = true then .ok (.raw [], layout)
    else do
      let index ← parseNumber 64 (malformed part "invalid shared-string index") (trim cell.value)
      return (.shared index,
        { layout with requiredShared := (layout.requiredShared ++ [index]).dedup })
  else .ok (.raw cell.value, layout)

/-- A value is there. -/
def CellValueToken.present : CellValueToken → Bool
  | .shared _ => true
  | .raw value => !value.isEmpty

def countCell (cell : CurrentCell) (value : CellValueToken) (layout : SheetLayout) :
    SheetLayout :=
  let formulaBytes := byteLength cell.formula
  let layout :=
    if cell.formula = [] then layout
    else { layout with
      formulas := saturatingAdd 64 layout.formulas 1
      formulaBytes := saturatingAdd 64 layout.formulaBytes formulaBytes
      maxFormulaBytes := max layout.maxFormulaBytes formulaBytes }
  let valueBytes := match value with
    | .shared _ => 0
    | .raw text => byteLength text
  { layout with
    valueBytes := saturatingAdd 64 layout.valueBytes valueBytes
    maxValueBytes := max layout.maxValueBytes valueBytes
    maxStyleIndex := cell.styleIndex.elim layout.maxStyleIndex fun style =>
      some (layout.maxStyleIndex.elim style fun current => max current style) }

/-- What a populated cell leaves in the layout. -/
def populate (coordinate : CellCoordinate) (layout : SheetLayout) : SheetLayout :=
  recordPopulatedCoordinate
    { layout with populatedCells := saturatingAdd 64 layout.populatedCells 1 } coordinate

/-- A token for the consumer. -/
def deliver (token : CellToken) (state : SheetState) : Except ConversionError SheetState :=
  match consumer with
  | none => .ok state
  | some accept => do
    let _ ← accept state.tokens token
    return { state with tokens := state.tokens ++ [token] }

def finishCell (state : SheetState) : Except ConversionError SheetState :=
  match state.currentCell.coordinate with
  | none => .error (malformed part "worksheet cell has no coordinate")
  | some coordinate => do
    let cell := state.currentCell
    refuse (options.maxFieldBytes < max (byteLength cell.value) (byteLength cell.formula))
      (limit "max_field_bytes" "worksheet cell value is too large")
    let (value, layout) ← cellValue part options cell state.layout
    let (omitted, cell, state) ←
      finishFormula part options coordinate value.present cell { state with layout }
    let populated := !omitted && (!cell.formula.isEmpty || value.present)
    let layout := if populated then populate coordinate state.layout else state.layout
    let state := { state with
      layout := countCell cell value layout
      currentCell := { cell with coordinate := none } }
    if populated then
      deliver consumer ⟨coordinate, value, cell.formula, cell.cellType, cell.styleIndex⟩ state
    else return state

def finish (state : SheetState) : Except ConversionError SheetState := do
  refuse (state.inCell = false) (malformed part "cell end without start")
  let state ← finishCell part options consumer state
  return { state with inCell := false }

/-! ## Tags -/

def dimension (element : Element) (state : SheetState) : Except ConversionError SheetState := do
  match ← attributeOf part element "ref" with
  | none => return state
  | some reference => do
    let range ← parseCellRange reference
    return { state with layout := { state.layout with declaredBounds := some range.2 } }

def rowIndex (value : Text) : Except ConversionError Nat :=
  match parseUnsigned (2 ^ 32) value with
  | some (n + 1) => .ok n
  | _ => .error (malformed part "invalid row index")

/-- The row that a tag says, or the next one. -/
def rowNumber (element : Element) (state : SheetState) : Except ConversionError Nat := do
  let given ← attributeOf part element "r"
  let said ← onSome (rowIndex part) given
  let row := said.getD state.nextRow
  refuse (row < state.nextRow) (malformed part "worksheet rows are out of order")
  return row

def startRow (element : Element) (empty : Bool) (state : SheetState) :
    Except ConversionError SheetState := do
  refuse (state.currentRow.isSome ∨ state.inCell = true)
    (malformed part "nested or duplicate worksheet row")
  let row ← rowNumber part element state
  if empty then
    return { state with
      currentRow := none, nextColumn := 0, nextRow := saturatingAdd 32 row 1 }
  else return { state with currentRow := some row, nextColumn := 0 }

/-- The coordinate that a tag says, or the next one of the row. -/
def cellCoordinate (element : Element) (row : Nat) (state : SheetState) :
    Except ConversionError CellCoordinate := do
  let given ← attributeOf part element "r"
  let said ← onSome parseCellRef given
  let coordinate := said.getD (row, state.nextColumn)
  refuse (coordinate.1 ≠ row ∨ state.lastCoordinate.any fun last => !before last coordinate)
    (malformed part "duplicate or out-of-order worksheet cell")
  return coordinate

def startCell (element : Element) (empty : Bool) (state : SheetState) :
    Except ConversionError SheetState :=
  match state.currentRow with
  | none => .error (malformed part "cell record lies outside worksheet row")
  | some row => do
    refuse (state.inCell = true) (malformed part "nested worksheet cell")
    let coordinate ← cellCoordinate part element row state
    let cellType ← attributeOf part element "t"
    let styleIndex ← parseU64Attribute part element "s"
    let layout ← recordCoordinate state.layout coordinate
    let state := { state with
      currentCell := { coordinate := some coordinate, cellType := cellType.getD [], styleIndex }
      inCell := true
      nextColumn := saturatingAdd 32 coordinate.2 1
      lastCoordinate := some coordinate
      layout }
    if empty then finish part options consumer state else return state

def startFormula (element : Element) (empty : Bool) (state : SheetState) :
    Except ConversionError SheetState := do
  let formulaType ← attributeOf part element "t"
  let sharedFormulaIndex ← parseU64Attribute part element "si"
  let reference ← attributeOf part element "ref"
  let formulaReference ← onSome parseCellRange reference
  refuse (formulaType = some "dataTable".toList)
    (.unsupported s!"data-table formulas are unsupported ({part})")
  return { state with currentCell := { state.currentCell with
    formulaType := formulaType.getD []
    sharedFormulaIndex
    formulaReference
    inFormula := !empty } }

def merge (element : Element) (state : SheetState) : Except ConversionError SheetState := do
  match ← attributeOf part element "ref" with
  | none => .error (malformed part "merged range reference is missing")
  | some reference => do
    let range ← parseCellRange reference
    if range.1 = range.2 then return state
    else return { state with
      layout := { state.layout with merges := state.layout.merges ++ [range] } }

def start (element : Element) (empty : Bool) (state : SheetState) :
    Except ConversionError SheetState :=
  match element.name with
  | "dimension" => dimension part element state
  | "row" => startRow part element empty state
  | "c" => startCell part options consumer element empty state
  | "v" =>
    if state.inCell then
      .ok { state with currentCell := { state.currentCell with inValue := !empty } }
    else .ok state
  | "f" => if state.inCell then startFormula part element empty state else .ok state
  | "t" =>
    if state.inCell ∧ state.currentCell.cellType = "inlineStr".toList then
      .ok { state with currentCell := { state.currentCell with inInlineText := !empty } }
    else .ok state
  | "mergeCell" => merge part element state
  | _ => .ok state

def addText (value : Text) (state : SheetState) : SheetState :=
  let cell := state.currentCell
  if cell.inFormula then
    { state with currentCell := { cell with formula := cell.formula ++ value } }
  else if cell.inValue || cell.inInlineText then
    { state with currentCell := { cell with value := cell.value ++ value } }
  else state

def close (name : String) (state : SheetState) : Except ConversionError SheetState :=
  match name with
  | "v" => .ok { state with currentCell := { state.currentCell with inValue := false } }
  | "f" => .ok { state with currentCell := { state.currentCell with inFormula := false } }
  | "t" => .ok { state with currentCell := { state.currentCell with inInlineText := false } }
  | "c" => finish part options consumer state
  | "row" =>
    match state.currentRow with
    | none => .error (malformed part "row end without start")
    | some row => do
      refuse (state.inCell = true) (malformed part "row closes inside a cell")
      return { state with
        currentRow := none, nextRow := saturatingAdd 32 row 1, lastCoordinate := none }
  | _ => .ok state

/-! ## The scan -/

/-- The state with the depth inside a tag of another namespace. -/
structure Scan where
  opaqueDepth : Nat := 0
  state : SheetState := {}

def step (scan : Scan) : Event → Except ConversionError Scan
  | .broken error => .error error
  | .docType => .error (malformed part "DTD is forbidden")
  | .other => .ok scan
  | .reference value => do
    let c ← value.mapError fun error => malformed part error
    if scan.opaqueDepth = 0 ∧ scan.state.inCell then
      return { scan with state := addText [c] scan.state }
    else return scan
  | .text value =>
    if scan.opaqueDepth = 0 ∧ scan.state.inCell then do
      let text ← value.mapError fun error => malformed part s!"invalid worksheet text: {error}"
      return { scan with state := addText text scan.state }
    else .ok scan
  | .start element =>
    if 0 < scan.opaqueDepth then do
      refuse (2 ^ 16 ≤ scan.opaqueDepth + 1) (limit "max_nesting_depth" "extension depth overflow")
      return { scan with opaqueDepth := scan.opaqueDepth + 1 }
    else if element.core = false then do
      refuse (options.bestEffort = false)
        (malformed part "unsupported worksheet extension namespace")
      return { scan with opaqueDepth := 1 }
    else do
      let state ← start part options consumer element false scan.state
      return { scan with state }
  | .empty element =>
    if 0 < scan.opaqueDepth ∨ element.core = false then .ok scan
    else do
      let state ← start part options consumer element true scan.state
      return { scan with state }
  | .close name core =>
    if 0 < scan.opaqueDepth then .ok { scan with opaqueDepth := scan.opaqueDepth - 1 }
    else if core then do
      let state ← close part options consumer name scan.state
      return { scan with state }
    else .ok scan

def scanFrom (scan : Scan) (events : List Event) : Except ConversionError Scan :=
  events.foldlM (step part options consumer) scan

/-- The layout, and the tokens that the consumer was given. -/
def parseSheet (events : List Event) : Except ConversionError (SheetLayout × List CellToken) := do
  let scan ← scanFrom part options consumer {} events
  refuse (scan.opaqueDepth ≠ 0 ∨ scan.state.inCell = true ∨ scan.state.currentRow.isSome)
    (malformed part "incomplete worksheet data")
  refuse (options.maxTableCells < scan.state.layout.physicalCells)
    (limit "max_table_cells" "worksheet has too many physical cells")
  return ({ scan.state.layout with sharedFormulaSlots := scan.state.sharedFormulas.entries.length },
    scan.state.tokens)

end

end IntoMarkdown.Sheet
