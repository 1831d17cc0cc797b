import IntoMarkdown.Sheet.SheetIndex

/-! # The metadata of cells

A second scan of a worksheet finds the marks of cells and what is hidden. It places rows and cells
on its own. -/

namespace IntoMarkdown.Sheet
open Lib Strings

inductive InlineMark where
  | bold | italic | strikethrough | underline
  deriving DecidableEq, Repr

structure MetadataState where
  marks : List (CellCoordinate × List InlineMark) := []
  hiddenRows : List (Nat × Nat) := []
  hiddenColumns : List (Nat × Nat) := []
  hiddenRowFieldBytes : Nat := 0
  hiddenColumnFieldBytes : Nat := 0
  currentRow : Option Nat := none
  nextRow : Nat := 0
  nextColumn : Nat := 0
  opaqueDepth : Nat := 0

section
variable (part : String) (options : Options) (styles : List (List InlineMark))

/-! ## Attributes -/

def decoded (value : Except String Text) : Except ConversionError Text :=
  value.mapError fun error => malformed part s!"invalid attribute: {error}"

def optionalU32From (name : String) (found : Option Nat) :
    List (String × Except String Text) → Except ConversionError (Option Nat)
  | [] => .ok found
  | (key, value) :: rest =>
    if key = name then do
      let text ← decoded part value
      let number ← parseNumber 32 (malformed part "invalid integer attribute") text
      refuse found.isSome (malformed part "duplicate integer attribute")
      optionalU32From name (some number) rest
    else optionalU32From name found rest

def optionalU32Attribute (element : Element) (name : String) :
    Except ConversionError (Option Nat) :=
  optionalU32From part name none element.attributes

/-- The first attribute of a name. -/
def firstAttribute (element : Element) (name : String) : Except ConversionError (Option Text) :=
  match element.attributes.lookup name with
  | none => .ok none
  | some value => (decoded part value).map some

def hiddenAttribute (element : Element) : Except ConversionError Bool := do
  match ← firstAttribute part element "hidden" with
  | none => return false
  | some value =>
    if value = "1".toList ∨ value = "true".toList then return true
    else if value = "0".toList ∨ value = "false".toList then return false
    else .error (malformed part "invalid hidden flag")

def requiredU32Attribute (element : Element) (name : String) : Except ConversionError Nat := do
  match ← firstAttribute part element name with
  | none => .error (malformed part "required numeric attribute is missing")
  | some value => parseNumber 32 (malformed part "invalid numeric attribute") value

/-- The last reference and the last style of a cell. -/
def cellAttributes (reference style : Option Text) :
    List (String × Except String Text) → Except ConversionError (Option Text × Option Text)
  | [] => .ok (reference, style)
  | (key, value) :: rest =>
    if key = "r" then do
      let text ← decoded part value
      cellAttributes (some text) style rest
    else if key = "s" then do
      let text ← decoded part value
      cellAttributes reference (some text) rest
    else cellAttributes reference style rest

/-! ## Hidden ranges -/

def decimalDigits (value : Nat) : Nat := (natText value).length

def columnNameLength (column : Nat) : Nat := (columnLetters 7 column).length

def compactRangeBytes (rows : Bool) (range : Nat × Nat) : Nat :=
  let bytes := fun n => if rows then decimalDigits (saturatingAdd 32 n 1) else columnNameLength n
  if range.1 = range.2 then bytes range.1 else bytes range.1 + 1 + bytes range.2

def checkedFieldBytes (bytes : Nat) : Except ConversionError Unit :=
  refuse (options.maxFieldBytes < bytes)
    (limit "max_field_bytes"
      s!"hidden-range metadata requires {bytes} > {options.maxFieldBytes}")

def appendRange (ranges : List (Nat × Nat)) (renderedBytes : Nat) (range : Nat × Nat)
    (rows : Bool) : Except ConversionError (List (Nat × Nat) × Nat) := do
  refuse (options.maxTableCells ≤ ranges.length) (limit "max_table_cells" "too many hidden ranges")
  let nextBytes := renderedBytes + (if ranges.isEmpty then 0 else 1) + compactRangeBytes rows range
  refuse (2 ^ 64 ≤ nextBytes) (limit "max_field_bytes" "hidden-range metadata size overflow")
  checkedFieldBytes options nextBytes
  return (ranges ++ [range], nextBytes)

def pushCompactRange (ranges : List (Nat × Nat)) (renderedBytes : Nat) (range : Nat × Nat)
    (rows : Bool) : Except ConversionError (List (Nat × Nat) × Nat) := do
  refuse (range.2 < range.1) (malformed part "hidden range is reversed")
  match ranges.getLast? with
  | none => appendRange options ranges renderedBytes range rows
  | some last => do
    refuse (range.1 < last.1) (malformed part "hidden ranges are out of order")
    if range.1 ≤ saturatingAdd 32 last.2 1 then
      let merged := (last.1, max last.2 range.2)
      refuse (renderedBytes < compactRangeBytes rows last)
        (limit "max_field_bytes" "hidden-range metadata size overflow")
      let nextBytes :=
        renderedBytes - compactRangeBytes rows last + compactRangeBytes rows merged
      refuse (2 ^ 64 ≤ nextBytes) (limit "max_field_bytes" "hidden-range metadata size overflow")
      checkedFieldBytes options nextBytes
      return (ranges.dropLast ++ [merged], nextBytes)
    else appendRange options ranges renderedBytes range rows

/-! ## Tags -/

/-- The coordinate that the metadata scan gives a cell. -/
def metadataCoordinate (reference : Option Text) (row : Nat) (state : MetadataState) :
    Except ConversionError CellCoordinate := do
  let said ← onSome parseCellRef reference
  let coordinate := said.getD (row, state.nextColumn)
  refuse (coordinate.1 ≠ row ∨ coordinate.2 < state.nextColumn)
    (malformed part "cell metadata is duplicated or out of order")
  return coordinate

def markCell (coordinate : CellCoordinate) (style : Option Text) (state : MetadataState) :
    Except ConversionError MetadataState :=
  match style with
  | none => .ok state
  | some style => do
    let index ← parseNumber 64 (malformed part "invalid cell style id") style
    match styles[index]? with
    | none => do
      refuse (options.bestEffort = false) (malformed part s!"missing cell style {index}")
      return state
    | some marks =>
      if marks = [] then return state
      else return { state with marks := state.marks ++ [(coordinate, marks)] }

def metadataCell (element : Element) (state : MetadataState) :
    Except ConversionError MetadataState :=
  match state.currentRow with
  | none => .error (malformed part "cell metadata lies outside worksheet row")
  | some row => do
    let (reference, style) ← cellAttributes part none none element.attributes
    let coordinate ← metadataCoordinate part reference row state
    markCell part options styles coordinate style
      { state with nextColumn := saturatingAdd 32 coordinate.2 1 }

def explicitRow (nextRow : Nat) : Option Nat → Except ConversionError Nat
  | some value =>
    if value ≠ 0 ∧ value ≤ maxExcelRows then .ok (value - 1)
    else .error (malformed part "worksheet row is out of range")
  | none => .ok nextRow

def metadataRowNumber (element : Element) (state : MetadataState) : Except ConversionError Nat := do
  let given ← optionalU32Attribute part element "r"
  let row ← explicitRow part state.nextRow given
  refuse (row < state.nextRow) (malformed part "worksheet metadata rows are out of order")
  return row

def hideRow (row : Nat) (hidden : Bool) (state : MetadataState) :
    Except ConversionError MetadataState :=
  if hidden then do
    let (ranges, bytes) ←
      pushCompactRange part options state.hiddenRows state.hiddenRowFieldBytes (row, row) true
    return { state with hiddenRows := ranges, hiddenRowFieldBytes := bytes }
  else .ok state

def metadataRow (element : Element) (empty : Bool) (state : MetadataState) :
    Except ConversionError MetadataState := do
  refuse state.currentRow.isSome (malformed part "nested worksheet metadata row")
  let row ← metadataRowNumber part element state
  let hidden ← hiddenAttribute part element
  let state ← hideRow part options row hidden state
  if empty then
    return { state with currentRow := none, nextColumn := 0, nextRow := saturatingAdd 32 row 1 }
  else return { state with currentRow := some row, nextColumn := 0 }

def metadataColumn (element : Element) (state : MetadataState) :
    Except ConversionError MetadataState := do
  if ← hiddenAttribute part element then
    let first ← requiredU32Attribute part element "min"
    let last ← requiredU32Attribute part element "max"
    refuse (first = 0 ∨ last < first ∨ maxExcelColumns < last)
      (malformed part "hidden column range is invalid")
    let (ranges, bytes) ← pushCompactRange part options state.hiddenColumns
      state.hiddenColumnFieldBytes (first - 1, last - 1) false
    return { state with hiddenColumns := ranges, hiddenColumnFieldBytes := bytes }
  else return state

def metadataTag (element : Element) (empty : Bool) (state : MetadataState) :
    Except ConversionError MetadataState :=
  match element.name with
  | "c" => metadataCell part options styles element state
  | "row" => metadataRow part options element empty state
  | "col" => metadataColumn part options element state
  | _ => .ok state

def metadataClose (name : String) (state : MetadataState) :
    Except ConversionError MetadataState :=
  match name with
  | "row" =>
    match state.currentRow with
    | none => .error (malformed part "worksheet metadata row end is unmatched")
    | some row => .ok { state with currentRow := none, nextRow := saturatingAdd 32 row 1 }
  | _ => .ok state

/-! ## The scan -/

def metadataEvent (state : MetadataState) : Event → Except ConversionError MetadataState
  | .broken error => .error error
  | .docType => .error (malformed part "DTD is forbidden")
  | .other => .ok state
  | .reference value => do
    let _ ← value.mapError fun error => malformed part error
    return state
  | .text _ => .ok state
  | .start element =>
    if 0 < state.opaqueDepth then do
      refuse (2 ^ 16 ≤ state.opaqueDepth + 1) (limit "max_nesting_depth" "extension depth overflow")
      return { state with opaqueDepth := state.opaqueDepth + 1 }
    else if element.core = false then do
      refuse (options.bestEffort = false)
        (malformed part "unsupported worksheet extension namespace")
      return { state with opaqueDepth := 1 }
    else metadataTag part options styles element false state
  | .empty element =>
    if 0 < state.opaqueDepth ∨ element.core = false then .ok state
    else metadataTag part options styles element true state
  | .close name core =>
    if 0 < state.opaqueDepth then .ok { state with opaqueDepth := state.opaqueDepth - 1 }
    else if core then metadataClose part name state
    else .ok state

def metadataStep (state : MetadataState) (event : Event) :
    Except ConversionError MetadataState := do
  let state ← metadataEvent part options styles state event
  refuse (options.maxTableCells < (state.marks.map Prod.fst).dedup.length)
    (limit "max_table_cells" "too many styled cells")
  return state

def metadataFrom (state : MetadataState) (events : List Event) :
    Except ConversionError MetadataState :=
  events.foldlM (metadataStep part options styles) state

def parseSheetCellMetadata (events : List Event) : Except ConversionError
    (List (CellCoordinate × List InlineMark) × List (Nat × Nat) × List (Nat × Nat)) := do
  let state ← metadataFrom part options styles {} events
  refuse (state.opaqueDepth ≠ 0) (malformed part "incomplete worksheet extension")
  return (state.marks, state.hiddenRows, state.hiddenColumns)

end

end IntoMarkdown.Sheet
