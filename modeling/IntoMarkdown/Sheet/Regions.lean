import IntoMarkdown.Lib.Boxes
import IntoMarkdown.Sheet.SheetIndex

/-! # Regions of a worksheet

The runs, merged ranges and tables of a worksheet become regions. A sweep over the rows unites what
touches, as long as there is budget for the empty cells this takes in. -/

namespace IntoMarkdown.Sheet
open Lib

def regionPageRows : Nat := 2048

def regionPageCells : Nat := 4096

structure SparseRun where
  row : Nat
  firstColumn : Nat
  lastColumn : Nat
  deriving DecidableEq, Repr

structure SparseRegion extends Box where
  occupiedCells : Nat
  containsMerge : Bool
  deriving DecidableEq, Repr

abbrev MergeRange := Box

abbrev RegionPage := Box

abbrev TableRange := CellCoordinate × CellCoordinate

structure RegionPlan where
  regions : List SparseRegion
  emptyCellsUsed : Nat
  deriving DecidableEq, Repr

/-! ## Boxes -/

def intersects (left right : Box) : Bool :=
  left.firstRow ≤ right.lastRow && right.firstRow ≤ left.lastRow &&
    left.firstColumn ≤ right.lastColumn && right.firstColumn ≤ left.lastColumn

def contains (container child : Box) : Bool :=
  container.firstRow ≤ child.firstRow && child.lastRow ≤ container.lastRow &&
    container.firstColumn ≤ child.firstColumn && child.lastColumn ≤ container.lastColumn

def union (left right : SparseRegion) : SparseRegion where
  firstRow := min left.firstRow right.firstRow
  lastRow := max left.lastRow right.lastRow
  firstColumn := min left.firstColumn right.firstColumn
  lastColumn := max left.lastColumn right.lastColumn
  occupiedCells := saturatingAdd 64 left.occupiedCells right.occupiedCells
  containsMerge := left.containsMerge || right.containsMerge

def area (region : Box) : Except ConversionError Nat :=
  let cells := (region.lastRow - region.firstRow + 1) * (region.lastColumn - region.firstColumn + 1)
  if cells < 2 ^ 64 then .ok cells
  else .error (limit "max_table_cells" "sparse region area overflowed")

def regionOfMerge (merge : MergeRange) : SparseRegion :=
  { toBox := merge, occupiedCells := 0, containsMerge := true }

def validateBounds (reversed : String) (range : Box) : Except ConversionError Unit :=
  refuse (range.lastRow < range.firstRow ∨ range.lastColumn < range.firstColumn)
    (malformedHere reversed)

def validateRegion : Box → Except ConversionError Unit :=
  validateBounds "sparse region has reversed bounds"

def validateMerge : Box → Except ConversionError Unit :=
  validateBounds "sparse merged range has reversed bounds"

/-! ## Orders -/

/-- By the first row, then the first column, the last row and the last column. -/
def positionLe (a b : Box) : Prop :=
  a.firstRow < b.firstRow ∨ a.firstRow = b.firstRow ∧ (a.firstColumn < b.firstColumn ∨
    a.firstColumn = b.firstColumn ∧ (a.lastRow < b.lastRow ∨
      a.lastRow = b.lastRow ∧ a.lastColumn ≤ b.lastColumn))

instance : DecidableRel positionLe := fun a b =>
  inferInstanceAs (Decidable (a.firstRow < b.firstRow ∨ _))

def sortByPosition {α : Type} (place : α → Box) (values : List α) : List α :=
  values.insertionSort fun a b => positionLe (place a) (place b)

/-- The heap of rows and columns, earliest first. -/
abbrev Expirations := List (Nat × Nat)

def earlier (a b : Nat × Nat) : Prop := a.1 < b.1 ∨ a.1 = b.1 ∧ a.2 ≤ b.2

instance : DecidableRel earlier := fun a b =>
  inferInstanceAs (Decidable (a.1 < b.1 ∨ _))

def Expirations.push (expirations : Expirations) (entry : Nat × Nat) : Expirations :=
  expirations.orderedInsert earlier entry

/-! ## Ranges that do not overlap -/

abbrev ActiveRanges := OrderedMap Nat Box

/-- Takes out the ranges that end above the row. -/
def popEnded (firstRow : Nat) : Expirations → ActiveRanges → Expirations × ActiveRanges
  | [], active => ([], active)
  | (endRow, firstColumn) :: rest, active =>
    if firstRow ≤ endRow then ((endRow, firstColumn) :: rest, active)
    else
      popEnded firstRow rest
        (if (active.lookup firstColumn).any (·.lastRow = endRow) then active.erase firstColumn
        else active)

def checkRange (reversed overlapping : String) (state : Expirations × ActiveRanges) (range : Box) :
    Except ConversionError (Expirations × ActiveRanges) := do
  validateBounds reversed range
  let popped := popEnded range.firstRow state.1 state.2
  refuse ((popped.2.atMost range.lastColumn).any fun prior =>
    range.firstColumn ≤ prior.2.lastColumn) (malformedHere overlapping)
  refuse (popped.2.lookup range.firstColumn).isSome (malformedHere overlapping)
  return (popped.1.push (range.lastRow, range.firstColumn),
    popped.2.insert range.firstColumn range)

def validateNonOverlapping (reversed overlapping : String) (ranges : List Box) :
    Except ConversionError Unit := do
  let _ ← ranges.foldlM (checkRange reversed overlapping) ([], .empty)
  return ()

def validateNonOverlappingMerges : List MergeRange → Except ConversionError Unit :=
  validateNonOverlapping "sparse merged range has reversed bounds"
    "overlapping sparse merged ranges"

def validateNonOverlappingRegions (regions : List SparseRegion) : Except ConversionError Unit :=
  validateNonOverlapping "sparse region has reversed bounds" "sparse worksheet regions overlap"
    (sortByPosition id (regions.map SparseRegion.toBox))

/-! ## The regions to begin with -/

def runWidth (run : SparseRun) : Nat := run.lastColumn - run.firstColumn + 1

def regionOfRun (run : SparseRun) : SparseRegion where
  firstRow := run.row
  lastRow := run.row
  firstColumn := run.firstColumn
  lastColumn := run.lastColumn
  occupiedCells := runWidth run
  containsMerge := false

/-- The run begins right behind the region. -/
def continues (run : SparseRun) (region : SparseRegion) : Bool :=
  region.firstRow = run.row && region.lastColumn + 1 < 2 ^ 32 &&
    region.lastColumn + 1 = run.firstColumn

def extendRegion (run : SparseRun) (region : SparseRegion) : SparseRegion :=
  { region with
    lastColumn := run.lastColumn
    occupiedCells := region.occupiedCells + runWidth run }

/-- A run that begins right behind the last region goes into it. -/
def addRun (state : List SparseRegion × Option SparseRun) (run : SparseRun) :
    Except ConversionError (List SparseRegion × Option SparseRun) := do
  refuse (run.lastColumn < run.firstColumn)
    (malformedHere "sparse worksheet run has reversed columns")
  refuse (state.2.any fun prior =>
      run.row < prior.row ∨ run.row = prior.row ∧ run.firstColumn ≤ prior.lastColumn)
    (malformedHere "sparse worksheet runs are duplicated or unordered")
  match state.1.getLast?.filter (continues run) with
  | some region =>
    refuse (2 ^ 64 ≤ region.occupiedCells + runWidth run)
      (limit "max_table_cells" "sparse run cell count overflowed")
    return (state.1.dropLast ++ [extendRegion run region], some run)
  | none => return (state.1 ++ [regionOfRun run], some run)

def regionsFromRuns (runs : List SparseRun) : Except ConversionError (List SparseRegion) := do
  let state ← runs.foldlM addRun ([], none)
  return state.1

def appendMergeRegions (regions : List SparseRegion) (merges : List MergeRange) :
    Except ConversionError (List SparseRegion) := do
  let ordered := sortByPosition id merges
  validateNonOverlappingMerges ordered
  return regions ++ ordered.map regionOfMerge

/-- A pass over the regions: what the table has become, what is left, and whether they differ. -/
structure Absorption where
  table : SparseRegion
  untouched : List SparseRegion
  absorbed : Bool

def absorbRegion (state : Absorption) (region : SparseRegion) : Absorption :=
  if intersects region.toBox state.table.toBox then
    ⟨union state.table region, state.untouched, true⟩
  else ⟨state.table, state.untouched ++ [region], state.absorbed⟩

/-- As many passes as there are regions, since each but the last one takes one out. -/
def absorb : Nat → SparseRegion → List SparseRegion → SparseRegion × List SparseRegion
  | 0, table, regions => (table, regions)
  | fuel + 1, table, regions =>
    let state := regions.foldl absorbRegion ⟨table, [], false⟩
    if state.absorbed then absorb fuel state.table state.untouched
    else (state.table, state.untouched)

def regionOfTable (table : TableRange) : SparseRegion where
  firstRow := table.1.1
  lastRow := table.2.1
  firstColumn := table.1.2
  lastColumn := table.2.2
  occupiedCells := 0
  containsMerge := false

def appendTableRegion (regions : List SparseRegion) (table : TableRange) :
    Except ConversionError (List SparseRegion) := do
  refuse (table.2.1 < table.1.1 ∨ table.2.2 < table.1.2)
    (malformedHere "worksheet table range is reversed")
  let absorbed := absorb regions.length (regionOfTable table) regions
  return absorbed.2 ++ [absorbed.1]

def appendTableRegions (regions : List SparseRegion) (tables : List TableRange) :
    Except ConversionError (List SparseRegion) :=
  tables.foldlM appendTableRegion regions

/-! ## The sweep -/

/-- The state of `coalesce_regions`. -/
structure Sweep where
  remaining : Nat
  active : OrderedMap Nat SparseRegion
  expirations : Expirations
  completed : List SparseRegion

namespace Sweep

/-- Puts aside the regions that end above the row before. -/
def expireFrom (firstRow remaining : Nat) :
    Expirations → OrderedMap Nat SparseRegion → List SparseRegion → Sweep
  | [], active, completed => ⟨remaining, active, [], completed⟩
  | (expires, firstColumn) :: rest, active, completed =>
    if firstRow ≤ expires then ⟨remaining, active, (expires, firstColumn) :: rest, completed⟩
    else
      match (active.lookup firstColumn).filter fun candidate =>
          saturatingAdd 32 candidate.lastRow 1 = expires with
      | some candidate =>
        expireFrom firstRow remaining rest (active.erase firstColumn) (completed ++ [candidate])
      | none => expireFrom firstRow remaining rest active completed

def expire (sweep : Sweep) (firstRow : Nat) : Sweep :=
  expireFrom firstRow sweep.remaining sweep.expirations sweep.active sweep.completed

/-- The active regions beside the columns of a region: one that begins before it, and those that
begin in it or right behind it. -/
def candidates (sweep : Sweep) (region : SparseRegion) : List (Nat × SparseRegion) :=
  let behind := saturatingAdd 32 region.lastColumn 1
  let before := (sweep.active.atMost region.firstColumn).filter fun candidate =>
    region.firstColumn ≤ saturatingAdd 32 candidate.2.lastColumn 1
  -- a key is met twice only as the first one, once in each range
  before.toList ++ (sweep.active.between region.firstColumn behind).filter fun candidate =>
    candidate.2.firstColumn ≤ behind ∧ before.map (·.1) ≠ some candidate.1

def without (active : OrderedMap Nat SparseRegion) (candidates : List (Nat × SparseRegion)) :
    OrderedMap Nat SparseRegion :=
  candidates.foldl (fun active candidate => active.erase candidate.1) active

def combined (region : SparseRegion) (candidates : List (Nat × SparseRegion)) : SparseRegion :=
  candidates.foldl (fun combined candidate => union combined candidate.2) region

/-- The cells that the union has and its parts have not. -/
def extraCells (region : SparseRegion) (candidates : List (Nat × SparseRegion)) :
    Except ConversionError Nat := do
  let own ← area region.toBox
  let areas ← candidates.mapM fun candidate => area candidate.2.toBox
  let whole ← area (combined region candidates).toBox
  return whole - areas.foldl (saturatingAdd 64) own

def mandatoryMerge (region : SparseRegion) (candidates : List (Nat × SparseRegion)) : Bool :=
  candidates.any fun candidate => (region.containsMerge || candidate.2.containsMerge) &&
    intersects region.toBox candidate.2.toBox

/-- The inner loop, as many turns as there are active regions, since each takes one out. -/
def grow : Nat → Sweep → SparseRegion → Except ConversionError (SparseRegion × Sweep)
  | 0, sweep, region => .ok (region, sweep)
  | fuel + 1, sweep, region =>
    let candidates := sweep.candidates region
    if candidates = [] then .ok (region, sweep)
    else do
      let extra ← extraCells region candidates
      if ¬ mandatoryMerge region candidates ∧ sweep.remaining < extra then
        return (region, { sweep with
          active := without sweep.active candidates
          completed := sweep.completed ++ candidates.map (·.2) })
      else
        grow fuel { sweep with
          active := without sweep.active candidates
          remaining := if mandatoryMerge region candidates then sweep.remaining
            else sweep.remaining - extra } (combined region candidates)

def settle (sweep : Sweep) (region : SparseRegion) : Sweep :=
  { sweep with
    completed := sweep.completed ++ (sweep.active.lookup region.firstColumn).toList
    active := sweep.active.insert region.firstColumn region
    expirations := sweep.expirations.push
      (saturatingAdd 32 region.lastRow 1, region.firstColumn) }

/-- What a region grows to in its turn. -/
def grown (sweep : Sweep) (region : SparseRegion) : Except ConversionError (SparseRegion × Sweep) :=
  let expired := sweep.expire region.firstRow
  grow expired.active.entries.length expired region

def turn (sweep : Sweep) (region : SparseRegion) : Except ConversionError Sweep := do
  validateRegion region.toBox
  let grown ← sweep.grown region
  return grown.2.settle grown.1

def start (emptyCellBudget : Nat) : Sweep := ⟨emptyCellBudget, .empty, [], []⟩

end Sweep

def coalesceRegions (regions : List SparseRegion) (emptyCellBudget : Nat) :
    Except ConversionError (List SparseRegion × Nat) := do
  let sweep ← (sortByPosition SparseRegion.toBox regions).foldlM Sweep.turn
    (Sweep.start emptyCellBudget)
  return (sortByPosition SparseRegion.toBox (sweep.completed ++ sweep.active.values),
    emptyCellBudget - sweep.remaining)

/-! ## The plan -/

def consolidateMergeOwner (regions : List SparseRegion) (merge : MergeRange) :
    Except ConversionError (List SparseRegion) := do
  validateMerge merge
  let owner := regions.foldl (fun owner region =>
    if intersects region.toBox merge then union owner region else owner) (regionOfMerge merge)
  return regions.filter (fun region => ¬ intersects region.toBox merge) ++ [owner]

def consolidateMergeOwners (regions : List SparseRegion) (merges : List MergeRange) :
    Except ConversionError (List SparseRegion) := do
  let regions ← merges.foldlM consolidateMergeOwner regions
  return sortByPosition SparseRegion.toBox regions

def validateMergeOwnership (regions : List SparseRegion) (merges : List MergeRange) :
    Except ConversionError Unit :=
  merges.forM fun merge =>
    refuse (regions.countP (fun region => contains region.toBox merge) ≠ 1)
      (malformedHere "merged range does not belong to exactly one sparse region")

/-- The first part of `build_sparse_regions`: what the sweep goes over. -/
def sparseRegions (runs : List SparseRun) (merges : List MergeRange) (tables : List TableRange) :
    Except ConversionError (List SparseRegion) := do
  let regions ← regionsFromRuns runs
  let regions ← appendMergeRegions regions merges
  appendTableRegions regions tables

def buildSparseRegions (runs : List SparseRun) (merges : List MergeRange)
    (tables : List TableRange) (emptyCellBudget : Nat) : Except ConversionError RegionPlan := do
  let regions ← sparseRegions runs merges tables
  let swept ← coalesceRegions regions emptyCellBudget
  if (validateNonOverlappingRegions swept.1).isOk then
    return ⟨swept.1, swept.2⟩
  else do
    let regions ← consolidateMergeOwners swept.1 merges
    validateMergeOwnership regions merges
    return ⟨regions, swept.2⟩

/-! ## Pages -/

/-- The inner loop: a page goes on to the end of every merge that it would cut. -/
def extendPage (merges : List MergeRange) (bound : Nat) : Nat → Nat → Nat
  | 0, lastRow => lastRow
  | fuel + 1, lastRow =>
    let extended := (merges.filter fun merge =>
      merge.firstRow ≤ lastRow ∧ lastRow < merge.lastRow).foldl (fun last merge =>
        max last merge.lastRow) lastRow
    if extended = lastRow then lastRow else extendPage merges bound fuel (min extended bound)

def pagesFrom (merges : List MergeRange) (region : Box) (rowsPerPage : Nat) :
    Nat → Nat → List RegionPage
  | 0, _ => []
  | fuel + 1, firstRow =>
    if region.lastRow < firstRow then []
    else
      let lastRow := min (saturatingAdd 32 firstRow (rowsPerPage - 1)) region.lastRow
      let lastRow := extendPage merges region.lastRow (region.lastRow - lastRow) lastRow
      { region with firstRow, lastRow } ::
        if lastRow + 1 < 2 ^ 32 then pagesFrom merges region rowsPerPage fuel (lastRow + 1) else []

def rowsPerPage (region : Box) : Nat :=
  min regionPageRows (max (regionPageCells / (region.lastColumn - region.firstColumn + 1)) 1)

def checkPageMerge (region : Box) (merge : MergeRange) : Except ConversionError MergeRange := do
  validateMerge merge
  refuse (¬ contains region merge) (malformedHere "merged range crosses sparse region bounds")
  return merge

def paginateRegion (region : SparseRegion) (merges : List MergeRange) :
    Except ConversionError (List RegionPage) := do
  validateRegion region.toBox
  let relevant ← (merges.filter (intersects region.toBox)).mapM (checkPageMerge region.toBox)
  return pagesFrom relevant region.toBox (rowsPerPage region.toBox)
    (region.lastRow - region.firstRow + 1) region.firstRow

end IntoMarkdown.Sheet
