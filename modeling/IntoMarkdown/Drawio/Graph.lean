import IntoMarkdown.Converters.LogicalMemory
import IntoMarkdown.Lib.OrderedMap

/-! # The graph of a diagram

Cells name their parents and the ends of their edges by ids. The graph resolves the names,
detaches what lies on a cycle, and gives each cell its place below another. -/

namespace IntoMarkdown.Drawio
open Lib Strings Converters

structure Cell where
  attrs : Text → Option Text

namespace Cell

def attr (cell : Cell) (key : String) : Text := (cell.attrs key.toList).getD []

def id (cell : Cell) : Text := cell.attr "id"

def edge (cell : Cell) : Bool := cell.attr "edge" = "1".toList

end Cell

structure SourceLocator where
  page : Option Nat := none
  part : Option String := none
  byteStart : Option Nat := none
  byteEnd : Option Nat := none
  deriving DecidableEq, Repr

structure Diagnostic where
  code : String
  message : String
  locator : SourceLocator
  deriving DecidableEq, Repr

inductive ErrorPolicy where
  | strict | bestEffort
  deriving DecidableEq, Repr

structure Options where
  errorPolicy : ErrorPolicy
  maxNestingDepth : Nat
  /-- The size of a block in memory, which bounds the blocks of a document. -/
  blockNodeBytes : Nat

def maxDocumentNodes (options : Options) : Nat := (2 ^ 63 - 1) / options.blockNodeBytes

/-- How a computation ends that returns nothing: with an error, or never. -/
inductive Stop where
  | failed (error : ConversionError)
  | diverges
  deriving DecidableEq, Repr

def limit (name detail : String) : Stop := .failed (.core (.resourceLimit name detail))

/-! ## Output -/

structure Output (σ : Type) where
  world : σ
  diagnostics : List Diagnostic
  charged : Nat

section
variable {σ : Type} (runtime : Runtime σ) (options : Options)

namespace Output

def checkpoint (out : Output σ) : Except Stop (Output σ) := do
  let world ← (runtime.checkpoint out.world).mapError fun error => .failed (.core error)
  return { out with world }

def charge (bytes : Nat) (out : Output σ) : Except Stop (Output σ) := do
  let out ← out.checkpoint runtime
  let world ← (runtime.grow out.world bytes).mapError fun error => .failed (.core error)
  return { out with world, charged := out.charged + bytes }

def warning (code message : String) (locator : SourceLocator) (out : Output σ) :
    Except Stop (Output σ) := do
  refuse (maxDocumentNodes options ≤ out.diagnostics.length)
    (limit "drawio_diagnostics" "Drawio diagnostic budget exceeded")
  let out ← out.charge runtime (message.utf8ByteSize + code.utf8ByteSize + 1024)
  return { out with diagnostics := out.diagnostics ++ [⟨code, message, locator⟩] }

def defect (code message : String) (locator : SourceLocator) (out : Output σ) :
    Except Stop (Output σ) := do
  if options.errorPolicy = .strict then .error (.failed (.malformed locator.part message))
  else out.warning runtime options code message locator

/-- A defect where one was found. -/
def defectIf (found : Bool) (code message : String) (locator : SourceLocator) (out : Output σ) :
    Except Stop (Output σ) :=
  if found then out.defect runtime options code message locator else .ok out

end Output

/-! ## Identities -/

/-- The cells of each id that is not empty, in source order. -/
abbrev Ids := OrderedMap Text (List Nat)

def addId (ids : Ids) (id : Text) (i : Nat) : Ids :=
  ids.insert id ((ids.lookup id).getD [] ++ [i])

def collectIds (locations : List SourceLocator) :
    Nat → List Cell → Ids → Output σ → Except Stop (Ids × Output σ)
  | _, [], ids, out => .ok (ids, out)
  | i, cell :: cells, ids, out => do
    let out ← out.checkpoint runtime
    let location := locations.getD i {}
    let out ← out.defectIf runtime options (cell.id = []) "drawio.missingId"
      s!"Cell {i + 1} has no ID; assigned stable source ordinal" location
    let ids := if cell.id = [] then ids else addId ids cell.id i
    let out ← out.defectIf runtime options (cell.edge && cell.attr "vertex" = "1".toList)
      "drawio.conflictingCellKind" "Cell is both edge and vertex; retained as edge" location
    collectIds locations (i + 1) cells ids out

def reportDuplicates (locations : List SourceLocator) (ids : Ids) (out : Output σ) :
    Except Stop (Output σ) :=
  (ids.entries.filter fun entry => 1 < entry.2.length).foldlM (fun out entry =>
    entry.2.foldlM (fun out i =>
      out.defect runtime options "drawio.duplicateId"
        s!"Cell {i + 1} shares an ID with {entry.2.length} cells; ordinal identities retained"
        (locations.getD i {})) out) out

/-! ## Resolving -/

/-- The parents of the cells. -/
abbrev Parents := List (Option Nat)

def resolveEndpoint (ids : Ids) (cell : Cell) (location : SourceLocator) (out : Output σ)
    (key : String) : Except Stop (Output σ) :=
  if cell.attr key = [] then .ok out
  else
    match (ids.lookup (cell.attr key)).map List.length with
    | some 1 => .ok out
    | some _ => out.defect runtime options "drawio.ambiguousEndpoint"
        s!"Edge {key} ID is ambiguous; all candidates retained" location
    | none => out.defect runtime options "drawio.danglingEndpoint"
        s!"Edge {key} ID is missing; original reference retained" location

def resolveEndpoints (ids : Ids) (cell : Cell) (location : SourceLocator) (out : Output σ) :
    Except Stop (Output σ) :=
  if cell.edge then
    ["source", "target"].foldlM (resolveEndpoint runtime options ids cell location) out
  else .ok out

def resolveParent (ids : Ids) (cell : Cell) (location : SourceLocator) (i : Nat)
    (parents : Parents) (out : Output σ) : Except Stop (Parents × Output σ) :=
  if cell.attr "parent" = [] then .ok (parents, out)
  else
    match ids.lookup (cell.attr "parent") with
    | some [p] => .ok (parents.set i (some p), out)
    | some _ => do
      let out ← out.defect runtime options "drawio.ambiguousParent"
        "Parent ID is ambiguous; cell retained at page root with original reference" location
      return (parents, out)
    | none => do
      let out ← out.defect runtime options "drawio.missingParent"
        "Parent ID is missing; cell retained at page root with original reference" location
      return (parents, out)

def resolve (locations : List SourceLocator) (ids : Ids) :
    Nat → List Cell → Parents → Output σ → Except Stop (Parents × Output σ)
  | _, [], parents, out => .ok (parents, out)
  | i, cell :: cells, parents, out => do
    let out ← out.checkpoint runtime
    let location := locations.getD i {}
    let (parents, out) ← resolveParent runtime options ids cell location i parents out
    let out ← resolveEndpoints runtime options ids cell location out
    resolve locations ids (i + 1) cells parents out

/-! ## Cycles -/

inductive Color where
  | unseen | onPath | done
  deriving DecidableEq, Repr

structure Marks where
  colors : List Color
  parents : Parents
  depths : List Nat
  deriving DecidableEq, Repr

/-- Where the chain of parents leads from a cell, the path with its last cell first. The fuel
bounds the cells of the chain. -/
def follow (locations : List SourceLocator) :
    Nat → Option Nat → List Nat → Marks → Output σ → Except Stop (List Nat × Marks × Output σ)
  | _, none, path, marks, out => .ok (path, marks, out)
  | 0, some _, _, _, _ => .error .diverges
  | fuel + 1, some n, path, marks, out => do
    let out ← out.checkpoint runtime
    match marks.colors.getD n .unseen with
    | .done => .ok (path, marks, out)
    | .onPath =>
      match path with
      | [] => .error (limit "drawio_graph" "invalid parent traversal")
      | last :: _ => do
        let marks := { marks with parents := marks.parents.set last none }
        let out ← out.defect runtime options "drawio.parentCycle"
          "Cyclic parent relation detached in source order; original reference retained"
          (locations.getD last {})
        return (path, marks, out)
    | .unseen =>
      follow locations fuel (marks.parents.getD n none) (n :: path)
        { marks with colors := marks.colors.set n .onPath } out

def settle : List Nat → Marks → Except Stop Marks
  | [], marks => .ok marks
  | n :: path, marks => do
    let depth := (marks.parents.getD n none).elim 0 fun p => marks.depths.getD p 0 + 1
    let marks := { marks with depths := marks.depths.set n depth }
    refuse (options.maxNestingDepth < depth)
      (limit "max_nesting_depth" "Drawio group hierarchy exceeds request limit")
    settle path { marks with colors := marks.colors.set n .done }

def breakCycle (locations : List SourceLocator) (i : Nat) (marks : Marks) (out : Output σ) :
    Except Stop (Marks × Output σ) := do
  let out ← out.checkpoint runtime
  if marks.colors.getD i .unseen = .done then return (marks, out)
  let (path, marks, out) ←
    follow runtime options locations (marks.parents.length + 1) (some i) [] marks out
  let marks ← settle options path marks
  return (marks, out)

def breakCycles (locations : List SourceLocator) (parents : Parents) (out : Output σ) :
    Except Stop (Marks × Output σ) :=
  (List.range parents.length).foldlM
    (fun state i => breakCycle runtime options locations i state.1 state.2)
    (⟨parents.map fun _ => .unseen, parents, parents.map fun _ => 0⟩, out)

/-! ## Places -/

/-- The nearest edge from a cell upwards. -/
def ownerFrom (cells : List Cell) (parents : Parents) :
    Nat → Option Nat → Output σ → Except Stop (Option Nat × Output σ)
  | _, none, out => .ok (none, out)
  | 0, some _, _ => .error .diverges
  | fuel + 1, some parent, out => do
    let out ← out.checkpoint runtime
    if (cells[parent]?).any Cell.edge then return (some parent, out)
    ownerFrom cells parents fuel (parents.getD parent none) out

/-- `lists[i].push(n)`. -/
def pushAt (lists : List (List Nat)) (i n : Nat) : List (List Nat) :=
  lists.modify i (· ++ [n])

structure Graph where
  ids : Ids
  parents : Parents
  children : List (List Nat)
  depths : List Nat
  labels : List (List Nat)

def place (cells : List Cell) (i : Nat) (cell : Cell) (graph : Graph) (out : Output σ) :
    Except Stop (Graph × Output σ) := do
  let out ← out.checkpoint runtime
  let (owner, out) ← ownerFrom runtime cells graph.parents (options.maxNestingDepth + 1)
    (graph.parents.getD i none) out
  match owner.filter fun _ => !cell.edge with
  | some edge => return ({ graph with labels := pushAt graph.labels edge i }, out)
  | none =>
    match graph.parents.getD i none with
    | some parent => return ({ graph with children := pushAt graph.children parent i }, out)
    | none => return (graph, out)

def placeFrom (cells : List Cell) :
    Nat → List Cell → Graph → Output σ → Except Stop (Graph × Output σ)
  | _, [], graph, out => .ok (graph, out)
  | i, cell :: rest, graph, out => do
    let (graph, out) ← place runtime options cells i cell graph out
    placeFrom cells (i + 1) rest graph out

/-- `reserve_memory`, which the graph keeps. -/
def reserveMemory (bytes : Nat) (out : Output σ) : Except Stop (Output σ) := do
  let world ← (runtime.grow out.world bytes).mapError fun error => .failed (.core error)
  return { out with world }

def Graph.new (cells : List Cell) (locations : List SourceLocator) (out : Output σ) :
    Except Stop (Graph × Output σ) := do
  let out ← reserveMemory runtime (min (cells.length * 1024) (2 ^ 64 - 1)) out
  let (ids, out) ← collectIds runtime options locations 0 cells .empty out
  let out ← reportDuplicates runtime options locations ids out
  let parents := cells.map fun _ => none
  let (parents, out) ← resolve runtime options locations ids 0 cells parents out
  let (marks, out) ← breakCycles runtime options locations parents out
  let none := cells.map fun _ => []
  placeFrom runtime options cells 0 cells ⟨ids, marks.parents, none, marks.depths, none⟩ out

end

end IntoMarkdown.Drawio
