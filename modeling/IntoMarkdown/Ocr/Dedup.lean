import Mathlib
import IntoMarkdown.Core.Error
import IntoMarkdown.Lib.Except
import IntoMarkdown.Lib.Strings

/-! # Suppression of duplicate regions

`suppress_duplicates`: recognised regions of a page whose text and place repeat a
better region or the native text. Coordinates and confidences are rationals. -/

namespace IntoMarkdown.Ocr
open Lib Strings

inductive MergeError where
  | core (error : Core.ConversionError)
  | ocr (provider detail : String)
  deriving DecidableEq, Repr

structure Rect where
  x : ℚ
  y : ℚ
  width : ℚ
  height : ℚ
  deriving DecidableEq

structure Candidate (Polygon : Type) where
  sourceIndex : Nat
  text : Text
  detectionConfidence : ℚ
  recognitionConfidence : ℚ
  bounds : Rect
  polygon : Polygon
  deriving DecidableEq

structure CanonicalText where
  value : Text
  scalarCount : Nat
  deriving DecidableEq

structure NativeSpan where
  canonical : CanonicalText
  bounds : Rect

structure PageFrame where
  page : Nat
  width : ℚ
  height : ℚ

structure SourceLocator where
  page : Nat
  bounds : Rect
  pageWidth : ℚ
  pageHeight : ℚ
  deriving DecidableEq

structure Diagnostic where
  code : String
  message : String
  locator : SourceLocator
  deriving DecidableEq

/-- What the merge asks of its context, the allocator and the libraries. The state holds
whatever decides the answers. -/
structure Engine (σ Polygon : Type) where
  checkpoint : σ → Except Core.ConversionError σ
  /-- `try_reserve_exact`. -/
  allocate : σ → Nat → Option σ
  /-- `TextMeter::consume`. -/
  consumeText : σ → Nat → Except Core.ConversionError σ
  nfc : Text → Text
  polygonOverlapRatio : Polygon → Polygon → ℚ

structure MergeBudget (σ : Type) where
  remainingWork : Nat
  checkpointWork : Nat
  world : σ

def ocr (detail : String) : MergeError := .ocr "builtin.ocr.ir-merge" detail

def memory : MergeError :=
  .core (.resourceLimit "max_memory_bytes" "OCR merge allocation exceeded its preflight plan")

section
variable {σ Polygon : Type} (engine : Engine σ Polygon)

def allocate (world : σ) (count : Nat) : Except MergeError σ :=
  (engine.allocate world count).elim (.error memory) .ok

def MergeBudget.consume (budget : MergeBudget σ) (units : Nat) :
    Except MergeError (MergeBudget σ) := do
  refuse (budget.remainingWork < units) (ocr "mergeWorkPlanExceeded")
  let work := min (budget.checkpointWork + units) (2 ^ 64 - 1)
  let budget := { budget with remainingWork := budget.remainingWork - units, checkpointWork := work }
  if 256 ≤ work then
    let world ← (engine.checkpoint budget.world).mapError .core
    return { budget with checkpointWork := 0, world := world }
  else return budget

/-! ## Texts -/

/-- `plan_meter`: the bytes of the characters that are kept. -/
def planText : Text → Nat → σ → Except MergeError (Nat × σ)
  | [], capacity, world => .ok (capacity, world)
  | c :: rest, capacity, world => do
    let world ← (engine.consumeText world c.utf8Size).mapError .core
    let capacity := if isWhitespace c then capacity else capacity + c.utf8Size
    refuse (2 ^ 64 ≤ capacity) memory
    planText rest capacity world

/-- `copy_meter`. -/
def copyText : Text → CanonicalText → σ → Except MergeError (CanonicalText × σ)
  | [], output, world => .ok (output, world)
  | c :: rest, output, world => do
    let world ← (engine.consumeText world c.utf8Size).mapError .core
    copyText rest
      (if isWhitespace c then output
        else { value := output.value ++ [c], scalarCount := output.scalarCount + 1 }) world

def canonicalText (value : Text) (world : σ) : Except MergeError (CanonicalText × σ) := do
  let planned ← planText engine (engine.nfc value) 0 world
  let world ← allocate engine planned.2 planned.1
  copyText engine (engine.nfc value) { value := [], scalarCount := 0 } world

def textEquivalent (left right : CanonicalText) : Bool :=
  left.value ≠ [] && right.value ≠ [] &&
    (left.value = right.value || (4 ≤ left.scalarCount && left.value <:+: right.value) ||
      (4 ≤ right.scalarCount && right.value <:+: left.value))

/-! ## Geometry -/

def epsilon : ℚ := 1 / 1000000

def rectOverlapRatio (left right : Rect) : ℚ :=
  let width := max (min (left.x + left.width) (right.x + right.width) - max left.x right.x) 0
  let height := max (min (left.y + left.height) (right.y + right.height) - max left.y right.y) 0
  let intersection := width * height
  let minimum := min (left.width * left.height) (right.width * right.height)
  if minimum ≤ epsilon then 0 else min (max (intersection / minimum) 0) 1

def confidence (candidate : Candidate Polygon) : ℚ :=
  min candidate.detectionConfidence candidate.recognitionConfidence

/-- The better confidence, then the earlier region. -/
def candidatePrecedes (left right : Candidate Polygon) : Bool :=
  confidence right < confidence left ||
    (confidence left = confidence right && left.sourceIndex < right.sourceIndex)

/-! ## Suppression -/

/-- An index of `ordered` with what it addresses. -/
structure Region (Polygon : Type) where
  index : Nat
  candidate : Candidate Polygon
  canonical : CanonicalText

/-- The order of the sweep, by the left edges; the sort is stable. -/
def Region.sortsBefore (left right : Region Polygon) : Prop :=
  left.candidate.bounds.x < right.candidate.bounds.x ∨
    (left.candidate.bounds.x = right.candidate.bounds.x ∧
      left.candidate.sourceIndex ≤ right.candidate.sourceIndex)

instance (left right : Region Polygon) : Decidable (left.sortsBefore right) :=
  inferInstanceAs (Decidable (_ ∨ _))

structure Sifted (σ : Type) where
  suppressed : List Bool
  diagnostics : List Diagnostic
  budget : MergeBudget σ

def Sifted.suppress (sifted : Sifted σ) (index : Nat) : Sifted σ :=
  { sifted with suppressed := sifted.suppressed.set index true }

/-- The pair is compared in full. -/
def repeats (left right : Region Polygon) : Bool :=
  textEquivalent left.canonical right.canonical &&
    11 / 20 ≤ engine.polygonOverlapRatio left.candidate.polygon right.candidate.polygon

def dropped (left right : Region Polygon) : Nat :=
  if candidatePrecedes left.candidate right.candidate then right.index else left.index

/-- The inner loop, which breaks at the first region right of `left`. -/
def sweepRight (left : Region Polygon) : List (Region Polygon) → Sifted σ →
    Except MergeError (Sifted σ)
  | [], sifted => .ok sifted
  | right :: rest, sifted =>
    if left.candidate.bounds.x + left.candidate.bounds.width < right.candidate.bounds.x then
      .ok sifted
    else do
      let budget ← sifted.budget.consume engine 1
      let sifted := { sifted with budget := budget }
      if repeats engine left right then sweepRight left rest (sifted.suppress (dropped left right))
      else sweepRight left rest sifted

def sweep : List (Region Polygon) → Sifted σ → Except MergeError (Sifted σ)
  | [], sifted => .ok sifted
  | left :: rest, sifted => do
    let sifted ← sweepRight engine left rest sifted
    sweep rest sifted

def locator (frame : PageFrame) (bounds : Rect) : SourceLocator :=
  { page := frame.page, bounds := bounds, pageWidth := frame.width, pageHeight := frame.height }

/-- The loop over the native spans, which breaks at the first equivalent one. -/
def scanNative (frame : PageFrame) (region : Region Polygon) : List NativeSpan → Sifted σ →
    Except MergeError (Sifted σ)
  | [], sifted => .ok sifted
  | span :: rest, sifted =>
    if rectOverlapRatio region.candidate.bounds span.bounds < 9 / 20 then
      scanNative frame region rest sifted
    else do
      let budget ← sifted.budget.consume engine 1
      let sifted := { sifted with budget := budget }
      if textEquivalent region.canonical span.canonical then
        let suppressed := sifted.suppress region.index
        return { suppressed with
          diagnostics := sifted.diagnostics ++ [{
            code := "ocr.nativeDuplicateSuppressed"
            message := "OCR text overlapping equivalent native text was suppressed"
            locator := locator frame region.candidate.bounds }] }
      else scanNative frame region rest sifted

def scanRegions (frame : PageFrame) (native : List NativeSpan) : List (Region Polygon) →
    Sifted σ → Except MergeError (Sifted σ)
  | [], sifted => .ok sifted
  | region :: rest, sifted =>
    if sifted.suppressed.getD region.index false then
      scanRegions frame native rest { sifted with
        diagnostics := sifted.diagnostics ++ [{
          code := "ocr.duplicateSuppressed"
          message := "overlapping OCR region was suppressed as a duplicate"
          locator := locator frame region.candidate.bounds }] }
    else do
      let sifted ← scanNative engine frame region native sifted
      scanRegions frame native rest sifted

/-- The canonical texts, each candidate with its index. -/
def regionsFrom : List (Candidate Polygon) → Nat → σ → Except MergeError (List (Region Polygon) × σ)
  | [], _, world => .ok ([], world)
  | candidate :: rest, index, world => do
    let canonical ← canonicalText engine candidate.text world
    let more ← regionsFrom rest (index + 1) canonical.2
    return (⟨index, candidate, canonical.1⟩ :: more.1, more.2)

def suppressDuplicates (candidates : List (Candidate Polygon)) (native : List NativeSpan)
    (frame : PageFrame) (budget : MergeBudget σ) (diagnostics : List Diagnostic) :
    Except MergeError (List (Candidate Polygon) × List Diagnostic × MergeBudget σ) := do
  let world ← allocate engine budget.world candidates.length
  let regions ← regionsFrom engine candidates 0 world
  let world ← allocate engine regions.2 candidates.length
  let world ← allocate engine world candidates.length
  let ordered := regions.1.insertionSort Region.sortsBefore
  let swept ← sweep engine ordered
    { suppressed := List.replicate candidates.length false
      diagnostics := diagnostics
      budget := { budget with world := world } }
  let sifted ← scanRegions engine frame native regions.1 swept
  let world ← allocate engine sifted.budget.world candidates.length
  let retained := regions.1.filter fun region => !sifted.suppressed.getD region.index false
  return (retained.map Region.candidate, sifted.diagnostics, { sifted.budget with world := world })

end

end IntoMarkdown.Ocr
