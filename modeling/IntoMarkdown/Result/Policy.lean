import IntoMarkdown.Core.Error
import IntoMarkdown.Render.Blocks

/-! # The empty-result gate

A completed result is classified by its Markdown, by what its converter proved about the source
and by the semantic content of its document; the summary of a streamed result keeps the class
and counts of its assets. -/

namespace IntoMarkdown.Result
open Ir Lib Lib.Strings Render

def emptySourceReasonCode : Text := "emptySource".toList

def assetOnlyReasonCode : Text := "assetOnly".toList

/-! ## Data -/

inductive DiagnosticSeverity where
  | info
  | warning
  | error
  deriving DecidableEq, Repr

structure Diagnostic where
  code : Text
  severity : DiagnosticSeverity
  message : Text
  deriving DecidableEq, Repr

inductive ConversionOutcome where
  | complete
  | degraded
  deriving DecidableEq, Repr

/-- Usable content class of a completed result. -/
inductive ResultContent where
  | markdown
  | emptySource
  | assetsOnly
  deriving DecidableEq, Repr

inductive DocumentContent where
  | empty
  | assetsOnly
  | visible
  deriving DecidableEq, Repr

inductive ConversionError where
  | internal (detail : String)
  | emptyContent
  deriving DecidableEq, Repr

/-- What a conversion returns in memory; the duration is kept as it is written. -/
structure ConversionResult where
  detectedFormat : Option Text
  document : Document
  markdown : Text
  assets : List Asset
  diagnostics : List Diagnostic
  processingDurationMs : Option Text

/-- What is left of a result whose parts were streamed. -/
structure ConversionSummary where
  format : Option Text
  outcome : ConversionOutcome
  diagnostics : List Diagnostic
  markdownBytes : UInt64
  assets : UInt64
  processingDurationMs : Option Text
  content : Option ResultContent
  payloadOnlyAssets : UInt64
  externalOnlyAssets : UInt64
  dualRepresentationAssets : UInt64

/-! ## Semantic content -/

/-- Neither white space nor a byte-order mark. -/
def isVisibleScalar (c : Char) : Bool := !isWhitespace c && c ≠ Char.ofNat 0xfeff

def markdownHasVisibleContent (markdown : Text) : Bool := markdown.any isVisibleScalar

mutual

def inlineIsVisible : Inline → Bool
  | .text value _ | .sourceText value _ _ | .ocrText value _ _ _ | .code value | .formula value =>
    markdownHasVisibleContent value
  | .link _ content => inlinesAreVisible content
  | .footnoteReference _ => true
  | .lineBreak => false

def inlinesAreVisible : List Inline → Bool
  | [] => false
  | inline :: rest => inlineIsVisible inline || inlinesAreVisible rest

end

def inlineContent (values : List Inline) : DocumentContent :=
  if inlinesAreVisible values then .visible else .empty

/-- Whether the other content is visible, and the content after the merge. -/
def DocumentContent.mergeNonVisible (content other : DocumentContent) : Bool × DocumentContent :=
  match other with
  | .visible => (true, content)
  | .assetsOnly => (false, .assetsOnly)
  | .empty => (false, content)

mutual

def blockContent : Block BlockNode → DocumentContent
  | .paragraph values => inlineContent values
  | .heading _ content => inlineContent content
  | .timedSegment _ _ _ _ content => inlineContent content
  | .list _ _ items => itemsContent .empty items
  | .table rows _ => if rows.isEmpty then .empty else .visible
  | .code _ text => if text.isEmpty then .empty else .visible
  | .formula text => if text.isEmpty then .empty else .visible
  | .footnote _ blocks => nodesContent .empty blocks
  | .page _ blocks => nodesContent .empty blocks
  | .sheet _ blocks => nodesContent .empty blocks
  | .slide _ title blocks =>
    if title.any fun value => !(trim value).isEmpty then .visible else nodesContent .empty blocks
  | .image _ _ => .assetsOnly
  | .rule => .visible

def nodeContent : BlockNode → DocumentContent
  | .mk _ block _ => blockContent block

def itemsContent (content : DocumentContent) : List (ListItem BlockNode) → DocumentContent
  | [] => content
  | ⟨_, blocks⟩ :: items =>
    let merged := content.mergeNonVisible (nodesContent .empty blocks)
    if merged.1 then .visible else itemsContent merged.2 items

def nodesContent (content : DocumentContent) : List BlockNode → DocumentContent
  | [] => content
  | node :: nodes =>
    let merged := content.mergeNonVisible (nodeContent node)
    if merged.1 then .visible else nodesContent merged.2 nodes

end

def documentContent (document : Document) : DocumentContent := nodesContent .empty document.blocks

/-! ## Classification -/

def conversionOutcome (diagnostics : List Diagnostic) : ConversionOutcome :=
  if diagnostics.any fun value => value.severity ≠ .info then .degraded else .complete

def evidenceFrom (emptySource assetOnly : Bool) : List Diagnostic → Bool × Bool
  | [] => (emptySource, assetOnly)
  | diagnostic :: rest =>
    let emptySource := emptySource || diagnostic.code = emptySourceReasonCode
    let assetOnly := assetOnly || diagnostic.code = assetOnlyReasonCode
    if emptySource && assetOnly then (emptySource, assetOnly)
    else evidenceFrom emptySource assetOnly rest

def evidenceReasons (diagnostics : List Diagnostic) : Bool × Bool :=
  evidenceFrom false false diagnostics

def hasReason (diagnostics : List Diagnostic) (code : Text) : Bool :=
  diagnostics.any fun value => value.code = code

def classifyResult (document : Document) (markdown : Text) (assets : List Asset)
    (diagnostics : List Diagnostic) : Except ConversionError ResultContent :=
  if markdownHasVisibleContent markdown then .ok .markdown
  else
    let reasons := evidenceReasons diagnostics
    if reasons.1 && reasons.2 then
      .error (.internal "result carries conflicting empty-source and asset-only evidence")
    else if reasons.1 then
      if !assets.isEmpty || documentContent document ≠ .empty then
        .error (.internal "empty-source evidence conflicts with retained document content")
      else .ok .emptySource
    else if assets.isEmpty then .error .emptyContent
    else
      let content := documentContent document
      if reasons.2 then
        if content ≠ .assetsOnly || assets.isEmpty then
          .error (.internal "asset-only evidence requires asset-only IR and retained assets")
        else .ok .assetsOnly
      else if content = .assetsOnly then .ok .assetsOnly
      else .error .emptyContent

/-- The first loss, or else the reason of an exceptional success of the given class. -/
def exceptionalReason (diagnostics : List Diagnostic) (content : Option ResultContent) :
    Option Text :=
  match diagnostics.find? fun value => value.severity ≠ .info with
  | some diagnostic => some diagnostic.code
  | none =>
    if hasReason diagnostics emptySourceReasonCode then some emptySourceReasonCode
    else if hasReason diagnostics assetOnlyReasonCode then some assetOnlyReasonCode
    else
      match content with
      | some .assetsOnly => some assetOnlyReasonCode
      | _ => none

namespace ConversionResult

def content (result : ConversionResult) : Except ConversionError ResultContent :=
  classifyResult result.document result.markdown result.assets result.diagnostics

def outcome (result : ConversionResult) : ConversionOutcome := conversionOutcome result.diagnostics

def reasonCode (result : ConversionResult) : Option Text :=
  exceptionalReason result.diagnostics result.content.toOption

def assetsAreDeliverable (result : ConversionResult) (payloads externalReferences : Bool) : Bool :=
  result.assets.all fun asset =>
    !asset.bytes.isEmpty && payloads || asset.externalUri.isSome && externalReferences

end ConversionResult

/-! ## Summaries -/

/-- `u64::try_from(count).unwrap_or(u64::MAX)`. -/
def countU64 (count : Nat) : UInt64 := UInt64.ofNat (min count (2 ^ 64 - 1))

def ConversionResult.intoSummary (result : ConversionResult) : ConversionSummary where
  format := result.detectedFormat
  outcome := result.outcome
  diagnostics := result.diagnostics
  markdownBytes := countU64 (byteLength result.markdown)
  assets := countU64 result.assets.length
  processingDurationMs := result.processingDurationMs
  content := result.content.toOption
  payloadOnlyAssets := countU64 (result.assets.countP fun asset =>
    !asset.bytes.isEmpty && asset.externalUri.isNone)
  externalOnlyAssets := countU64 (result.assets.countP fun asset =>
    asset.bytes.isEmpty && asset.externalUri.isSome)
  dualRepresentationAssets := countU64 (result.assets.countP fun asset =>
    !asset.bytes.isEmpty && asset.externalUri.isSome)

namespace ConversionSummary

def contentClass (summary : ConversionSummary) : Except ConversionError ResultContent :=
  match summary.content with
  | some content => .ok content
  | none => .error .emptyContent

def reasonCode (summary : ConversionSummary) : Option Text :=
  exceptionalReason summary.diagnostics summary.content

def assetsAreDeliverable (summary : ConversionSummary) (payloads externalReferences : Bool) :
    Bool :=
  (payloads || summary.payloadOnlyAssets = 0) &&
    (externalReferences || summary.externalOnlyAssets = 0) &&
    (payloads || externalReferences || summary.dualRepresentationAssets = 0)

end ConversionSummary

end IntoMarkdown.Result
