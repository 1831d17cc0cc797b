import IntoMarkdown.Ir.Validate
import IntoMarkdown.Lib.OrderedMap
import IntoMarkdown.Render.Text
import Mathlib

/-! # The plan of the assets

An inventory is grouped by content, every group gets a file name, and every image of the
document finds its asset. The digest and the canonical form of a URL are given. -/

namespace IntoMarkdown.Render
open Ir Lib Lib.Strings

structure Asset where
  id : Text
  mediaType : Text
  bytes : List UInt8
  externalUri : Option Text

inductive AssetMode where
  | extract
  | embed
  | omit
  deriving DecidableEq, Repr

structure ConversionOptions where
  flavor : Text
  assetMode : AssetMode
  assetUriPrefix : Option Text
  maxAssetBytes : UInt64
  maxTotalAssetBytes : UInt64

def ConversionOptions.default : ConversionOptions where
  flavor := "gfm".toList
  assetMode := .extract
  assetUriPrefix := none
  maxAssetBytes := 9007199254740991
  maxTotalAssetBytes := 9007199254740991

structure External where
  sha256Hex : List UInt8 → Text
  canonicalExternalAssetUri : Text → Option Text

structure PlannedAsset where
  assetIds : List Text
  sourceIndex : Nat
  filename : Text
  uri : Text
  mediaType : Text
  size : Nat
  sha256 : Text

structure PlannedAssetReference where
  entryIndex : Option Nat
  sourceIndex : Nat

structure AssetPlan where
  entries : List PlannedAsset
  byId : OrderedMap Text PlannedAssetReference

namespace AssetPlan

def reference (plan : AssetPlan) (id : Text) : Option PlannedAssetReference := plan.byId.lookup id

def uri (plan : AssetPlan) (id : Text) : Option Text :=
  (plan.reference id).bind fun reference =>
    reference.entryIndex.bind fun index => (plan.entries[index]?).map PlannedAsset.uri

end AssetPlan

def assetPlanError (code detail : String) : RenderError :=
  .internal s!"asset planning failed ({code}): {detail}"

/-! ## Media types and names -/

def isMediaTypeChar (c : Char) : Bool :=
  isAsciiAlphanumeric c || "!#$&^_.+-/".toList.contains c

def validMediaType (value : Text) : Bool :=
  (splitOnce '/' value).any fun parts =>
    parts.1 ≠ [] && parts.2 ≠ [] && '/' ∉ parts.2 && value.all isMediaTypeChar

def normalizeMediaType (value : Text) : Except RenderError Text := do
  refuse (¬ validMediaType value = true)
    (assetPlanError "invalidAssetMediaType" s!"invalid asset media type {String.ofList value}")
  return toAsciiLowercase value

def mediaTypeExtensions : List (String × String) :=
  [("image/jpeg", "jpg"), ("image/png", "png"), ("image/tiff", "tiff"), ("image/bmp", "bmp"),
    ("image/gif", "gif"), ("image/webp", "webp"), ("image/svg+xml", "svg"),
    ("image/avif", "avif"), ("application/pdf", "pdf"),
    ("application/x-openoffice-gdimetafile", "svm"), ("text/plain", "txt"), ("text/csv", "csv"),
    ("application/json", "json"), ("application/zip", "zip"), ("application/msword", "doc"),
    ("application/vnd.openxmlformats-officedocument.wordprocessingml.document", "docx"),
    ("application/vnd.ms-powerpoint", "ppt"),
    ("application/vnd.openxmlformats-officedocument.presentationml.presentation", "pptx"),
    ("application/vnd.ms-excel", "xls"),
    ("application/vnd.ms-excel.sheet.binary.macroenabled.12", "xlsb"),
    ("application/vnd.openxmlformats-officedocument.spreadsheetml.sheet", "xlsx"),
    ("application/vnd.oasis.opendocument.text", "odt"),
    ("application/vnd.oasis.opendocument.spreadsheet", "ods"),
    ("application/vnd.oasis.opendocument.presentation", "odp"), ("application/rtf", "rtf"),
    ("text/rtf", "rtf"), ("application/epub+zip", "epub"), ("text/markdown", "md"),
    ("text/html", "html"), ("text/tab-separated-values", "tsv"), ("application/xml", "xml"),
    ("text/xml", "xml"), ("application/vnd.jgraph.mxfile", "drawio"),
    ("application/x-ipynb+json", "ipynb"), ("application/vnd.rar", "rar"),
    ("application/vnd.ms-outlook", "msg"), ("audio/wav", "wav"), ("audio/x-wav", "wav"),
    ("audio/flac", "flac"), ("audio/mpeg", "mp3"), ("audio/mp4", "m4a"), ("audio/ogg", "ogg"),
    ("video/mp4", "mp4"), ("video/quicktime", "mov"), ("video/x-matroska", "mkv"),
    ("video/webm", "webm")]

def mediaTypeExtension (mediaType : Text) : Option Text :=
  (mediaTypeExtensions.find? fun row => row.1.toList = mediaType).map fun row => row.2.toList

def isLowercaseHex (c : Char) : Bool := isAsciiDigit c || (97 ≤ c.toNat && c.toNat ≤ 102)

def assetFilenameFromSha256 (sha256 mediaType : Text) : Except RenderError Text := do
  refuse (byteLength sha256 ≠ 64 ∨ ¬ sha256.all isLowercaseHex)
    (renderError "asset SHA-256 digest is not canonical lowercase hexadecimal")
  let mediaType ← normalizeMediaType mediaType
  return "asset-".toList ++ sha256 ++
    ((mediaTypeExtension mediaType).map fun extension => '.' :: extension).getD []

def joinUriPrefix (start : Option Text) (filename : Text) : Text :=
  match start with
  | none => filename
  | some start => trimEndMatches '/' start ++ ['/'] ++ filename

/-! ## URIs -/

def validateAssetUriPrefix (start : Option Text) : Except RenderError Unit :=
  match start with
  | none => .ok ()
  | some start => do
    let start := trimEndMatches '/' start
    refuse (start = [] ∨ start.head? = some '/' ∨ start.head? = some '\\' ∨
        start.any (fun c => c = '\\' || c = '?' || c = '#') ∨ start.any isControl ∨
        containsHtmlEntity start)
      (assetPlanError "unsafeAssetUriPrefix" "unsafe asset URI prefix")
    refuse ((splitOn '/' start).any fun segment => segment = [] || segment = ['.'])
      (assetPlanError "unsafeAssetUriPrefix" "asset URI prefix is not a portable relative path")
    refuse (':' ∈ start) (assetPlanError "unsafeAssetUriPrefix"
      "absolute and scheme-bearing asset URI prefixes are not permitted")

def validateExternalAssetUri (x : External) (value : Text) : Except RenderError Unit :=
  refuse (x.canonicalExternalAssetUri value ≠ some value)
    (renderError "external asset URI is not canonical safe HTTP(S)")

def validateExternalUri (x : External) (uri : Option Text) (id : Text) :
    Except RenderError Unit :=
  match uri with
  | none => .ok ()
  | some uri =>
    match (do validateLinkTarget uri; validateExternalAssetUri x uri) with
    | .ok _ => .ok ()
    | .error _ => .error (assetPlanError "unsafeExternalAssetUri"
        s!"asset {String.ofList id} has an unsafe external URI")

def validateEmptyAsset (x : External) (asset : Asset) (options : ConversionOptions) (id : Text) :
    Except RenderError Unit :=
  if options.assetMode = .omit then .ok () else validateExternalUri x asset.externalUri id

/-! ## The inventory -/

structure AssetGroup where
  sourceIndex : Nat
  mediaType : Text
  assetIds : List Text

structure Inventory where
  byId : OrderedMap Text PlannedAssetReference
  groups : OrderedMap Text AssetGroup
  total : Nat

def Inventory.empty : Inventory := ⟨.empty, .empty, 0⟩

/-- The group that the content of an asset belongs to, with the asset in it. -/
def joinGroup (assets : List Asset) (sourceIndex : Nat) (asset : Asset) (mediaType : Text) :
    Option AssetGroup → Except RenderError AssetGroup
  | none => .ok ⟨sourceIndex, mediaType, [asset.id]⟩
  | some group => do
    refuse ((assets[group.sourceIndex]?).map Asset.bytes ≠ some asset.bytes)
      (assetPlanError "contentHashCollision" "SHA-256 collision between distinct asset bytes")
    refuse (group.mediaType ≠ mediaType) (assetPlanError "assetMetadataConflict"
      (s!"identical asset bytes have conflicting media types {String.ofList group.mediaType} and " ++
        String.ofList mediaType))
    return { group with assetIds := group.assetIds ++ [asset.id] }

def addAsset (x : External) (options : ConversionOptions) (assets : List Asset)
    (sourceIndex : Nat) (asset : Asset) (inventory : Inventory) :
    Except RenderError Inventory := do
  let id := asset.id
  refuse (trim id = []) (renderError "asset inventory contains an empty asset ID")
  refuse ((inventory.byId.lookup id).isSome)
    (renderError s!"duplicate asset ID {String.ofList id}")
  let mediaType ← normalizeMediaType asset.mediaType
  let size := asset.bytes.length
  refuse (options.maxAssetBytes.toNat < size) (.resourceLimit "max_asset_bytes"
    s!"asset {String.ofList id}: {size} > {options.maxAssetBytes.toNat}")
  let total := inventory.total + size
  refuse (2 ^ 64 ≤ total)
    (.resourceLimit "max_total_asset_bytes" "asset byte count overflowed")
  refuse (options.maxTotalAssetBytes.toNat < total)
    (.resourceLimit "max_total_asset_bytes" s!"{total} > {options.maxTotalAssetBytes.toNat}")
  let byId := inventory.byId.insert id ⟨none, sourceIndex⟩
  if asset.bytes = [] then do
    validateEmptyAsset x asset options id
    return ⟨byId, inventory.groups, total⟩
  else do
    let contentHash := x.sha256Hex asset.bytes
    let group ← joinGroup assets sourceIndex asset mediaType (inventory.groups.lookup contentHash)
    return ⟨byId, inventory.groups.insert contentHash group, total⟩

def addAssets (x : External) (options : ConversionOptions) (assets : List Asset) :
    Nat → List Asset → Inventory → Except RenderError Inventory
  | _, [], inventory => .ok inventory
  | sourceIndex, asset :: rest, inventory => do
    let inventory ← addAsset x options assets sourceIndex asset inventory
    addAssets x options assets (sourceIndex + 1) rest inventory

/-! ## Entries -/

def planEntry (options : ConversionOptions) (assets : List Asset) (group : Text × AssetGroup) :
    Except RenderError PlannedAsset := do
  let filename ← assetFilenameFromSha256 group.1 group.2.mediaType
  return {
    assetIds := group.2.assetIds.mergeSort
    sourceIndex := group.2.sourceIndex
    filename := filename
    uri := joinUriPrefix options.assetUriPrefix filename
    mediaType := group.2.mediaType
    size := ((assets[group.2.sourceIndex]?).map fun asset => asset.bytes.length).getD 0
    sha256 := group.1 }

def indexId (entryIndex : Nat) (byId : OrderedMap Text PlannedAssetReference) (id : Text) :
    Except RenderError (OrderedMap Text PlannedAssetReference) :=
  match byId.lookup id with
  | none => .error (renderError s!"planned asset ID disappeared: {String.ofList id}")
  | some reference => .ok (byId.insert id { reference with entryIndex := some entryIndex })

def indexEntries : Nat → List PlannedAsset → OrderedMap Text PlannedAssetReference →
    Except RenderError (OrderedMap Text PlannedAssetReference)
  | _, [], byId => .ok byId
  | entryIndex, entry :: rest, byId => do
    let byId ← entry.assetIds.foldlM (indexId entryIndex) byId
    indexEntries (entryIndex + 1) rest byId

/-! ## References -/

/-- The assets that images refer to, as deep as the document goes. -/
def plannedReferences (plan : AssetPlan) :
    Nat → List BlockNode → OrderedMap Text Unit → Except RenderError (OrderedMap Text Unit)
  | 0, _, referenced => .ok referenced
  | depth + 1, nodes, referenced =>
    nodes.foldlM (fun referenced node =>
      match node.block with
      | .image asset _ => do
        refuse ((plan.reference asset).isNone)
          (renderError s!"image references missing asset {String.ofList asset}")
        return referenced.insert asset ()
      | block => block.childLists.foldlM
          (fun referenced children => plannedReferences plan depth children referenced)
          referenced) referenced

def AssetMode.phrase : AssetMode → String
  | .extract => "extract"
  | .embed => "embed"
  | .omit => "omit"

def checkReference (plan : AssetPlan) (assets : List Asset) (options : ConversionOptions)
    (id : Text) : Except RenderError Unit :=
  match plan.reference id with
  | none => .error (renderError s!"planned image reference disappeared: {String.ofList id}")
  | some reference =>
    let externalOnly := (assets[reference.sourceIndex]?).any fun source =>
      source.bytes.isEmpty && source.externalUri.isSome
    refuse (options.assetMode ≠ .omit ∧ (plan.uri id).isNone ∧ externalOnly = false)
      (renderError s!"asset {String.ofList id} has no bytes for {options.assetMode.phrase} mode")

def checkReferences (plan : AssetPlan) (assets : List Asset) (options : ConversionOptions) :
    List (Text × Unit) → Except RenderError Unit
  | [] => .ok ()
  | id :: rest => do
    checkReference plan assets options id.1
    checkReferences plan assets options rest

/-! ## The plan -/

def errorCodeText : IrErrorCode → String
  | .invalidJson => "invalidJson"
  | .unsupportedSchemaVersion => "unsupportedSchemaVersion"
  | .invalidNode => "invalidNode"
  | .invalidProvenance => "invalidProvenance"
  | .invalidLocator => "invalidLocator"
  | .duplicateNodeId => "duplicateNodeId"
  | .resourceLimit => "resourceLimit"

def validateDocument (rules : EvidenceRules) (layout : Layout) (document : Document) :
    Except RenderError Unit :=
  match document.validate rules layout with
  | .ok _ => .ok ()
  | .error error => .error (.internal ("asset planner received invalid document IR " ++
      s!"({errorCodeText error.code} at {error.path}): {error.detail}"))

def planAssets (x : External) (rules : EvidenceRules) (layout : Layout) (document : Document)
    (assets : List Asset) (options : ConversionOptions) : Except RenderError AssetPlan := do
  validateDocument rules layout document
  validateAssetUriPrefix options.assetUriPrefix
  let inventory ← addAssets x options assets 0 assets .empty
  let entries ← inventory.groups.entries.mapM (planEntry options assets)
  let entries := entries.mergeSort fun left right => left.filename ≤ right.filename
  let byId ← indexEntries 0 entries inventory.byId
  let plan := AssetPlan.mk entries byId
  let referenced ← plannedReferences plan maxDocumentDepth.toNat document.blocks .empty
  checkReferences plan assets options referenced.entries
  return plan

end IntoMarkdown.Render
