import IntoMarkdown.Lib.Base64
import IntoMarkdown.Render.Assets
import IntoMarkdown.Render.Table

/-! # Rendering of documents

Blocks are rendered level by level; the recursion is on the levels that are left. -/

namespace IntoMarkdown.Render
open Ir Lib Lib.Strings

/-! ## Speaker notes -/

def headingSuffix : Text := "::speaker-notes-heading".toList

def bodySuffix : Text := "::speaker-note".toList

def isHeading (node : BlockNode) : Bool :=
  headingSuffix <:+ node.id &&
    match node.block with
    | .heading level _ => level = 3
    | _ => false

/-- The text before the first occurrence. -/
def before (pattern : Text) : Text → Text
  | [] => []
  | c :: rest => if pattern <+: c :: rest then [] else c :: before pattern rest

def isBody (node : BlockNode) : Bool := bodySuffix <:+ before "::ocr::".toList node.id

mutual

def visibleInline : Inline → Bool
  | .text value _ => trim value ≠ []
  | .sourceText value _ _ => trim value ≠ []
  | .ocrText value _ _ _ => trim value ≠ []
  | .code value => trim value ≠ []
  | .formula value => trim value ≠ []
  | .footnoteReference value => trim value ≠ []
  | .link _ content => visibleInlines content
  | .lineBreak => false

def visibleInlines : List Inline → Bool
  | [] => false
  | inline :: rest => visibleInline inline || visibleInlines rest

end

def visibleBlock (assetMode : AssetMode) (visible : List BlockNode → Bool) :
    Block BlockNode → Bool
  | .paragraph inlines => visibleInlines inlines
  | .heading _ inlines => visibleInlines inlines
  | .timedSegment _ _ _ _ inlines => visibleInlines inlines
  | .image _ alt => assetMode ≠ .omit || alt.any fun value => trim value ≠ []
  | .list _ _ items => items.any fun item => item.checked.isSome || visible item.blocks
  | .table rows _ => rows.any fun row => row.cells.any fun cell => visible cell.blocks
  | .code _ text => trim text ≠ []
  | .formula text => trim text ≠ []
  | .footnote _ blocks => visible blocks
  | .slide _ _ blocks => visible blocks
  | .page _ blocks => visible blocks
  | .sheet _ blocks => visible blocks
  | .rule => true

def hasVisibleContent (assetMode : AssetMode) : Nat → List BlockNode → Bool
  | 0, _ => false
  | depth + 1, nodes =>
    nodes.any fun node => visibleBlock assetMode (hasVisibleContent assetMode depth) node.block

/-! ## Merges -/

def parseMergeCell (value : Text) : Option (Nat × Nat) := do
  let column := value.takeWhile fun c => !isAsciiDigit c
  let row := value.dropWhile fun c => !isAsciiDigit c
  guard (column ≠ [] ∧ row ≠ [])
  let row ← parseUnsigned (2 ^ 32) row
  guard (0 < row)
  let column ← (Utf8.encode column).foldlM (fun (total : Nat) byte => do
    let upper := if 97 ≤ byte ∧ byte ≤ 122 then byte - 32 else byte
    guard (65 ≤ upper)
    let total := total * 26
    guard (total < 2 ^ 32)
    let total := total + (upper.toNat - 64)
    guard (total < 2 ^ 32)
    return total) 0
  guard (0 < column)
  return (row - 1, column - 1)

def parseMergeSpan (value : Text) : Option (Nat × Nat) := do
  let parts ← splitOnce ':' value
  let start ← parseMergeCell parts.1
  let stop ← parseMergeCell parts.2
  guard (start.1 ≤ stop.1 ∧ stop.1 - start.1 + 1 < 2 ^ 32)
  guard (start.2 ≤ stop.2 ∧ stop.2 - start.2 + 1 < 2 ^ 32)
  return (stop.1 - start.1 + 1, stop.2 - start.2 + 1)

def mergeAttribute (name : String) (span : Nat) : Text :=
  if 1 < span then ' ' :: name.toList ++ "=\"".toList ++ natText span ++ ['"'] else []

def renderMergeLines : List Text → Except RenderError Text
  | [] => .ok []
  | line :: rest =>
    match parseMergeSpan line with
    | none => .error (renderError "invalid prepared XLSX merge range")
    | some span => do
      let more ← renderMergeLines rest
      return "<tr><th scope=\"row\">".toList ++ escapeHtmlText line ++ "</th><td".toList ++
        mergeAttribute "rowspan" span.1 ++ mergeAttribute "colspan" span.2 ++
        "></td></tr>\n".toList ++ more

def renderMergeHtml (value : Text) : Except RenderError Text := do
  let body ← renderMergeLines (lines value)
  return "<table>\n<tbody>\n".toList ++ body ++ "</tbody>\n</table>".toList

/-! ## Identities -/

def epubHeadingAnchor (node : BlockNode) : Option Text := do
  guard (node.provenance.provider = "builtin.converter.epub".toList)
  let rest ← stripPrefix "epub-spine-".toList node.id
  let sequence ← stripSuffix "-heading".toList rest
  guard (sequence ≠ [] ∧ sequence.all isAsciiDigit)
  return node.id

def pageRenderIdentity (node : BlockNode) : Text × Text :=
  if node.provenance.provider = "builtin.converter.image".toList ∨
      "image-page-".toList <+: node.id then
    ("image-frame".toList, "Image frame".toList)
  else ("pdf-page".toList, "Page".toList)

def speakerLabel (properties : List (Text × Text)) (speaker : Text) : Text :=
  let named := properties.findSome? fun property => do
    let key ← stripPrefix "media.speaker.".toList property.1
    let id ← stripSuffix ".label".toList key
    if id = speaker then some property.2 else none
  match named with
  | some label => label
  | none =>
    match (stripPrefix "speaker-".toList speaker).bind (parseUnsigned 256) with
    | some value => if 1 ≤ value ∧ value ≤ 64 then "Speaker ".toList ++ natText value else speaker
    | none => speaker

/-! ## Blocks -/

structure RenderContext where
  unicode : Unicode
  plan : AssetPlan
  assets : List Asset
  options : ConversionOptions
  properties : List (Text × Text)

def RenderContext.usesSpreadsheetmlHtmlTables (context : RenderContext) : Bool :=
  (context.properties.find? fun property => property.1 = "spreadsheet.encoding".toList).any
    fun property => property.2 = "spreadsheetml".toList

/-- What renders the nodes one level deeper. -/
abbrev NodesRenderer := List BlockNode → InlineContext → Except RenderError Text

def isParagraph (node : BlockNode) : Bool :=
  match node.block with
  | .paragraph _ => true
  | _ => false

def listMarker (kind : ListKind) (start : UInt64) (index : Nat) (checked : Option Bool) :
    Except RenderError Text :=
  match kind with
  | .bullet => .ok ['-']
  | .task => .ok (if checked = some true then "- [x]".toList else "- [ ]".toList)
  | .ordered => do
    let number := start.toNat + index
    refuse (2 ^ 64 ≤ number) (renderError "ordered-list marker overflowed u64")
    return natText number ++ ['.']

def listLine (kind : ListKind) (html : Bool) (item : ListItem BlockNode) (marker body : Text) :
    Text :=
  let indentation := if kind = .ordered then max (byteLength marker + 1) 4 else 4
  if html then "<li>\n\n".toList ++ body ++ "\n\n</li>".toList
  else if body = [] then marker
  else if item.blocks.head?.any isParagraph then
    marker ++ [' '] ++ indentContinuation body indentation
  else marker ++ ['\n'] ++ indentAll body indentation

def renderItems (renderInner : NodesRenderer) (context : InlineContext) (kind : ListKind)
    (start : UInt64) (html : Bool) :
    Nat → List (ListItem BlockNode) → Except RenderError (List Text)
  | _, [] => .ok []
  | index, item :: items => do
    let marker ← listMarker kind start index item.checked
    let body ← renderInner item.blocks context
    let rest ← renderItems renderInner context kind start html (index + 1) items
    return listLine kind html item marker body :: rest

def renderList (renderInner : NodesRenderer) (context : InlineContext) (kind : ListKind)
    (start : UInt64) (items : List (ListItem BlockNode)) : Except RenderError Text :=
  if items = [] then .ok []
  else do
    let html := kind = .ordered ∧
      999999999 < saturatingAdd start.toNat (items.length - 1)
    let lines ← renderItems renderInner context kind start html 0 items
    let body := join ['\n'] lines
    return if html then
      "<ol start=\"".toList ++ natText start.toNat ++ "\">\n\n".toList ++ body ++
        "\n\n</ol>".toList
    else body

def renderCell (renderInner : NodesRenderer) : CellRenderer BlockNode := fun cell => do
  let rendered ← renderInner cell.blocks .tableCell
  let normalized := normalizeLf rendered
  let paragraphs := replacePair '\n' '\n' "<br><br>".toList normalized
  let flattened := replaceChar '\n' "<br>".toList paragraphs
  let base := byteLength rendered + byteLength normalized + byteLength paragraphs
  let spanned := if spans cell then
      "<span data-rowspan=\"".toList ++ natText cell.rowSpan.toNat ++
        "\" data-colspan=\"".toList ++ natText cell.columnSpan.toNat ++ "\">".toList ++ flattened ++
        "</span>".toList
    else flattened
  let wrapped := if cell.header then boldCell spanned else spanned
  let wrapperPeak := max (max (byteLength flattened)
    (if cell.header then byteLength spanned + byteLength wrapped else 0))
    (byteLength wrapped + byteLength wrapped)
  return (wrapped, base + wrapperPeak)

/-- A node of a cell in an HTML table, with the bytes used on the way. -/
def renderHtmlNode (renderInner : NodesRenderer) (node : BlockNode) :
    Except RenderError (Text × Nat) :=
  match node.block with
  | .paragraph inlines => (renderHtmlInlines inlines).map fun text => (text, 0)
  | .heading _ inlines => (renderHtmlInlines inlines).map fun text => (text, 0)
  | .code _ text =>
    .ok ("<pre><code>".toList ++ escapeHtmlCode text ++ "</code></pre>".toList, 0)
  | .formula value => .ok ("<code>".toList ++ escapeHtmlCode value ++ "</code>".toList, 0)
  | _ => (renderInner [node] .tableCell).map fun text =>
      (escapeHtmlText text, byteLength text)

def renderHtmlNodes (renderInner : NodesRenderer) :
    List BlockNode → Except RenderError (List Text × Nat)
  | [] => .ok ([], 0)
  | node :: nodes => do
    let first ← renderHtmlNode renderInner node
    let rest ← renderHtmlNodes renderInner nodes
    return (first.1 :: rest.1, first.2 + rest.2)

def renderHtmlCell (renderInner : NodesRenderer) : CellRenderer BlockNode := fun cell => do
  let r ← renderHtmlNodes renderInner cell.blocks
  let output := join "<br>".toList r.1
  return (output, r.2 + byteLength output)

def renderTable (context : RenderContext) (renderInner : NodesRenderer)
    (rows : List (TableRow BlockNode)) (alignments : List TableAlignment) :
    Except RenderError Text :=
  (renderTableMeasured context.usesSpreadsheetmlHtmlTables (renderCell renderInner)
    (renderHtmlCell renderInner) rows alignments).map Prod.fst

def imageTarget (context : RenderContext) (id : Text) (asset : Asset) : Except RenderError Text :=
  if asset.bytes = [] then
    match asset.externalUri with
    | some uri => .ok uri
    | none => .error (renderError s!"asset {String.ofList id} has neither bytes nor URI")
  else
    match context.options.assetMode with
    | .embed => .ok ("data:".toList ++ asset.mediaType ++ ";base64,".toList ++
        Base64.encode asset.bytes)
    | _ =>
      match context.plan.uri id with
      | some uri => .ok uri
      | none => .error (renderError s!"asset {String.ofList id} has no extracted URI")

def renderImage (context : RenderContext) (id : Text) (alt : Option Text) (page : Option UInt32) :
    Except RenderError Text :=
  let alt := escapeImageAlt (singleLine (alt.getD []))
  if context.options.assetMode = .omit then .ok alt
  else
    match (context.plan.reference id).bind fun reference =>
        context.assets[reference.sourceIndex]? with
    | none => .error (renderError s!"image references missing asset {String.ofList id}")
    | some asset => do
      let target ← imageTarget context id asset
      let generated := context.options.assetMode = .embed ∧ asset.bytes ≠ []
      if generated then .ok () else validateLinkTarget target
      let destination := if generated then escapeGeneratedDestination target
        else escapeDestination target .normal
      let start := if "image/".toList <+: asset.mediaType then ['!'] else []
      let alt := if start = [] ∧ trim alt = [] then "Original image".toList else alt
      let fragment := if asset.mediaType = "application/pdf".toList ∧ '#' ∉ destination then
          (page.map fun page => "#page=".toList ++ natText page.toNat).getD []
        else []
      return start ++ ['['] ++ alt ++ "](<".toList ++ destination ++ fragment ++ ">)".toList

def renderBlock (context : RenderContext) (renderInner : NodesRenderer) (node : BlockNode)
    (inlineContext : InlineContext) : Except RenderError Text :=
  match node.block with
  | .paragraph content =>
    (renderInlines context.unicode content inlineContext).map protectParagraphIndent
  | .heading level content => do
    let start := ((epubHeadingAnchor node).map fun id =>
      "<a id=\"".toList ++ id ++ "\"></a>\n\n".toList).getD []
    let text ← renderInlines context.unicode content inlineContext
    return start ++ List.replicate level.toNat '#' ++ [' '] ++ text
  | .list kind start items => renderList renderInner inlineContext kind start items
  | .table rows alignments => renderTable context renderInner rows alignments
  | .code language text =>
    if language = some "xlsx-merge-html".toList then renderMergeHtml text
    else .ok (renderFence text (language.map sanitizeInfoString))
  | .formula value => .ok (renderFence value (some "math".toList))
  | .footnote label blocks => do
    let body ← renderInner blocks inlineContext
    let start := "[^".toList ++ footnoteLabel label ++ "]:".toList
    return if body = [] then start else start ++ [' '] ++ indentContinuation body 4
  | .image asset alt => renderImage context asset alt node.provenance.page
  | .page number blocks => do
    let body ← renderInner blocks inlineContext
    let identity := pageRenderIdentity node
    return withBody ("<a id=\"".toList ++ identity.1 ++ ['-'] ++ natText number.toNat ++
      "\"></a>\n\n## ".toList ++ identity.2 ++ [' '] ++ natText number.toNat) body
  | .slide number title blocks => do
    let heading := "## Slide ".toList ++ natText number.toNat ++
      (title.map fun title => ": ".toList ++ escapeText (singleLine title)).getD []
    let body ← renderInner blocks inlineContext
    return withBody heading body
  | .sheet name blocks => do
    let body ← renderInner blocks inlineContext
    return withBody ("## Sheet: ".toList ++ escapeText (singleLine name)) body
  | .timedSegment range speaker _ _ content => do
    let line := ['\x60'] ++ timestamp range.startMs ++ " – ".toList ++ timestamp range.endMs ++
      ['\x60'] ++ (speaker.map fun speaker => " **".toList ++
        escapeText (singleLine (speakerLabel context.properties speaker)) ++ ":**".toList).getD []
    let text ← renderInlines context.unicode content inlineContext
    return if text = [] then line else line ++ [' '] ++ text
  | .rule => .ok "---".toList

/-! ## Nodes -/

def isList (node : BlockNode) : Bool :=
  match node.block with
  | .list _ _ _ => true
  | _ => false

/-- A heading of speaker notes is left out with its body when nothing of it is visible. -/
def renderNodes (visible : BlockNode → Bool) (renderNode : BlockNode → Except RenderError Text) :
    List BlockNode → Bool → Bool → Except RenderError (List Text)
  | [], _, _ => .ok []
  | node :: rest, previousList, hiddenNotes =>
    if isHeading node && !(rest.takeWhile isBody).any visible then
      renderNodes visible renderNode rest previousList true
    else if hiddenNotes && isBody node then
      renderNodes visible renderNode rest previousList true
    else do
      let block ← renderNode node
      if block = [] then renderNodes visible renderNode rest previousList false
      else do
        let block := if previousList && isList node then "<!-- -->\n\n".toList ++ block else block
        let more ← renderNodes visible renderNode rest (isList node) false
        return block :: more

/-- Documents that were planned are no deeper than the levels they are rendered with. -/
def renderBlocksIn (context : RenderContext) : Nat → NodesRenderer
  | 0, nodes, _ => do
    refuse (nodes ≠ []) (renderError "document is too deep")
    return []
  | levels + 1, nodes, inlineContext => do
    let rendered ← renderNodes
      (fun node => hasVisibleContent context.options.assetMode (levels + 1) [node])
      (fun node => renderBlock context (renderBlocksIn context levels) node inlineContext)
      nodes false false
    return join ['\n', '\n'] rendered

def render (u : Unicode) (x : External) (rules : EvidenceRules) (layout : Layout)
    (document : Document) (assets : List Asset) (options : ConversionOptions) :
    Except RenderError Text := do
  refuse (toAsciiLowercase options.flavor ≠ "gfm".toList) (.unsupported
    s!"renderer builtin.gfm does not support flavor {String.ofList options.flavor}")
  let plan ← planAssets x rules layout document assets options
  let output ← renderBlocksIn ⟨u, plan, assets, options, document.properties⟩
    maxDocumentDepth.toNat document.blocks .normal
  let output := trimBlankLines output
  return if output = [] then [] else output ++ ['\n']

end IntoMarkdown.Render
