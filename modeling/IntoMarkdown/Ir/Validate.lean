import IntoMarkdown.Ir.Table

/-! # Validation of documents

The recursion goes as deep as the limits allow, so it is on what remains of the depth. The
rules on provenance and recognition evidence, which read floating-point numbers, are given. -/

namespace IntoMarkdown.Ir
open Lib Lib.Strings

def documentSchemaVersion : UInt32 := 1

structure EvidenceRules where
  provenance : Provenance → String → Except IrError Unit
  ocr : Text → Provenance → String → ValidationState → Except IrError ValidationState
  /-- A confidence that is finite and in `0.0..=1.0`. -/
  unitInterval : Text → Bool

/-- The rules as they are for a provenance without a box and no evidence of a recognizer. -/
def EvidenceRules.plain : EvidenceRules where
  provenance _ _ := .ok ()
  ocr _ _ _ state := .ok state
  unitInterval _ := true

/-! ## Fields -/

def nonempty (value : Text) (path label : String) : Except IrError Unit :=
  refuse (trim value = []) (invalidNode path s!"{label} must not be empty")

def positive (value : UInt32) (path label : String) : Except IrError Unit :=
  refuse (value = 0) (invalidNode path s!"{label} must be positive")

/-- A label of a speaker is a bounded nonempty single line. -/
def badSpeaker (speaker : Text) : Bool :=
  speaker.isEmpty || 128 < byteLength speaker || speaker.any isControl

def consumeInlines (limits : ValidationLimits) (path : String) (count : Nat)
    (state : ValidationState) : Except IrError ValidationState := do
  let state := { state with inlineCount := saturatingAdd state.inlineCount count }
  refuse (limits.maxInlines.toNat < state.inlineCount)
    (resourceLimit path "documentInlines" limits.maxInlines)
  return state

/-! ## Inlines -/

def validateInlineMarks (marks : List InlineMark) (inlinePath : String) : Except IrError Unit := do
  refuse (¬ marks.Nodup) (invalidNode s!"{inlinePath}.data.marks" "text marks must be unique")
  refuse (.superscript ∈ marks ∧ .subscript ∈ marks)
    (invalidNode s!"{inlinePath}.data.marks" "text cannot be both superscript and subscript")

section
variable (limits : ValidationLimits) (rules : EvidenceRules)

mutual

def validateInline (insideLink : Bool) (inlinePath : String) (state : ValidationState) :
    Inline → Except IrError ValidationState
  | .text _ marks => do
    validateInlineMarks marks inlinePath
    return state
  | .sourceText value marks provenance => do
    refuse (value.length ≠ 1) (invalidNode s!"{inlinePath}.data.value"
      "source text must contain exactly one Unicode scalar")
    validateInlineMarks marks inlinePath
    rules.provenance provenance s!"{inlinePath}.data.provenance"
    return state
  | .ocrText value marks provenance evidence => do
    nonempty value s!"{inlinePath}.data.value" "OCR text"
    validateInlineMarks marks inlinePath
    rules.provenance provenance s!"{inlinePath}.data.provenance"
    rules.ocr evidence provenance s!"{inlinePath}.data.evidence" state
  | .code _ => .ok state
  | .lineBreak => .ok state
  | .link target content => do
    nonempty target s!"{inlinePath}.data.target" "link target"
    refuse (insideLink = true) (invalidNode inlinePath "links must not be nested")
    validateInlinesFrom true s!"{inlinePath}.data.content" 0 state content
  | .formula value => do
    nonempty value s!"{inlinePath}.data" "formula"
    return state
  | .footnoteReference label => do
    nonempty label s!"{inlinePath}.data" "footnote reference"
    return { state with footnoteReferences := label :: state.footnoteReferences }

def validateInlinesFrom (insideLink : Bool) (path : String) (index : Nat)
    (state : ValidationState) : List Inline → Except IrError ValidationState
  | [] => .ok state
  | inline :: rest => do
    let inlinePath := s!"{path}[{index}]"
    let state ← consumeInlines limits inlinePath 1 state
    let state ← validateInline insideLink inlinePath state inline
    validateInlinesFrom insideLink path (index + 1) state rest

end

def validateInlines (content : List Inline) (path : String) (state : ValidationState) :
    Except IrError ValidationState :=
  validateInlinesFrom limits rules false path 0 state content

/-! ## Timed segments -/

def badToken (range : TimeRange) (previousEnd : UInt64) (token : TimedToken) : Bool :=
  token.range.startMs < range.startMs || range.endMs < token.range.endMs ||
  token.range.endMs ≤ token.range.startMs || token.range.startMs < previousEnd ||
  token.text.isEmpty || 16 * 1024 < byteLength token.text || token.text.contains (Char.ofNat 0) ||
  token.confidence.any (fun value => !rules.unitInterval value) || token.speaker.any badSpeaker ||
  token.speakerConfidence.any (fun value => !rules.unitInterval value) ||
  (token.speaker.isNone && token.speakerConfidence.isSome)

def validateTokens (range : TimeRange) (path : String) :
    Nat → UInt64 → List TimedToken → Except IrError Unit
  | _, _, [] => .ok ()
  | index, previousEnd, token :: tokens => do
    refuse (badToken rules range previousEnd token = true)
      (invalidNode s!"{path}.data.tokens[{index}]" "timed token evidence is invalid")
    validateTokens range path (index + 1) token.range.endMs tokens

/-- The tokens spell the one plain text of the segment. -/
def validateTokenText (speaker : Option Text) (tokens : List TimedToken) (content : List Inline)
    (path : String) : Except IrError Unit :=
  match tokens, content with
  | [], _ => .ok ()
  | tokens, [.text value marks] => do
    refuse (marks ≠ [] ∨ tokens.flatMap TimedToken.text ≠ value)
      (invalidNode s!"{path}.data.tokens" "timed token text must exactly reproduce segment content")
    refuse (speaker.any fun speaker => tokens.any fun token => token.speaker ≠ some speaker)
      (invalidNode s!"{path}.data.speaker"
        "segment speaker must match all token speaker evidence")
  | _, _ => .error (invalidNode s!"{path}.data.content"
      "timed token evidence requires one plain text inline")

def validateTimedSegment (range : TimeRange) (speaker speakerConfidence : Option Text)
    (tokens : List TimedToken) (content : List Inline) (path : String) (state : ValidationState) :
    Except IrError ValidationState := do
  refuse (range.endMs ≤ range.startMs)
    (invalidNode s!"{path}.data.range" "time range start must precede end")
  refuse (speaker.any badSpeaker)
    (invalidNode s!"{path}.data.speaker" "speaker label must be a bounded nonempty single line")
  refuse (speakerConfidence.any (fun value => !rules.unitInterval value) ∨
      (speaker.isNone ∧ speakerConfidence.isSome))
    (invalidNode s!"{path}.data.speakerConfidence"
      "speaker confidence must be finite and between zero and one")
  let state ← consumeInlines limits s!"{path}.data.tokens" tokens.length state
  validateTokens rules range path 0 range.startMs tokens
  validateTokenText speaker tokens content path
  validateInlines limits rules content s!"{path}.data.content" state

/-! ## Blocks

The blocks one level deeper are validated by the function that is given. -/

variable {β : Type} (validateNodes : BlocksValidator β)

def validateItems (kind : ListKind) (path : String) :
    Nat → List (ListItem β) → ValidationState → Except IrError ValidationState
  | _, [], state => .ok state
  | index, item :: items, state => do
    let itemPath := s!"{path}.data.items[{index}]"
    let state ← consumeStructuralNode limits itemPath state
    refuse (decide (kind = .task) ≠ item.checked.isSome) (invalidNode s!"{itemPath}.checked"
      "checked must be present only for task-list items")
    let state ← validateNodes item.blocks s!"{itemPath}.blocks" state
    validateItems kind path (index + 1) items state

def validateList (kind : ListKind) (start : UInt64) (items : List (ListItem β)) (path : String)
    (state : ValidationState) : Except IrError ValidationState := do
  refuse (items = []) (invalidNode s!"{path}.data.items" "list must contain an item")
  refuse (kind = .ordered ∧ start = 0)
    (invalidNode s!"{path}.data.start" "ordered list start must be positive")
  validateItems limits validateNodes kind path 0 items state

def validateBlock (block : Block β) (path : String) (state : ValidationState) :
    Except IrError ValidationState :=
  match block with
  | .paragraph content => validateInlines limits rules content s!"{path}.data" state
  | .heading level content => do
    refuse (level < 1 ∨ 6 < level)
      (invalidNode s!"{path}.data.level" "heading level must be 1..=6")
    validateInlines limits rules content s!"{path}.data.content" state
  | .list kind start items => validateList limits validateNodes kind start items path state
  | .table rows alignments => validateTable limits validateNodes rows alignments path state
  | .code language _ => do
    refuse (language.any fun value => trim value = [])
      (invalidNode s!"{path}.data.language" "code language must not be empty")
    return state
  | .formula value => do
    nonempty value s!"{path}.data" "formula"
    return state
  | .footnote label blocks => do
    nonempty label s!"{path}.data.label" "footnote label"
    refuse (label ∈ state.footnotes) (invalidNode s!"{path}.data.label"
      s!"duplicate footnote label {String.ofList label}")
    validateNodes blocks s!"{path}.data.blocks"
      { state with footnotes := label :: state.footnotes }
  | .image asset _ => do
    nonempty asset s!"{path}.data.asset" "asset ID"
    return state
  | .page number blocks => do
    positive number s!"{path}.data.number" "page number"
    validateNodes blocks s!"{path}.data.blocks" state
  | .slide number _ blocks => do
    positive number s!"{path}.data.number" "slide number"
    validateNodes blocks s!"{path}.data.blocks" state
  | .sheet name blocks => do
    nonempty name s!"{path}.data.name" "worksheet name"
    validateNodes blocks s!"{path}.data.blocks" state
  | .timedSegment range speaker speakerConfidence tokens content =>
    validateTimedSegment limits rules range speaker speakerConfidence tokens content path state
  | .rule => .ok state

end

/-! ## Nodes -/

section
variable (limits : ValidationLimits) (rules : EvidenceRules)

def validateNode (validateInner : BlocksValidator BlockNode) (node : BlockNode) (nodePath : String)
    (state : ValidationState) : Except IrError ValidationState := do
  let state ← consumeStructuralNode limits nodePath state
  refuse (trim node.id = []) (invalidNode s!"{nodePath}.id" "node ID must not be empty")
  refuse (node.id ∈ state.nodeIds)
    ⟨.duplicateNodeId, s!"{nodePath}.id", s!"duplicate node ID {String.ofList node.id}"⟩
  rules.provenance node.provenance s!"{nodePath}.provenance"
  validateBlock limits rules validateInner node.block s!"{nodePath}.block"
    { state with nodeIds := node.id :: state.nodeIds }

def validateNodesFrom (validateInner : BlocksValidator BlockNode) (path : String) :
    Nat → List BlockNode → ValidationState → Except IrError ValidationState
  | _, [], state => .ok state
  | index, node :: nodes, state => do
    let state ← validateNode limits rules validateInner node s!"{path}[{index}]" state
    validateNodesFrom validateInner path (index + 1) nodes state

/-- Nodes at a depth from which so many levels remain, their own included. -/
def validateNodes : Nat → BlocksValidator BlockNode
  | 0, nodes, path, state => do
    refuse (nodes ≠ []) (resourceLimit path "documentDepth" limits.maxDepth)
    return state
  | remaining + 1, nodes, path, state =>
    validateNodesFrom limits rules (validateNodes remaining) path 0 nodes state

def Document.validateWithLimits (document : Document) : Except IrError Unit := do
  refuse (document.schemaVersion ≠ documentSchemaVersion)
    ⟨.unsupportedSchemaVersion, "$.schemaVersion",
      s!"expected {documentSchemaVersion.toNat}, got {document.schemaVersion.toNat}"⟩
  let state ← validateNodes limits rules limits.maxDepth.toNat document.blocks "$.blocks" .new
  match state.footnoteReferences.filter (fun label => label ∉ state.footnotes) with
  | [] => .ok ()
  | label :: rest =>
    -- the set of the labels gives its least one first
    let least := rest.foldl (fun least label => if label < least then label else least) label
    .error (invalidNode "$.blocks" s!"undefined footnote reference {String.ofList least}")

def Document.validate (layout : Layout) (document : Document) : Except IrError Unit :=
  document.validateWithLimits (.default layout) rules

end

/-! ## The shape of valid documents -/

/-- The lists of nodes right inside a block. -/
def Block.childLists {β : Type} : Block β → List (List β)
  | .list _ _ items => items.map ListItem.blocks
  | .table rows _ => rows.flatMap fun row => row.cells.map Cell.blocks
  | .footnote _ blocks => [blocks]
  | .page _ blocks => [blocks]
  | .slide _ _ blocks => [blocks]
  | .sheet _ blocks => [blocks]
  | _ => []

/-- A table tiles a grid no wider than the bound. -/
def Block.TilesWithin {β : Type} (bound : Nat) : Block β → Prop
  | .table rows _ => rows ≠ [] ∧ ∃ W ≤ bound, TilesGrid rows W
  | _ => True

/-- Nodes nested to at most a depth, whose tables tile grids. -/
def Shaped (bound : Nat) : Nat → List BlockNode → Prop
  | 0, nodes => nodes = []
  | depth + 1, nodes => ∀ node ∈ nodes, node.block.TilesWithin bound ∧
      ∀ children ∈ node.block.childLists, Shaped bound depth children

theorem Shaped.mono {bound depth : Nat} {nodes fewer : List BlockNode}
    (h : Shaped bound depth nodes) (hsub : fewer ⊆ nodes) : Shaped bound depth fewer := by
  cases depth with
  | zero => exact List.subset_nil.mp (Eq.subst (motive := (fewer ⊆ ·)) h hsub)
  | succ depth => exact fun node hnode => h node (hsub hnode)

section
variable {limits : ValidationLimits} {rules : EvidenceRules} {β : Type}
  {validateInner : BlocksValidator β} {path : String} {state state' : ValidationState}

theorem validateItems_children {kind : ListKind} {items : List (ListItem β)} {index : Nat}
    (h : validateItems limits validateInner kind path index items state = .ok state') :
    ∀ item ∈ items, ∃ p s s', validateInner item.blocks p s = .ok s' := by
  induction items generalizing index state with
  | nil => exact List.forall_mem_nil _
  | cons item items ih =>
    obtain ⟨counted, -, h⟩ := ok_bind h
    obtain ⟨-, h⟩ := refuse_bind_ok.mp h
    obtain ⟨inner, hinner, h⟩ := ok_bind h
    exact List.forall_mem_cons.mpr ⟨⟨_, counted, inner, hinner⟩, ih h⟩

theorem contentsCells_children {cells : List (Cell β)} {index : Nat}
    (h : contentsCells limits validateInner path index cells state = .ok state') :
    ∀ cell ∈ cells, ∃ p s s', validateInner cell.blocks p s = .ok s' := by
  induction cells generalizing index state with
  | nil => exact List.forall_mem_nil _
  | cons cell cells ih =>
    obtain ⟨counted, -, h⟩ := ok_bind h
    obtain ⟨inner, hinner, h⟩ := ok_bind h
    exact List.forall_mem_cons.mpr ⟨⟨_, counted, inner, hinner⟩, ih h⟩

theorem contentsRows_children {rows : List (TableRow β)} {index : Nat}
    (h : contentsRows limits validateInner path index rows state = .ok state') :
    ∀ row ∈ rows, ∀ cell ∈ row.cells, ∃ p s s', validateInner cell.blocks p s = .ok s' := by
  induction rows generalizing index state with
  | nil => exact List.forall_mem_nil _
  | cons row rows ih =>
    obtain ⟨counted, -, h⟩ := ok_bind h
    obtain ⟨inner, hinner, h⟩ := ok_bind h
    exact List.forall_mem_cons.mpr ⟨contentsCells_children hinner, ih h⟩

/-- A valid block holds valid lists of nodes. -/
theorem validateBlock_children {block : Block β}
    (h : validateBlock limits rules validateInner block path state = .ok state') :
    ∀ children ∈ block.childLists, ∃ p s s', validateInner children p s = .ok s' := by
  cases block with
  | list kind start items =>
    obtain ⟨-, h⟩ := refuse_bind_ok.mp h
    obtain ⟨-, h⟩ := refuse_bind_ok.mp h
    exact List.forall_mem_map.mpr (validateItems_children h)
  | table rows alignments =>
    intro children hchildren
    obtain ⟨row, hrow, hchildren⟩ := List.mem_flatMap.mp hchildren
    obtain ⟨cell, hcell, rfl⟩ := List.mem_map.mp hchildren
    exact contentsRows_children (validateTable_ok_iff.mp h).2.1 row hrow cell hcell
  | footnote label blocks =>
    obtain ⟨_, -, h⟩ := ok_bind h
    obtain ⟨-, h⟩ := refuse_bind_ok.mp h
    exact List.forall_mem_singleton.mpr ⟨_, _, _, h⟩
  | page number blocks =>
    obtain ⟨_, -, h⟩ := ok_bind h
    exact List.forall_mem_singleton.mpr ⟨_, _, _, h⟩
  | slide number title blocks =>
    obtain ⟨_, -, h⟩ := ok_bind h
    exact List.forall_mem_singleton.mpr ⟨_, _, _, h⟩
  | sheet name blocks =>
    obtain ⟨_, -, h⟩ := ok_bind h
    exact List.forall_mem_singleton.mpr ⟨_, _, _, h⟩
  | _ => exact List.forall_mem_nil _

theorem validateBlock_tiles {block : Block β}
    (h : validateBlock limits rules validateInner block path state = .ok state') :
    block.TilesWithin limits.maxTableColumns.toNat := by
  cases block with
  | table rows alignments =>
    obtain ⟨hrows, -, W, -, hW, htiles, -⟩ := validateTable_ok_iff.mp h
    exact ⟨hrows, W, hW, htiles⟩
  | _ => trivial

theorem validateNodesFrom_blocks {validateInner : BlocksValidator BlockNode}
    {nodes : List BlockNode} {index : Nat}
    (h : validateNodesFrom limits rules validateInner path index nodes state = .ok state') :
    ∀ node ∈ nodes, ∃ p s s', validateBlock limits rules validateInner node.block p s = .ok s' := by
  induction nodes generalizing index state with
  | nil => exact List.forall_mem_nil _
  | cons node nodes ih =>
    obtain ⟨next, hnode, h⟩ := ok_bind h
    obtain ⟨counted, -, hnode⟩ := ok_bind hnode
    obtain ⟨-, hnode⟩ := refuse_bind_ok.mp hnode
    obtain ⟨-, hnode⟩ := refuse_bind_ok.mp hnode
    obtain ⟨_, -, hnode⟩ := ok_bind hnode
    exact List.forall_mem_cons.mpr ⟨⟨_, _, next, hnode⟩, ih h⟩

theorem validateNodes_shaped {remaining : Nat} {nodes : List BlockNode}
    (h : validateNodes limits rules remaining nodes path state = .ok state') :
    Shaped limits.maxTableColumns.toNat remaining nodes := by
  induction remaining generalizing nodes path state state' with
  | zero => exact not_not.mp (refuse_bind_ok.mp h).1
  | succ remaining ih =>
    intro node hnode
    obtain ⟨p, s, s', hblock⟩ := validateNodesFrom_blocks h node hnode
    refine ⟨validateBlock_tiles hblock, fun children hchildren => ?_⟩
    obtain ⟨p, s, s', hinner⟩ := validateBlock_children hblock children hchildren
    exact ih hinner

theorem validate_shaped {layout : Layout} {document : Document}
    (h : document.validate rules layout = .ok ()) :
    Shaped maxTableColumns.toNat maxDocumentDepth.toNat document.blocks := by
  obtain ⟨-, h⟩ := refuse_bind_ok.mp h
  obtain ⟨state, hnodes, -⟩ := ok_bind h
  exact validateNodes_shaped hnodes

end

end IntoMarkdown.Ir
