import IntoMarkdown.Lib.Strings

/-! # The document tree

Nodes, blocks and inlines of a document. Floating-point evidence (confidences, source
geometry) is kept as the text it is written as; only the rules handed to the
validator read it. -/

namespace IntoMarkdown.Ir
open Lib.Strings

/-! ## Errors and limits -/

inductive IrErrorCode where
  | invalidJson
  | unsupportedSchemaVersion
  | invalidNode
  | invalidProvenance
  | invalidLocator
  | duplicateNodeId
  | resourceLimit
  deriving DecidableEq, Repr

structure IrError where
  code : IrErrorCode
  path : String
  detail : String
  deriving DecidableEq, Repr

def invalidNode (path detail : String) : IrError := ⟨.invalidNode, path, detail⟩

def resourceLimit (path limit : String) (maximum : UInt64) : IrError :=
  ⟨.resourceLimit, path, s!"{limit} limit exceeded (maximum {maximum.toNat})"⟩

/-- Structural budgets, in 64-bit words. -/
structure ValidationLimits where
  maxDepth : UInt64
  maxNodes : UInt64
  maxInlines : UInt64
  maxJsonBytes : UInt64
  maxTableColumns : UInt64

/-- Sizes in memory of a block node and of an inline. -/
structure Layout where
  blockNode : UInt64
  inline : UInt64

def maxDocumentDepth : UInt64 := 16

def maxTableColumns : UInt64 := 16384

def ValidationLimits.default (layout : Layout) : ValidationLimits where
  maxDepth := maxDocumentDepth
  maxNodes := (2 ^ 63 - 1) / layout.blockNode
  maxInlines := (2 ^ 63 - 1) / layout.inline
  maxJsonBytes := 64 * 1024 * 1024
  maxTableColumns := Ir.maxTableColumns

/-- The sum in a 64-bit word that stops at its maximum. -/
def saturatingAdd (a b : Nat) : Nat := min (a + b) (2 ^ 64 - 1)

structure ValidationState where
  nodeCount : Nat
  inlineCount : Nat
  nodeIds : List Text
  footnotes : List Text
  footnoteReferences : List Text
  deriving DecidableEq, Repr

def ValidationState.new : ValidationState := ⟨0, 0, [], [], []⟩

/-! ## Inlines -/

structure Provenance where
  provider : Text
  page : Option UInt32
  evidence : Text
  deriving DecidableEq, Repr

inductive InlineMark where
  | bold
  | italic
  | strikethrough
  | underline
  | superscript
  | subscript
  deriving DecidableEq, Repr

inductive Inline where
  | text (value : Text) (marks : List InlineMark)
  | sourceText (value : Text) (marks : List InlineMark) (provenance : Provenance)
  | ocrText (value : Text) (marks : List InlineMark) (provenance : Provenance)
      (evidence : Text)
  | code (value : Text)
  | link (target : Text) (content : List Inline)
  | formula (value : Text)
  | footnoteReference (label : Text)
  | lineBreak

/-! ## Blocks -/

inductive ListKind where
  | bullet
  | ordered
  | task
  deriving DecidableEq, Repr

structure ListItem (β : Type) where
  checked : Option Bool
  blocks : List β

structure Cell (β : Type) where
  rowSpan : UInt32
  columnSpan : UInt32
  header : Bool
  blocks : List β

structure TableRow (β : Type) where
  cells : List (Cell β)

inductive TableAlignment where
  | none
  | left
  | center
  | right
  deriving DecidableEq, Repr

structure TimeRange where
  startMs : UInt64
  endMs : UInt64
  deriving DecidableEq, Repr

structure TimedToken where
  range : TimeRange
  text : Text
  confidence : Option Text
  speaker : Option Text
  speakerConfidence : Option Text
  deriving DecidableEq, Repr

/-- A block over the nodes it contains. -/
inductive Block (β : Type) where
  | paragraph (content : List Inline)
  | heading (level : UInt8) (content : List Inline)
  | list (kind : ListKind) (start : UInt64) (items : List (ListItem β))
  | table (rows : List (TableRow β)) (alignments : List TableAlignment)
  | code (language : Option Text) (text : Text)
  | formula (value : Text)
  | footnote (label : Text) (blocks : List β)
  | image (asset : Text) (alt : Option Text)
  | page (number : UInt32) (blocks : List β)
  | slide (number : UInt32) (title : Option Text) (blocks : List β)
  | sheet (name : Text) (blocks : List β)
  | timedSegment (range : TimeRange) (speaker : Option Text) (speakerConfidence : Option Text)
      (tokens : List TimedToken) (content : List Inline)
  | rule

inductive BlockNode where
  | mk (id : Text) (block : Block BlockNode) (provenance : Provenance)

namespace BlockNode

def id : BlockNode → Text
  | .mk id _ _ => id

def block : BlockNode → Block BlockNode
  | .mk _ block _ => block

def provenance : BlockNode → Provenance
  | .mk _ _ provenance => provenance

end BlockNode

structure Document where
  schemaVersion : UInt32
  properties : List (Text × Text)
  blocks : List BlockNode

end IntoMarkdown.Ir
