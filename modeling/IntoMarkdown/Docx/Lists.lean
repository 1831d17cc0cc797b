import IntoMarkdown.Docx.Tables
import IntoMarkdown.Render.Blocks

/-! # Lists of a Word document

`parse_numbering` and the end of a paragraph of the body. The inlines are the normalised ones,
and what the pictures become is given. -/

namespace IntoMarkdown.Docx
open Lib Ir
open Lib.Strings (Text parseUnsigned)

/-- A list and a level of it. -/
abbrev ListKey := Text × Nat

structure Numbering where
  kind : ListKind
  start : UInt64
  label : Option Text
  deriving DecidableEq, Repr

/-! ## Maps -/

section
variable {κ ν : Type} [DecidableEq κ]

/-- A map whose order nothing depends on, with one entry for a key. -/
def insertEntry (entries : List (κ × ν)) (key : κ) (value : ν) : List (κ × ν) :=
  (key, value) :: entries.filter fun entry => entry.1 ≠ key

def findEntry (entries : List (κ × ν)) (key : κ) : Option ν :=
  (entries.find? fun entry => entry.1 = key).map Prod.snd

end

/-! ## The numbering part -/

/-- Tags by their local names, with their attributes. -/
inductive XmlEvent where
  | startTag (name : String) (attributes : List (String × Text))
  | emptyTag (name : String) (attributes : List (String × Text))
  | endTag (name : String)

def attrLocal (attributes : List (String × Text)) (name : String) : Option Text :=
  findEntry attributes name

structure NumberingScan where
  abstracts : List (ListKey × Numbering) := []
  mapping : List (Text × Text) := []
  starts : List (ListKey × UInt64) := []
  abstractId : Option Text := none
  numId : Option Text := none
  ilvl : Nat := 0
  overrideLevel : Option Nat := none
  current : Numbering := ⟨.bullet, 1, none⟩

def parseLevel (value : Text) : Option Nat := parseUnsigned 256 value

def parseStart (value : Text) : Option UInt64 := (parseUnsigned (2 ^ 64) value).map UInt64.ofNat

/-- One turn of the loop over the events. -/
def numberingEvent (s : NumberingScan) : XmlEvent → NumberingScan
  | .startTag "abstractNum" attributes =>
    { s with abstractId := attrLocal attributes "abstractNumId" }
  | .endTag "abstractNum" => { s with abstractId := none }
  | .startTag "lvl" attributes =>
    { s with
      ilvl := ((attrLocal attributes "ilvl").bind parseLevel).getD 0
      current := ⟨.bullet, 1, none⟩ }
  | .emptyTag "numFmt" attributes =>
    let format := (attrLocal attributes "val").getD []
    { s with current :=
        { s.current with kind := if format = "bullet".toList then .bullet else .ordered } }
  | .emptyTag "start" attributes =>
    { s with current :=
        { s.current with start := ((attrLocal attributes "val").bind parseStart).getD 1 } }
  | .emptyTag "lvlText" attributes =>
    { s with current := { s.current with label := attrLocal attributes "val" } }
  | .endTag "lvl" =>
    match s.abstractId with
    | some id => { s with abstracts := insertEntry s.abstracts (id, s.ilvl) s.current }
    | none => s
  | .startTag "num" attributes => { s with numId := attrLocal attributes "numId" }
  | .endTag "num" => { s with numId := none, overrideLevel := none }
  | .startTag "lvlOverride" attributes =>
    { s with overrideLevel := (attrLocal attributes "ilvl").bind parseLevel }
  | .emptyTag "startOverride" attributes =>
    match s.numId, s.overrideLevel, (attrLocal attributes "val").bind parseStart with
    | some num, some level, some start => { s with starts := insertEntry s.starts (num, level) start }
    | _, _, _ => s
  | .emptyTag "abstractNumId" attributes =>
    match s.numId, attrLocal attributes "val" with
    | some num, some abstract => { s with mapping := insertEntry s.mapping num abstract }
    | _, _ => s
  | _ => s

def NumberingScan.of (events : List XmlEvent) : NumberingScan :=
  events.foldl numberingEvent {}

/-- The levels of each list, from those of the definition that it refers to. -/
def NumberingScan.levels (s : NumberingScan) : List (ListKey × Numbering) :=
  s.mapping.foldl (fun result entry =>
    s.abstracts.foldl (fun result level =>
      if level.1.1 = entry.2 then insertEntry result (entry.1, level.1.2) level.2 else result)
      result) []

/-- The start value of a level, if there is that level. -/
def overrideStart (result : List (ListKey × Numbering)) (entry : ListKey × UInt64) :
    List (ListKey × Numbering) :=
  match findEntry result entry.1 with
  | some numbering => insertEntry result entry.1 { numbering with start := entry.2 }
  | none => result

/-- `parse_numbering`. -/
def parseNumbering (events : List XmlEvent) : List (ListKey × Numbering) :=
  let s := NumberingScan.of events
  s.starts.foldl overrideStart s.levels

/-! ## Paragraphs -/

/-- What a picture becomes: the asset, or a text in its place. -/
inductive Media where
  | image (asset : Text) (alt : Option Text)
  | placeholder (alt : Option Text)
  deriving DecidableEq, Repr

def Media.block : Media → Block BlockNode
  | image asset alt => .image asset alt
  | placeholder alt =>
    let label := (alt.filter (· ≠ [])).getD "Unsupported media".toList
    .paragraph [.text ('[' :: (label ++ [']'])) []]

def Media.inlines : Media → Nat
  | image _ _ => 0
  | placeholder _ => 1

structure Paragraph where
  inlines : List Inline
  /-- The level of the heading that the style stands for. -/
  heading : Option UInt8
  numId : Option Text
  level : Nat
  media : List Media

structure ParseState where
  blocks : List BlockNode
  nextNode : Nat
  inlineCount : Nat
  lastListKey : Option ListKey

def ParseState.new : ParseState := ⟨[], 0, 0, none⟩

section
variable (layout : Layout) (part : Text)

def maxDocumentNodes : Nat := (2 ^ 63 - 1) / layout.blockNode.toNat

def maxDocumentInlines : Nat := (2 ^ 63 - 1) / layout.inline.toNat

/-- `ParseState::node`. -/
def ParseState.node (state : ParseState) (block : Block BlockNode) :
    Except ConversionError (BlockNode × ParseState) := do
  let next := state.nextNode + 1
  refuse (2 ^ 64 ≤ next) (limit "max_document_nodes" "node count overflow")
  refuse (maxDocumentNodes layout < next)
    (limit "max_document_nodes" s!"{next} > {maxDocumentNodes layout}")
  return (.mk ("docx-".toList ++ Strings.natText next) block ⟨"builtin.converter.docx".toList, none, part⟩,
    { state with nextNode := next })

def ParseState.addInlines (state : ParseState) (count : Nat) :
    Except ConversionError ParseState := do
  let total := state.inlineCount + count
  refuse (2 ^ 64 ≤ total) (limit "max_document_inlines" "inline count overflow")
  refuse (maxDocumentInlines layout < total)
    (limit "max_document_inlines" s!"{total} > {maxDocumentInlines layout}")
  return { state with inlineCount := total }

def pushMedia (state : ParseState) (media : Media) : Except ConversionError ParseState := do
  let state ← state.addInlines layout media.inlines
  let (node, state) ← state.node layout part media.block
  return { state with blocks := state.blocks ++ [node] }

def Paragraph.block (p : Paragraph) : Block BlockNode :=
  match p.heading with
  | some level => .heading level p.inlines
  | none => .paragraph p.inlines

def Paragraph.key (p : Paragraph) : Option ListKey := p.numId.map fun num => (num, p.level)

/-- The last block with the item, if it is a list of the kind. -/
def pushItem (kind : ListKind) (item : ListItem BlockNode) : BlockNode → Option BlockNode
  | .mk id (.list kind' start items) provenance =>
    if kind' = kind then some (.mk id (.list kind' start (items ++ [item])) provenance) else none
  | _ => none

def descriptorOf (numbering : List (ListKey × Numbering)) (key : ListKey) : Numbering :=
  (findEntry numbering key).getD ⟨.bullet, 1, none⟩

/-- `finish_paragraph` outside tables. -/
def finishParagraph (numbering : List (ListKey × Numbering)) (state : ParseState) (p : Paragraph) :
    Except ConversionError ParseState := do
  let state ← p.media.foldlM (pushMedia layout part) state
  let state ← state.addInlines layout p.inlines.length
  let (node, state) ← state.node layout part p.block
  match p.key with
  | some key =>
    let descriptor := descriptorOf numbering key
    let item : ListItem BlockNode := ⟨none, [node]⟩
    let grown := if state.lastListKey = some key then
        state.blocks.getLast?.bind (pushItem descriptor.kind item) else none
    match grown with
    | some last =>
      return { state with blocks := state.blocks.dropLast ++ [last], lastListKey := some key }
    | none =>
      let (list, state) ← state.node layout part (.list descriptor.kind descriptor.start [item])
      return { state with blocks := state.blocks ++ [list], lastListKey := some key }
  | none =>
    let omitted := p.heading = none ∧ p.inlines.isEmpty
    return { state with
      lastListKey := none
      blocks := if omitted then state.blocks else state.blocks ++ [node] }

/-- The paragraphs of the body, one after the other. -/
def finishParagraphs (numbering : List (ListKey × Numbering)) (paragraphs : List Paragraph) :
    Except ConversionError ParseState :=
  paragraphs.foldlM (finishParagraph layout part numbering) .new

end

end IntoMarkdown.Docx
