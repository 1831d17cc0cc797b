import IntoMarkdown.Decoding.Lines
import IntoMarkdown.Ir.Model

/-! # Paragraphs of a text

Lines that follow each other are a paragraph; empty lines are between paragraphs. The limits are on
paragraphs, on inlines and on the bytes of the text. -/

namespace IntoMarkdown.Decoding
open Lib Lib.Strings Converters

def providerId : String := "builtin.converter.text"

/-- A paragraph that the native parser is sure of. -/
structure ParagraphNode where
  id : String
  content : List Ir.Inline
  provider : String
  locator : SourceLocator

structure DocumentStats where
  blocks : Nat := 0
  inlines : Nat := 0
  textBytes : Nat := 0
  deriving DecidableEq, Repr

/-- The document so far, with the lines of the next paragraph. -/
structure Building (σ : Type) where
  document : Vec ParagraphNode := {}
  paragraph : Vec Line := {}
  stats : DocumentStats := {}
  memory : LogicalMemory σ

def Slots.maxDocumentNodes (slots : Slots) : Nat := (2 ^ 63 - 1) / slots.blockNode

def Slots.maxDocumentInlines (slots : Slots) : Nat := (2 ^ 63 - 1) / slots.inline

def documentLimit (limit detail : String) : ConversionError := .core (.resourceLimit limit detail)

/-- The counts with one more paragraph. -/
def DocumentStats.add (slots : Slots) (maxDecodedTextBytes : Nat) (stats : DocumentStats)
    (lines : List Line) : Except ConversionError DocumentStats := do
  let blocks ← okOr (checkedAdd stats.blocks 1)
    (documentLimit "max_document_nodes" "plain-text block count overflowed")
  refuse (slots.maxDocumentNodes < blocks)
    (documentLimit "max_document_nodes"
      s!"plain text exceeds {slots.maxDocumentNodes} paragraph nodes")
  let doubled ← okOr (checkedMul lines.length 2)
    (documentLimit "max_document_inlines" "plain-text inline count overflowed")
  -- There is a line, so that one can be taken off.
  let newInlines := doubled - 1
  let inlines ← okOr (checkedAdd stats.inlines newInlines)
    (documentLimit "max_document_inlines" "plain-text inline count overflowed")
  refuse (slots.maxDocumentInlines < inlines)
    (documentLimit "max_document_inlines"
      s!"plain text exceeds {slots.maxDocumentInlines} inline nodes")
  let addedTextBytes ← lines.foldlM (fun total line =>
    okOr (checkedAdd total (byteLength line.text.items))
      (documentLimit "max_text_decoded_bytes" "decoded text byte count overflowed")) 0
  let textBytes ← okOr (checkedAdd stats.textBytes addedTextBytes)
    (documentLimit "max_text_decoded_bytes" "decoded text byte count overflowed")
  refuse (maxDecodedTextBytes < textBytes)
    (documentLimit "max_text_decoded_bytes" s!"{textBytes} > {maxDecodedTextBytes}")
  .ok ⟨blocks, inlines, textBytes⟩

/-- The text of each line, with a line break before each but the first. -/
def paragraphContent (lines : List Line) : List Ir.Inline :=
  (lines.mapIdx fun index line =>
    if 0 < index then [.lineBreak, .text line.text.items []]
    else [.text line.text.items []]).flatten

section
variable {σ : Type} (runtime : Runtime σ) (slots : Slots) (maxDecodedTextBytes : Nat)

namespace Building

def flushParagraph (building : Building σ) : Except ConversionError (Building σ) :=
  if building.paragraph.items = [] then .ok building
  else do
    let lines := building.paragraph.items
    let stats ← building.stats.add slots maxDecodedTextBytes lines
    let start := (lines.head?.bind Line.start).getD 0
    let stop := (lines.getLast?.bind Line.stop).getD start
    let contentCapacity := saturatingMul lines.length 2 - 1
    let content ← building.memory.reserveVec runtime slots.inline ({} : Vec Ir.Inline)
      contentCapacity
    let memory ← content.2.charge runtime 64
    let id := s!"text-paragraph-{building.document.items.length + 1}"
    let memory ← memory.charge runtime providerId.utf8ByteSize
    let grown ← memory.reserveVec runtime slots.blockNode building.document 1
    .ok
      { document := grown.1.push ⟨id, paragraphContent lines, providerId, byteLocator start stop⟩
        paragraph := { building.paragraph with items := [] }
        stats
        memory := grown.2 }

def checkpoint (index : Nat) (building : Building σ) : Except ConversionError (Building σ) :=
  if index % 4096 = 0 then
    ((runtime.checkpoint building.memory.world).mapError .core).map fun world =>
      { building with memory.world := world }
  else .ok building

def pushLine (building : Building σ) (line : Line) : Except ConversionError (Building σ) :=
  if line.text.items = [] then building.flushParagraph runtime slots maxDecodedTextBytes
  else do
    let grown ← building.memory.reserveVec runtime slots.line building.paragraph 1
    .ok { building with paragraph := grown.1.push line, memory := grown.2 }

/-- The loop of `build_document` over the lines from an index on. -/
def pushLines (index : Nat) : List Line → Building σ → Except ConversionError (Building σ)
  | [], building => .ok building
  | line :: lines, building => do
    let building ← building.checkpoint runtime index
    let building ← building.pushLine runtime slots maxDecodedTextBytes line
    pushLines (index + 1) lines building

end Building

def buildDocument (lines : List Line) (memory : LogicalMemory σ) :
    Except ConversionError (List ParagraphNode × LogicalMemory σ) := do
  let building ← Building.pushLines runtime slots maxDecodedTextBytes 0 lines { memory }
  let building ← building.flushParagraph runtime slots maxDecodedTextBytes
  .ok (building.document.items, building.memory)

end

/-! ## What paragraphs are -/

/-- A paragraph from its lines: the range is the one from the first character to the last. -/
def paragraphOf (index : Nat) (lines : List (List Spot)) : ParagraphNode where
  id := s!"text-paragraph-{index + 1}"
  content := (lines.map fun line => Ir.Inline.text (line.map Spot.value) []).intersperse .lineBreak
  provider := providerId
  locator := ⟨lines.flatten.head?.map Spot.start, lines.flatten.getLast?.map Spot.stop⟩

section
variable {lines : List Line} {group : List (List Spot)}

theorem intersperse_cons {α : Type} (separator a : α) (items : List α) :
    (a :: items).intersperse separator = a :: items.flatMap fun item => [separator, item] := by
  induction items generalizing a with
  | nil => rfl
  | cons b items ih =>
    rw [List.intersperse_cons_cons, ih, List.flatMap_cons]
    rfl

theorem paragraphContent_eq (lines : List Line) :
    paragraphContent lines =
      (lines.map fun line => Ir.Inline.text line.text.items []).intersperse .lineBreak := by
  cases lines with
  | nil => rfl
  | cons line lines =>
    have hrest : (lines.mapIdx fun index line =>
        if 0 < index + 1 then ([.lineBreak, .text line.text.items []] : List Ir.Inline)
        else [.text line.text.items []]) =
          lines.map fun line => [.lineBreak, .text line.text.items []] := by
      rw [List.mapIdx_eq_iff]
      intro index
      rw [List.getElem?_map]
      exact congrArg (lines[index]?.map ·) (funext fun line => (if_pos index.succ_pos).symm)
    rw [paragraphContent, List.mapIdx_cons, hrest, List.flatten_cons, if_neg (Nat.lt_irrefl 0),
      List.map_cons, intersperse_cons, List.flatMap_map, List.flatMap_def]
    rfl

theorem paragraphContent_group (hlines : lines.map Line.content = group.map lineOf) :
    paragraphContent lines =
      (group.map fun line => Ir.Inline.text (line.map Spot.value) []).intersperse .lineBreak := by
  have hinlines := congrArg
    (List.map fun content : LineText => Ir.Inline.text content.text []) hlines
  rw [List.map_map, List.map_map] at hinlines
  rw [paragraphContent_eq]
  exact congrArg (List.intersperse Ir.Inline.lineBreak) hinlines

/-- The last character of a paragraph is the last one of its last line. -/
theorem getLast?_flatten_concat (group : List (List Spot)) {line : List Spot} (h : line ≠ []) :
    (group ++ [line]).flatten.getLast? = line.getLast? := by
  rw [List.flatten_append, List.flatten_singleton, List.getLast?_append_of_ne_nil _ h]

theorem head?_start (hlines : lines.map Line.content = group.map lineOf)
    (hblank : ∀ line ∈ group, line ≠ []) :
    lines.head?.bind Line.start = group.flatten.head?.map Spot.start := by
  cases group with
  | nil =>
    rw [List.map_nil, List.map_eq_nil_iff] at hlines
    rw [hlines]
    rfl
  | cons first group =>
    obtain ⟨line, lines, rfl, hline, -⟩ := List.map_eq_cons_iff.mp hlines
    obtain ⟨spot, more, rfl⟩ := List.exists_cons_of_ne_nil (hblank first List.mem_cons_self)
    exact congrArg LineText.start hline

theorem getLast?_stop (hlines : lines.map Line.content = group.map lineOf)
    (hblank : ∀ line ∈ group, line ≠ []) :
    lines.getLast?.bind Line.stop = group.flatten.getLast?.map Spot.stop := by
  rcases List.eq_nil_or_concat' group with rfl | ⟨front, last, rfl⟩
  · rw [List.map_nil, List.map_eq_nil_iff] at hlines
    rw [hlines]
    rfl
  · rw [List.map_append, List.map_singleton] at hlines
    obtain ⟨before, after, rfl, -, hafter⟩ := List.map_eq_append_iff.mp hlines
    obtain ⟨line, rfl, hline⟩ := List.map_eq_singleton_iff.mp hafter
    have hlast := hblank last (List.mem_append_right _ List.mem_cons_self)
    rw [getLast?_flatten_concat front hlast, List.getLast?_concat]
    exact congrArg LineText.stop hline

/-- The range of lines that are kept is the one of their characters. -/
theorem byteLocator_eq (hlines : lines.map Line.content = group.map lineOf) (hne : group ≠ [])
    (hblank : ∀ line ∈ group, line ≠ []) :
    byteLocator ((lines.head?.bind Line.start).getD 0)
        ((lines.getLast?.bind Line.stop).getD ((lines.head?.bind Line.start).getD 0)) =
      ⟨group.flatten.head?.map Spot.start, group.flatten.getLast?.map Spot.stop⟩ := by
  have hflatten : group.flatten ≠ [] := by
    obtain ⟨first, rest, rfl⟩ := List.exists_cons_of_ne_nil hne
    rw [List.flatten_cons]
    exact List.append_ne_nil_of_left_ne_nil (hblank first List.mem_cons_self) _
  rw [head?_start hlines hblank, getLast?_stop hlines hblank, List.head?_eq_some_head hflatten,
    List.getLast?_eq_some_getLast hflatten]
  rfl

/-! ## Counts -/

/-- The bytes of the characters. -/
def spotBytes (spots : List Spot) : Nat := byteLength (spots.map Spot.value)

theorem spotBytes_append (spots spots' : List Spot) :
    spotBytes (spots ++ spots') = spotBytes spots + spotBytes spots' := by
  rw [spotBytes, List.map_append, byteLength_append]
  rfl

def linesBytes (lines : List Line) : Nat := (lines.map fun line => byteLength line.text.items).sum

theorem linesBytes_append (lines lines' : List Line) :
    linesBytes (lines ++ lines') = linesBytes lines + linesBytes lines' := by
  rw [linesBytes, List.map_append, List.sum_append]
  rfl

/-- The counts with one more paragraph. -/
def DocumentStats.plusLines (stats : DocumentStats) (lines : List Line) : DocumentStats :=
  ⟨stats.blocks + 1, stats.inlines + (lines.length * 2 - 1), stats.textBytes + linesBytes lines⟩

/-- The counts with one more paragraph, from its characters. -/
def DocumentStats.plus (stats : DocumentStats) (group : List (List Spot)) : DocumentStats :=
  ⟨stats.blocks + 1, stats.inlines + (group.length * 2 - 1),
    stats.textBytes + spotBytes group.flatten⟩

def statsOf (groups : List (List (List Spot))) : DocumentStats :=
  groups.foldl DocumentStats.plus {}

/-- No more than a document may have. -/
structure DocumentStats.Within (slots : Slots) (maxDecodedTextBytes : Nat) (stats : DocumentStats) :
    Prop where
  blocks : stats.blocks ≤ slots.maxDocumentNodes
  inlines : stats.inlines ≤ slots.maxDocumentInlines
  textBytes : stats.textBytes ≤ maxDecodedTextBytes

theorem okOr_checkedAdd (a b : Nat) (error : Core.ConversionError) :
    Yields (· = a + b) (okOr (checkedAdd a b) (.core error)) := by
  unfold checkedAdd
  split
  · exact .ok rfl
  · exact .core error

theorem okOr_checkedMul (a b : Nat) (error : Core.ConversionError) :
    Yields (· = a * b) (okOr (checkedMul a b) (.core error)) := by
  unfold checkedMul
  split
  · exact .ok rfl
  · exact .core error

theorem refuse_yields (bad : Prop) [Decidable bad] (error : Core.ConversionError) :
    Yields (fun _ => ¬ bad) (refuse bad (.core error)) :=
  .of_coreOnly (CoreOnly.refuse error) fun _ h => refuse_ok h

theorem lineBytes_yields (lines : List Line) (total : Nat) (error : Core.ConversionError) :
    Yields (· = total + linesBytes lines)
      (lines.foldlM (fun total line =>
        okOr (checkedAdd total (byteLength line.text.items)) (.core error)) total) := by
  induction lines generalizing total with
  | nil => exact .ok rfl
  | cons line lines ih =>
    rw [List.foldlM_cons, linesBytes, List.map_cons, List.sum_cons, ← Nat.add_assoc]
    refine (okOr_checkedAdd _ _ _).bind fun next hnext => ?_
    rw [← hnext]
    exact ih next

theorem linesBytes_eq (hlines : lines.map Line.content = group.map lineOf) :
    linesBytes lines = spotBytes group.flatten := by
  have hcontents : linesBytes lines =
      ((lines.map Line.content).map fun content => byteLength content.text).sum := by
    rw [List.map_map]
    rfl
  rw [hcontents, hlines, List.map_map]
  clear hlines hcontents
  induction group with
  | nil => rfl
  | cons first group ih =>
    rw [List.map_cons, List.sum_cons, ih, List.flatten_cons, spotBytes_append]
    rfl

theorem plusLines_eq (stats : DocumentStats)
    (hlines : lines.map Line.content = group.map lineOf) :
    stats.plusLines lines = stats.plus group := by
  have hlength : lines.length = group.length := by
    rw [← List.length_map Line.content, hlines, List.length_map]
  rw [DocumentStats.plusLines, linesBytes_eq hlines, hlength]
  rfl

/-- The counts with the paragraph are within the limits. -/
theorem add_yields (slots : Slots) (maxDecodedTextBytes : Nat) (stats : DocumentStats)
    (lines : List Line) :
    Yields (fun next => next = stats.plusLines lines ∧ next.Within slots maxDecodedTextBytes)
      (stats.add slots maxDecodedTextBytes lines) := by
  refine (okOr_checkedAdd _ _ _).bind fun blocks hblocks => ?_
  refine (refuse_yields _ _).bind fun _ hnodes => ?_
  refine (okOr_checkedMul _ _ _).bind fun doubled hdoubled => ?_
  refine (okOr_checkedAdd _ _ _).bind fun inlines hinlines => ?_
  refine (refuse_yields _ _).bind fun _ hmaxInlines => ?_
  refine (lineBytes_yields lines 0 _).bind fun added hadded => ?_
  refine (okOr_checkedAdd _ _ _).bind fun textBytes htextBytes => ?_
  refine (refuse_yields _ _).bind fun _ hmaxBytes => ?_
  refine .ok ⟨?_, ⟨Nat.not_lt.mp hnodes, Nat.not_lt.mp hmaxInlines, Nat.not_lt.mp hmaxBytes⟩⟩
  rw [hblocks, hinlines, hdoubled, htextBytes, hadded, Nat.zero_add]
  rfl

end

/-! ## Buildings -/

namespace Building
variable {σ : Type}

/-- The paragraphs and the lines that were read so far. -/
structure Tracks (slots : Slots) (maxDecodedTextBytes : Nat) (building : Building σ)
    (state : GroupState (List Spot)) : Prop where
  document : building.document.items = state.groups.mapIdx paragraphOf
  paragraph : building.paragraph.items.map Line.content = state.current.map lineOf
  blank : ∀ line ∈ state.current, line ≠ []
  stats : building.stats = statsOf state.groups
  within : building.stats.Within slots maxDecodedTextBytes

variable {runtime : Runtime σ} {slots : Slots} {maxDecodedTextBytes : Nat}
  {building : Building σ} {state : GroupState (List Spot)} {line : Line} {spots : List Spot}

theorem tracks_new (slots : Slots) (maxDecodedTextBytes : Nat) (memory : LogicalMemory σ) :
    Building.Tracks slots maxDecodedTextBytes { memory } {} :=
  ⟨rfl, rfl, List.forall_mem_nil _, rfl, Nat.zero_le _, Nat.zero_le _, Nat.zero_le _⟩

theorem flushParagraph_yields (h : building.Tracks slots maxDecodedTextBytes state) :
    Yields (fun next => next.Tracks slots maxDecodedTextBytes state.flush)
      (building.flushParagraph runtime slots maxDecodedTextBytes) := by
  have hnil : building.paragraph.items = [] ↔ state.current = [] := by
    rw [← @List.map_eq_nil_iff _ _ Line.content, h.paragraph, List.map_eq_nil_iff]
  unfold flushParagraph GroupState.flush
  by_cases hempty : state.current = []
  · rw [if_pos hempty, if_pos (hnil.mpr hempty)]
    exact .ok h
  · rw [if_neg hempty, if_neg (mt hnil.mp hempty)]
    refine (add_yields _ _ _ _).bind fun stats hstats => ?_
    refine (LogicalMemory.reserveVec_yields runtime _ _ _ _).bind fun content _ => ?_
    refine (LogicalMemory.charge_yields runtime _ _).bind fun memory _ => ?_
    refine (LogicalMemory.charge_yields runtime _ _).bind fun memory _ => ?_
    refine (LogicalMemory.reserveVec_yields runtime _ _ _ _).bind fun grown hgrown => ?_
    refine .ok ⟨?_, rfl, List.forall_mem_nil _, ?_, hstats.2⟩
    · dsimp only
      rw [Vec.push_items, hgrown, h.document, List.mapIdx_concat, List.length_mapIdx,
        byteLocator_eq h.paragraph hempty h.blank, paragraphContent_group h.paragraph]
      rfl
    · rw [hstats.1, plusLines_eq _ h.paragraph, h.stats, statsOf, statsOf, List.foldl_append]
      rfl

theorem checkpoint_yields (h : building.Tracks slots maxDecodedTextBytes state) (index : Nat) :
    Yields (fun next => next.Tracks slots maxDecodedTextBytes state) (building.checkpoint runtime index) := by
  unfold checkpoint
  split
  · refine Yields.map (.of_coreOnly (CoreOnly.mapError _) fun _ _ => trivial) fun world _ => ?_
    exact ⟨h.document, h.paragraph, h.blank, h.stats, h.within⟩
  · exact .ok h

/-- A line is a step of the state. -/
theorem pushLine_yields (h : building.Tracks slots maxDecodedTextBytes state) (hline : line.content = lineOf spots) :
    Yields (fun next => next.Tracks slots maxDecodedTextBytes (state.push List.isEmpty spots))
      (building.pushLine runtime slots maxDecodedTextBytes line) := by
  have htext : line.text.items = spots.map Spot.value := congrArg LineText.text hline
  unfold pushLine GroupState.push
  rw [htext]
  cases spots with
  | nil => exact flushParagraph_yields h
  | cons spot more =>
    refine (LogicalMemory.reserveVec_yields runtime _ _ _ _).bind fun grown hgrown => ?_
    refine .ok ⟨h.document, ?_, ?_, h.stats, h.within⟩
    · change (grown.1.push line).items.map Line.content = (state.current ++ [_]).map lineOf
      rw [Vec.push_items, hgrown, List.map_append, List.map_append, h.paragraph,
        List.map_singleton, List.map_singleton, hline]
    · exact List.forall_mem_append.mpr
        ⟨h.blank, List.forall_mem_singleton.mpr (List.cons_ne_nil _ _)⟩

theorem pushLines_yields (h : building.Tracks slots maxDecodedTextBytes state) {lines : List Line}
    {read : List (List Spot)} (hlines : lines.map Line.content = read.map lineOf) (index : Nat) :
    Yields (fun next => next.Tracks slots maxDecodedTextBytes (read.foldl (GroupState.push List.isEmpty) state))
      (pushLines runtime slots maxDecodedTextBytes index lines building) := by
  induction read generalizing building state lines index with
  | nil =>
    rw [List.map_nil, List.map_eq_nil_iff] at hlines
    rw [hlines]
    exact .ok h
  | cons spots read ih =>
    obtain ⟨line, lines, rfl, hline, hrest⟩ := List.map_eq_cons_iff.mp hlines
    rw [List.foldl_cons, pushLines]
    refine (checkpoint_yields h index).bind fun next hnext => ?_
    refine (pushLine_yields hnext hline).bind fun pushed hpushed => ?_
    exact ih hpushed hrest _

end Building

/-- The lines of the paragraphs. -/
def groupedLines (spots : List Spot) : List (List (List Spot)) :=
  groupsOf List.isEmpty (breakLines Spot.value spots)

/-- The document of lines has their paragraphs, within the limits. -/
theorem buildDocument_yields {σ : Type} {runtime : Runtime σ} {slots : Slots}
    {maxDecodedTextBytes : Nat} {lines : List Line} {spots : List Spot}
    (hlines : lines.map Line.content = (breakLines Spot.value spots).map lineOf)
    (memory : LogicalMemory σ) :
    Yields (fun done => done.1 = (groupedLines spots).mapIdx paragraphOf ∧
        (statsOf (groupedLines spots)).Within slots maxDecodedTextBytes)
      (buildDocument runtime slots maxDecodedTextBytes lines memory) := by
  have hnew := Building.tracks_new slots maxDecodedTextBytes memory
  refine (Building.pushLines_yields hnew hlines 0).bind fun building hbuilding => ?_
  refine (Building.flushParagraph_yields hbuilding).bind fun final hfinal => .ok ?_
  have hdocument := hfinal.document
  have hwithin := hfinal.within
  rw [hfinal.stats, groups_foldl] at hwithin
  rw [groups_foldl] at hdocument
  exact ⟨hdocument, hwithin⟩

end IntoMarkdown.Decoding
