import IntoMarkdown.Decoding.Paragraphs

/-! # Conversion of a text

The bytes of a text fix its document. The budget for the bytes of the text, three for each byte of
the source, never refuses anything. -/

namespace IntoMarkdown.Decoding
open Lib Lib.Strings Converters

/-- A document, the diagnostics, and whether the source is known to be empty. -/
structure ConverterOutput where
  document : List ParagraphNode
  diagnostics : List Diagnostic
  sourceIsEmpty : Bool

section
variable {σ : Type} (runtime : Runtime σ) (slots : Slots)

/-- `convert_text` with a budget for the bytes of the text, where a character set and the length of
the byte order mark are selected. -/
def convertWithin (maxInputBytes : Nat) (budget : Nat → Except ConversionError Nat)
    (bytes : List UInt8) (selected : Charset × Nat) (mode : TextDecodingMode)
    (memory : LogicalMemory σ) : Except ConversionError ConverterOutput := do
  let world ← (runtime.checkpoint memory.world).mapError .core
  let size := bytes.length
  refuse (maxInputBytes < size) (documentLimit "max_input_bytes" s!"{size} > {maxInputBytes}")
  let decoded ← decodeMapped runtime slots (bytes.drop selected.2) selected.2 selected.1 mode
    { memory with world }
  if decoded.2 = [] ∧ decoded.1.text.items.all isWhitespace then .ok ⟨[], decoded.2, true⟩
  else do
    let maxDecodedTextBytes ← budget size
    let lines ← decoded.1.intoLines runtime slots
    let document ← buildDocument runtime slots maxDecodedTextBytes lines.1.items lines.2
    .ok ⟨document.1, decoded.2, false⟩

def convertText (maxInputBytes : Nat) (bytes : List UInt8) (selected : Charset × Nat)
    (mode : TextDecodingMode) (memory : LogicalMemory σ) : Except ConversionError ConverterOutput :=
  convertWithin runtime slots maxInputBytes
    (fun size => okOr (checkedMul size 3)
      (documentLimit "max_text_decoded_bytes" "decoded text byte budget overflowed"))
    bytes selected mode memory

end

/-! ## The document of the bytes -/

/-- The output for what is found in the bytes. -/
def outputOf (charset : Charset) (base : Nat) (found : List (Found Char)) : ConverterOutput :=
  let diagnostics :=
    (spansOf (brokenRanges charset.code base found)).map (intoDiagnostic charset)
  if diagnostics = [] ∧ (found.map foundChar).all isWhitespace then ⟨[], diagnostics, true⟩
  else
    ⟨(groupedLines (spotsOf (piecesFrom charset.code base found))).mapIdx paragraphOf, diagnostics,
      false⟩

section
variable {σ : Type} (runtime : Runtime σ) (slots : Slots)

end

/-! ## The budget for the text -/

theorem bind_eq_of_ok {α β : Type} {x : Except ConversionError α}
    {f g : α → Except ConversionError β} (h : ∀ a, x = .ok a → f a = g a) : x >>= f = x >>= g := by
  cases x with
  | error error => rfl
  | ok a => exact h a rfl

/-- The bytes of the paragraphs so far, and of the lines of the next one. -/
def Building.textBytes {σ : Type} (building : Building σ) : Nat :=
  building.stats.textBytes + linesBytes building.paragraph.items

section
variable {σ : Type} {runtime : Runtime σ} {slots : Slots} {limit limit' : Nat}
  {building : Building σ} {lines : List Line} {stats : DocumentStats}

theorem add_budget (hlimit : stats.textBytes + linesBytes lines ≤ limit)
    (hlimit' : stats.textBytes + linesBytes lines ≤ limit') :
    stats.add slots limit lines = stats.add slots limit' lines := by
  unfold DocumentStats.add
  refine bind_eq_of_ok fun blocks _ => bind_eq_of_ok fun _ _ => ?_
  refine bind_eq_of_ok fun doubled _ => bind_eq_of_ok fun inlines _ => bind_eq_of_ok fun _ _ => ?_
  refine bind_eq_of_ok fun added hadded => bind_eq_of_ok fun textBytes htextBytes => ?_
  have hadded := (lineBytes_yields lines 0 _).of_ok hadded
  have htextBytes := (okOr_checkedAdd _ _ _).of_ok htextBytes
  rw [Nat.zero_add] at hadded
  rw [hadded] at htextBytes
  rw [refuse_of_not (Nat.not_lt.mpr (htextBytes ▸ hlimit)),
    refuse_of_not (Nat.not_lt.mpr (htextBytes ▸ hlimit'))]

/-- The bytes of the lines that are read stay within a budget that they are in. -/
theorem flushParagraph_budget (hlimit : building.textBytes ≤ limit)
    (hlimit' : building.textBytes ≤ limit') :
    building.flushParagraph runtime slots limit = building.flushParagraph runtime slots limit' := by
  unfold Building.flushParagraph
  dsimp only
  rw [add_budget hlimit hlimit']

theorem flushParagraph_textBytes :
    Yields (fun next => next.textBytes = building.textBytes)
      (building.flushParagraph runtime slots limit) := by
  unfold Building.flushParagraph
  split
  · exact .ok rfl
  · refine (add_yields _ _ _ _).bind fun stats hstats => ?_
    refine (LogicalMemory.reserveVec_yields runtime _ _ _ _).bind fun content _ => ?_
    refine (LogicalMemory.charge_yields runtime _ _).bind fun memory _ => ?_
    refine (LogicalMemory.charge_yields runtime _ _).bind fun memory _ => ?_
    refine (LogicalMemory.reserveVec_yields runtime _ _ _ _).bind fun grown _ => ?_
    refine .ok ?_
    rw [Building.textBytes, hstats.1]
    rfl

theorem pushLine_textBytes (line : Line) :
    Yields (fun next => next.textBytes = building.textBytes + byteLength line.text.items)
      (building.pushLine runtime slots limit line) := by
  unfold Building.pushLine
  split
  · next hempty =>
    rw [hempty]
    exact flushParagraph_textBytes
  · refine (LogicalMemory.reserveVec_yields runtime _ _ _ _).bind fun grown hgrown => .ok ?_
    rw [Building.textBytes, Vec.push_items, hgrown, linesBytes_append, ← Nat.add_assoc]
    rfl

theorem checkpoint_textBytes (index : Nat) :
    Yields (fun next => next.textBytes = building.textBytes)
      (building.checkpoint runtime index) := by
  unfold Building.checkpoint
  split
  · exact Yields.map (.of_coreOnly (CoreOnly.mapError _) fun _ _ => trivial) fun _ _ => rfl
  · exact .ok rfl

theorem pushLines_budget (lines : List Line) (index : Nat)
    (hlimit : building.textBytes + linesBytes lines ≤ limit)
    (hlimit' : building.textBytes + linesBytes lines ≤ limit') :
    building.pushLines runtime slots limit index lines =
      building.pushLines runtime slots limit' index lines := by
  induction lines generalizing building index with
  | nil => rfl
  | cons line lines ih =>
    rw [Building.pushLines, Building.pushLines]
    refine bind_eq_of_ok fun next hnext => ?_
    have hnext : next.textBytes = building.textBytes := (checkpoint_textBytes index).of_ok hnext
    rw [linesBytes, List.map_cons, List.sum_cons, ← Nat.add_assoc, ← hnext] at hlimit hlimit'
    have hline : next.pushLine runtime slots limit line = next.pushLine runtime slots limit' line := by
      unfold Building.pushLine
      rw [@flushParagraph_budget σ runtime slots limit limit' next (by omega) (by omega)]
    rw [hline]
    refine bind_eq_of_ok fun pushed hpushed => ?_
    have hpushed := (pushLine_textBytes line).of_ok hpushed
    rw [← hpushed] at hlimit hlimit'
    exact ih (index + 1) hlimit hlimit'

theorem pushLines_textBytes (lines : List Line) (index : Nat) :
    Yields (fun next => next.textBytes = building.textBytes + linesBytes lines)
      (building.pushLines runtime slots limit index lines) := by
  induction lines generalizing building index with
  | nil => exact .ok rfl
  | cons line lines ih =>
    rw [linesBytes, List.map_cons, List.sum_cons, ← Nat.add_assoc]
    refine (checkpoint_textBytes index).bind fun next hnext => ?_
    refine (pushLine_textBytes line).bind fun pushed hpushed => ?_
    rw [← hnext, ← hpushed]
    exact ih (index + 1)

theorem buildDocument_budget (memory : LogicalMemory σ) (hlimit : linesBytes lines ≤ limit)
    (hlimit' : linesBytes lines ≤ limit') :
    buildDocument runtime slots limit lines memory =
      buildDocument runtime slots limit' lines memory := by
  have hnew : linesBytes lines =
      Building.textBytes (σ := σ) { memory } + linesBytes lines := (Nat.zero_add _).symm
  rw [buildDocument, buildDocument, pushLines_budget lines 0 (hnew ▸ hlimit) (hnew ▸ hlimit')]
  refine bind_eq_of_ok fun building hbuilding => ?_
  have hbytes := (pushLines_textBytes lines 0).of_ok hbuilding
  rw [← hnew] at hbytes
  rw [flushParagraph_budget (hbytes ▸ hlimit) (hbytes ▸ hlimit')]

end

/-! ## Three bytes for each byte -/

theorem utf8Size_le (charset : Charset) (c : Char) : c.utf8Size ≤ (charset.code c).length * 3 := by
  have hutf16 (order : Utf16.Order) : c.utf8Size ≤ (Utf16.encodeChar order c).length * 3 := by
    have hsize := c.utf8Size_le_four
    have hlength := (Utf16.units_encodeChar order c).two_le
    omega
  cases charset with
  | utf8 =>
    rw [Charset.code, String.length_utf8EncodeChar]
    omega
  | utf16Le => exact hutf16 .little
  | utf16Be => exact hutf16 .big

/-- The text has three bytes at most for each byte that it comes from. -/
theorem byteLength_found {charset : Charset} {bytes : List UInt8} {found : List (Found Char)}
    (h : Decodes charset.code charset.Broken bytes found) :
    byteLength (found.map foundChar) ≤ bytes.length * 3 := by
  induction h with
  | nil => exact Nat.le_refl _
  | good c h ih =>
    have hsize := utf8Size_le charset c
    rw [List.map_cons, byteLength_cons, List.length_append]
    change c.utf8Size + _ ≤ _
    omega
  | @bad piece rest found hbad h ih =>
    have hpos := List.length_pos_iff.mpr (charset.lawful.bad_ne _ _ hbad)
    have hsize : (foundChar (.bad piece.length)).utf8Size = 3 := rfl
    rw [List.map_cons, byteLength_cons, List.length_append, hsize]
    omega

theorem spots_value (code : Char → List UInt8) (found : List (Found Char)) (start : Nat) :
    (spotsOf (piecesFrom code start found)).map Spot.value = found.map foundChar := by
  rw [← piecesFrom_text code found start, spotsOf, List.map_flatMap]
  refine List.flatMap_congr fun piece _ => ?_
  rw [Piece.spots, List.map_map]
  exact List.map_id _

theorem spotBytes_filter_le (keep : Spot → Bool) (spots : List Spot) :
    spotBytes (spots.filter keep) ≤ spotBytes spots := by
  induction spots with
  | nil => exact Nat.le_refl _
  | cons spot spots ih =>
    rw [List.filter_cons]
    split
    · exact Nat.add_le_add_left ih _
    · exact Nat.le_trans ih (Nat.le_add_left _ _)

/-- The lines have no more bytes than the budget. -/
theorem linesBytes_le {charset : Charset} {base : Nat} {bytes : List UInt8}
    {found : List (Found Char)} {lines : List Line}
    (hfound : Decodes charset.code charset.Broken bytes found)
    (hlines : lines.map Line.content =
      (breakLines Spot.value (spotsOf (piecesFrom charset.code base found))).map lineOf) :
    linesBytes lines ≤ bytes.length * 3 := by
  rw [linesBytes_eq hlines, flatten_breakLines]
  refine Nat.le_trans (spotBytes_filter_le _ _) ?_
  rw [spotBytes, spots_value]
  exact byteLength_found hfound

section
variable {σ : Type} (runtime : Runtime σ) (slots : Slots)

end

end IntoMarkdown.Decoding
