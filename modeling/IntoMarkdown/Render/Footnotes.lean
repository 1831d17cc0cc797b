import IntoMarkdown.Render.Total

/-! # Footnotes

References and definitions of footnotes meet by their labels. Inlines in Markdown and
definitions write a label in hexadecimal, inlines of a table in HTML write it as it is. -/

namespace IntoMarkdown.Render
open Ir Lib Lib.Strings

/-! ## Labels -/

def hexPair (byte : UInt8) : Text :=
  [hexDigit (byte >>> 4) false, hexDigit (byte &&& 0x0f) false]

def unhex (c : Char) : Nat := if c.toNat < 58 then c.toNat - 48 else c.toNat - 87

theorem unhex_hexPair (byte : UInt8) :
    unhex (hexDigit (byte >>> 4) false) * 16 + unhex (hexDigit (byte &&& 0x0f) false) =
      byte.toNat := by
  have hall : ∀ n : Fin 256, unhex (hexDigit (UInt8.ofNat n >>> 4) false) * 16 +
      unhex (hexDigit (UInt8.ofNat n &&& 0x0f) false) = n := by decide +kernel
  have h := hall ⟨byte.toNat, byte.toNat_lt⟩
  rwa [UInt8.ofNat_toNat] at h

theorem hexPairs_injective {a b : List UInt8} (h : a.flatMap hexPair = b.flatMap hexPair) :
    a = b := by
  induction a generalizing b with
  | nil =>
    cases b with
    | nil => rfl
    | cons byte b => cases h
  | cons byte a ih =>
    cases b with
    | nil => cases h
    | cons byte' b =>
      rw [List.flatMap_cons, List.flatMap_cons] at h
      obtain ⟨hhigh, h⟩ := List.cons.inj h
      obtain ⟨hlow, h⟩ := List.cons.inj h
      have hbyte := unhex_hexPair byte
      rw [hhigh, hlow, unhex_hexPair] at hbyte
      rw [ih h, UInt8.toNat_inj.mp hbyte]

theorem encode_injective {a b : Text} (h : Utf8.encode a = Utf8.encode b) : a = b := by
  have ha := Utf8.decode_encode a
  rw [h, Utf8.decode_encode] at ha
  exact (Option.some.inj ha).symm

/-- No two labels are written alike. -/
theorem footnoteLabel_injective : Function.Injective footnoteLabel := fun _ _ h =>
  encode_injective (hexPairs_injective (List.append_cancel_left h))

theorem footnoteLabel_plain (label : Text) : (footnoteLabel label).all isPlain = true := by
  have hall : ∀ n : Fin 256, (hexPair (UInt8.ofNat n)).all isPlain = true := by decide +kernel
  have hbyte : ∀ byte : UInt8, (hexPair byte).all isPlain = true := by
    intro byte
    have h := hall ⟨byte.toNat, byte.toNat_lt⟩
    rwa [UInt8.ofNat_toNat] at h
  have hstart : "fn-".toList.all isPlain = true := by decide
  rw [footnoteLabel, List.all_append, hstart, Bool.true_and, List.all_flatMap]
  exact List.all_eq_true.mpr fun byte _ => hbyte byte

theorem length_footnoteLabel (label : Text) : label.length < (footnoteLabel label).length := by
  have hpairs : ∀ bytes : List UInt8, bytes.length ≤ (bytes.flatMap hexPair).length := by
    intro bytes
    induction bytes with
    | nil => exact Nat.le_refl _
    | cons byte bytes ih =>
      rw [List.flatMap_cons, List.length_append, List.length_cons]
      have hpair : (hexPair byte).length = 2 := rfl
      omega
  have hencode : label.length ≤ (Utf8.encode label).length := by
    induction label with
    | nil => exact Nat.le_refl _
    | cons c label ih =>
      have hchar : 0 < (String.utf8EncodeChar c).length := by
        rw [String.length_utf8EncodeChar]
        exact Char.utf8Size_pos c
      rw [Utf8.encode, List.flatMap_cons, List.length_append, List.length_cons]
      rw [Utf8.encode] at ih
      omega
  have hstart : "fn-".toList.length = 3 := rfl
  have hlabel : (footnoteLabel label).length =
      3 + ((Utf8.encode label).flatMap hexPair).length := by
    rw [footnoteLabel, List.length_append, hstart]
    rfl
  have hle := hpairs (Utf8.encode label)
  omega

/-- A label as it is in HTML is never the label of its definition. -/
theorem escapeHtmlText_ne_footnoteLabel (label : Text) :
    escapeHtmlText label ≠ footnoteLabel label := by
  intro h
  have hplain : ∀ c ∈ label, c ≠ '&' ∧ c ≠ '<' ∧ c ≠ '>' := by
    intro c hc
    by_contra hspecial
    have hamp : '&' ∈ escapeHtmlText label := by
      refine List.mem_flatMap.mpr ⟨c, hc, ?_⟩
      simp only [not_and_or, not_not] at hspecial
      rcases hspecial with rfl | rfl | rfl <;> decide
    rw [h] at hamp
    exact absurd (List.all_eq_true.mp (footnoteLabel_plain label) '&' hamp) (by decide)
  have hsame : escapeHtmlText label = label := by
    have hsingle : escapeHtmlText label = label.flatMap fun c => [c] :=
      List.flatMap_congr fun c hc => by
        obtain ⟨hamp, hlt, hgt⟩ := hplain c hc
        rw [if_neg hamp, if_neg hlt, if_neg hgt]
    rw [hsingle, List.flatMap_singleton']
  have hlength := length_footnoteLabel label
  rw [← h, hsame] at hlength
  exact Nat.lt_irrefl _ hlength

/-! ## References -/

def footnoteReference (label : Text) : Text := "[^".toList ++ footnoteLabel label ++ [']']

def footnoteDefinition (label : Text) : Text := "[^".toList ++ footnoteLabel label ++ "]:".toList

mutual

/-- The labels of the references in an inline. -/
def footnoteLabels : Inline → List Text
  | .footnoteReference label => [label]
  | .link _ content => footnoteLabelsOf content
  | _ => []

def footnoteLabelsOf : List Inline → List Text
  | [] => []
  | inline :: rest => footnoteLabels inline ++ footnoteLabelsOf rest

end

section
variable {u : Unicode} {ic : InlineContext}

theorem flush_starts (output : Text) (pending : Pending) (next : Option Char) :
    output <+: flush u output pending next := by
  unfold flush
  split
  · exact List.prefix_refl _
  · exact List.prefix_append _ _

mutual

theorem renderInline_ok {text : Text} (inline : Inline)
    (h : renderInline u ic inline = .ok text) :
    ∀ label ∈ footnoteLabels inline, footnoteReference label <:+: text := by
  match inline with
  | .text _ _ => exact List.forall_mem_nil _
  | .sourceText _ _ _ => exact List.forall_mem_nil _
  | .ocrText _ _ _ _ => exact List.forall_mem_nil _
  | .code _ => exact List.forall_mem_nil _
  | .formula _ => exact List.forall_mem_nil _
  | .lineBreak => exact List.forall_mem_nil _
  | .footnoteReference label =>
    obtain rfl := Except.ok.inj h
    exact List.forall_mem_singleton.mpr (List.infix_refl _)
  | .link target content =>
    obtain ⟨_, -, h⟩ := ok_bind h
    obtain ⟨label, hlabel, h⟩ := ok_bind h
    obtain rfl := Except.ok.inj h
    intro label hin
    refine ((renderFrom_ok content [] none hlabel).2 label hin).trans ?_
    exact (List.suffix_append _ _).isInfix.trans
      ((List.prefix_append _ _).trans ((List.prefix_append _ _).trans
        (List.prefix_append _ _))).isInfix

theorem renderFrom_ok {text : Text} (content : List Inline) (output : Text) (pending : Pending)
    (h : renderFrom u ic output pending content = .ok text) : output <+: text ∧
      ∀ label ∈ footnoteLabelsOf content, footnoteReference label <:+: text := by
  match content with
  | [] =>
    obtain rfl := Except.ok.inj h
    exact ⟨flush_starts _ _ _, List.forall_mem_nil _⟩
  | inline :: rest =>
    unfold renderFrom at h
    cases hparts : textParts inline with
    | some parts =>
      have hnone : footnoteLabels inline = [] := by
        cases inline with
        | footnoteReference label => cases hparts
        | link target content => cases hparts
        | _ => rfl
      rw [hparts] at h
      rw [footnoteLabelsOf, hnone, List.nil_append]
      dsimp only at h
      split at h
      · exact renderFrom_ok rest _ _ h
      · obtain ⟨hstarts, hlabels⟩ := renderFrom_ok rest _ _ h
        exact ⟨(flush_starts _ _ _).trans hstarts, hlabels⟩
    | none =>
      rw [hparts] at h
      obtain ⟨rendered, hrendered, h⟩ := ok_bind h
      obtain ⟨hstarts, hlabels⟩ := renderFrom_ok rest _ _ h
      refine ⟨(flush_starts _ _ _).trans ((List.prefix_append _ _).trans hstarts), ?_⟩
      intro label hin
      rcases List.mem_append.mp hin with hin | hin
      · exact (renderInline_ok inline hrendered label hin).trans
          ((List.suffix_append _ _).isInfix.trans hstarts.isInfix)
      · exact hlabels label hin

end

theorem renderInlines_ok {content : List Inline} {text : Text}
    (h : renderInlines u content ic = .ok text) :
    ∀ label ∈ footnoteLabelsOf content, footnoteReference label <:+: text :=
  (renderFrom_ok content [] none h).2

theorem carries_protectParagraphIndent (text : Text) :
    Carries isPlain text (protectParagraphIndent text) := by
  unfold protectParagraphIndent
  dsimp only
  split
  · rename_i hindent
    cases text with
    | nil => exact .nil _
    | cons c text =>
      have hspace : c = ' ' ∨ c = '\t' := by
        by_contra hne
        have hlead : ((c :: text).takeWhile fun c => c = ' ' || c = '\t') = [] :=
          List.takeWhile_cons_of_neg (by simpa using hne)
        rw [hlead] at hindent
        rcases hindent.2 with hin | hlen
        · cases hin
        · exact absurd hlen (by decide)
      refine (Carries.tail ?_ text).trans (.append_left _ _)
      rcases hspace with rfl | rfl <;> decide
  · exact .refl _

theorem infix_of_carries {a b : Text} (h : Carries isPlain a b) {label : Text} :
    (footnoteReference label <:+: a → footnoteReference label <:+: b) ∧
      (footnoteDefinition label <:+: a → footnoteDefinition label <:+: b) := by
  have hreference : (footnoteReference label).all isPlain = true := by
    rw [footnoteReference, List.all_append, List.all_append, footnoteLabel_plain]
    decide
  have hdefinition : (footnoteDefinition label).all isPlain = true := by
    rw [footnoteDefinition, List.all_append, List.all_append, footnoteLabel_plain]
    decide
  exact ⟨h _ (List.cons_ne_nil _ _) hreference, h _ (List.cons_ne_nil _ _) hdefinition⟩

/-- A block has its references and its definition in its text. -/
theorem renderBlock_footnotes {context : RenderContext} {renderInner : NodesRenderer}
    {node : BlockNode} {text : Text} (h : renderBlock context renderInner node ic = .ok text) :
    (∀ label ∈ footnoteLabelsOf (inlineContent node.block), footnoteReference label <:+: text) ∧
      ∀ label blocks, node.block = .footnote label blocks → footnoteDefinition label <:+: text := by
  obtain ⟨id, block, provenance⟩ := node
  cases block with
  | paragraph content =>
    obtain ⟨rendered, hrendered, rfl⟩ := map_ok h
    refine ⟨fun label hlabel => ?_, fun _ _ hblock => nomatch hblock⟩
    exact (infix_of_carries (carries_protectParagraphIndent rendered)).1
      (renderInlines_ok hrendered label hlabel)
  | heading level content =>
    obtain ⟨rendered, hrendered, h⟩ := ok_bind h
    obtain rfl := Except.ok.inj h
    refine ⟨fun label hlabel => ?_, fun _ _ hblock => nomatch hblock⟩
    exact (renderInlines_ok hrendered label hlabel).trans (List.suffix_append _ _).isInfix
  | timedSegment range speaker speakerConfidence tokens content =>
    obtain ⟨rendered, hrendered, h⟩ := ok_bind h
    obtain rfl := Except.ok.inj h
    refine ⟨fun label hlabel => ?_, fun _ _ hblock => nomatch hblock⟩
    have hin := renderInlines_ok hrendered label hlabel
    split
    · rename_i hnil
      rw [hnil] at hin
      exact absurd (List.infix_nil.mp hin) (List.cons_ne_nil _ _)
    · exact hin.trans (List.suffix_append _ _).isInfix
  | footnote label blocks =>
    obtain ⟨body, -, h⟩ := ok_bind h
    obtain rfl := Except.ok.inj h
    refine ⟨List.forall_mem_nil _, fun label' blocks' hblock => ?_⟩
    obtain ⟨rfl, -⟩ := Block.footnote.inj hblock
    split
    · exact List.infix_refl _
    · exact ((List.prefix_append _ _).trans (List.prefix_append _ _)).isInfix
  | _ => exact ⟨List.forall_mem_nil _, fun _ _ hblock => nomatch hblock⟩

end

/-! ## Agreement -/

/-- Where an inline is rendered. -/
inductive ReferencePath where
  | markdown (context : InlineContext)
  | html

/-- What a reference is written as. -/
def renderReference (u : Unicode) (label : Text) : ReferencePath → Except RenderError Text
  | .markdown context => renderInline u context (.footnoteReference label)
  | .html => renderHtmlInline (.footnoteReference label)

/-- Some reference is rendered as an inline of a cell in HTML. -/
def HtmlReference (options : ConversionOptions) (document : Document) (label : Text) : Prop :=
  ∃ node ∈ renderedDocumentNodes options document, ∃ rows alignments,
    node.block = .table rows alignments ∧ showsHtml (usesHtmlTables document) rows = true ∧
      ∃ row ∈ rows, ∃ cell ∈ row.cells, ∃ inner ∈ cell.blocks, isHtmlNode inner = true ∧
        label ∈ footnoteLabelsOf (inlineContent inner.block)

/-- Some reference is rendered as an inline of a block in Markdown. -/
def MarkdownReference (options : ConversionOptions) (document : Document) (label : Text) : Prop :=
  ∃ node ∈ renderedDocumentNodes options document,
    label ∈ footnoteLabelsOf (inlineContent node.block)

/-- The references of a document, each with the way it is rendered. -/
inductive References (options : ConversionOptions) (document : Document) (label : Text) :
    ReferencePath → Prop where
  | markdown (context : InlineContext) (h : MarkdownReference options document label) :
      References options document label (.markdown context)
  | html (h : HtmlReference options document label) : References options document label .html

/-- The definitions of a document. -/
def Defines (options : ConversionOptions) (document : Document) (label : Text) : Prop :=
  ∃ node ∈ renderedDocumentNodes options document, ∃ blocks,
    node.block = .footnote label blocks

/-- References are written with the names of their definitions, and distinct labels have
distinct names. -/
structure FootnotesAgree (u : Unicode) (options : ConversionOptions) (document : Document)
    (text : Text) : Prop where
  references : ∀ label path emitted, References options document label path →
    renderReference u label path = .ok emitted →
      emitted = footnoteReference label ∧ emitted <:+: text
  definitions : ∀ label, Defines options document label → footnoteDefinition label <:+: text
  distinct : Function.Injective footnoteLabel

section
variable {u : Unicode} {x : External} {rules : EvidenceRules} {layout : Layout}
  {document : Document} {assets : List Asset} {options : ConversionOptions} {text : Text}

theorem carries_trimBlankLines (text : Text) :
    Carries isPlain text (trimBlankLines text) := by
  refine .dropWhileEnd (fun c hc => ?_) text
  refine decide_eq_false fun heq => ?_
  rw [heq] at hc
  exact absurd hc (by decide)

/-- What a rendered document has of each of its rendered nodes. -/
theorem render_carries (h : render u x rules layout document assets options = .ok text) :
    ∀ node ∈ renderedDocumentNodes options document, ∃ context levels ic part,
      renderBlock context (renderBlocksIn context levels) node ic = .ok part ∧
        Carries isPlain part text := by
  obtain ⟨-, h⟩ := refuse_bind_ok.mp h
  obtain ⟨plan, hplan, h⟩ := ok_bind h
  obtain ⟨output, houtput, h⟩ := ok_bind h
  obtain rfl := Except.ok.inj h
  have hshaped := validate_shaped (validateDocument_ok (Plannable.of_ok hplan).valid)
  intro node hnode
  obtain ⟨-, levels, ic, part, hpart, hcarries⟩ :=
    renderBlocksIn_ok (Nat.le_refl _) hshaped houtput node hnode
  refine ⟨_, levels, ic, part, hpart, hcarries.trans ((carries_trimBlankLines output).trans ?_)⟩
  split
  · rename_i hnil
    rw [hnil]
  · exact .append_right _ _

end

/-! ## A note in a merged cell -/

def noteParagraph (id : String) (content : List Inline) : BlockNode :=
  .mk id.toList (.paragraph content) ⟨"xls".toList, none, []⟩

/-- A table with one cell over two columns that refers to a note, and the note. -/
def mergedNote (encoding : String) : Document where
  schemaVersion := 1
  properties := [("spreadsheet.encoding".toList, encoding.toList)]
  blocks := [
    .mk "table".toList (.table [⟨[⟨1, 2, false, [noteParagraph "cell"
      [.text "x".toList [], .footnoteReference "n".toList]]⟩]⟩] []) ⟨"xls".toList, none, []⟩,
    .mk "note".toList (.footnote "n".toList [noteParagraph "body" [.text "y".toList []]])
      ⟨"xls".toList, none, []⟩]

end IntoMarkdown.Render
