import IntoMarkdown.Render.Failures
import IntoMarkdown.Result.Policy

/-! # Visible content is rendered

The two recursions agree: what makes a document visible outside its generated speaker notes
leaves a visible character in the Markdown. -/

namespace IntoMarkdown.Result
open Ir Lib Lib.Strings Render

/-! ## Visible scalars -/

section
variable {text value : Text} {c : Char}

theorem shown_iff :
    markdownHasVisibleContent text = true ↔ ∃ c ∈ text, isVisibleScalar c = true :=
  List.any_eq_true

theorem shown_of_mem (hc : c ∈ text) (hvisible : isVisibleScalar c = true) :
    markdownHasVisibleContent text = true := shown_iff.mpr ⟨c, hc, hvisible⟩

theorem shown_infix (h : markdownHasVisibleContent value = true) (hin : value <:+: text) :
    markdownHasVisibleContent text = true := by
  obtain ⟨c, hc, hvisible⟩ := shown_iff.mp h
  exact shown_of_mem (hin.subset hc) hvisible

@[simp] theorem shown_append (a b : Text) : markdownHasVisibleContent (a ++ b) =
    (markdownHasVisibleContent a || markdownHasVisibleContent b) := List.any_append

@[simp] theorem shown_cons (c : Char) (text : Text) : markdownHasVisibleContent (c :: text) =
    (isVisibleScalar c || markdownHasVisibleContent text) := List.any_cons

@[simp] theorem shown_nil : markdownHasVisibleContent [] = false := rfl

theorem shown_carries (h : markdownHasVisibleContent value = true)
    (hcarries : Carries isVisibleScalar value text) : markdownHasVisibleContent text = true := by
  obtain ⟨c, hc, hvisible⟩ := shown_iff.mp h
  obtain ⟨front, back, rfl⟩ := List.append_of_mem hc
  have hin := hcarries [c] (List.cons_ne_nil c []) (by simp [hvisible])
    ⟨front, back, by rw [List.append_assoc, List.singleton_append]⟩
  exact shown_of_mem (hin.subset List.mem_cons_self) hvisible

theorem not_whitespace_of_visible (h : isVisibleScalar c = true) : isWhitespace c = false := by
  simp only [isVisibleScalar, Bool.and_eq_true, Bool.not_eq_true'] at h
  exact h.1

theorem carries_singleLine (value : Text) : Carries isVisibleScalar value (singleLine value) :=
  ((Carries.replacePair (by decide) (by decide) _ value).trans
    (.replaceChar (by decide) _ _)).trans (.replaceChar (by decide) _ _)

theorem carries_trim (value : Text) : Carries isVisibleScalar value (trim value) :=
  (Carries.dropWhile (fun _ => not_whitespace_of_visible) value).trans
    (.dropWhileEnd (fun _ => not_whitespace_of_visible) _)

/-- A character that is escaped leaves a visible one as well. -/
theorem shown_escapeChar (h : isVisibleScalar c = true) :
    markdownHasVisibleContent (escapeChar c) = true := by
  unfold escapeChar
  split
  · decide
  · split <;> simp [h]

theorem shown_escapeText (h : markdownHasVisibleContent value = true) :
    markdownHasVisibleContent (escapeText value) = true := by
  obtain ⟨c, hc, hvisible⟩ := shown_iff.mp h
  obtain ⟨d, hd, hshown⟩ := shown_iff.mp (shown_escapeChar hvisible)
  exact shown_of_mem (List.mem_flatMap.mpr ⟨c, hc, hd⟩) hshown

end

/-! ## Inlines -/

section
variable {u : Unicode} {context : InlineContext} {value : Text}

theorem shown_renderMarkedText (h : markdownHasVisibleContent value = true)
    (marks : List InlineMark) (previous next : Option Char) :
    markdownHasVisibleContent (renderMarkedText u value marks previous next) = true := by
  have hline := shown_carries h (carries_singleLine value)
  have htrim := shown_carries hline (carries_trim _)
  unfold renderMarkedText
  dsimp only
  split
  · exact shown_escapeText hline
  · simp only [shown_append, Bool.or_eq_true]
    refine .inl (.inl (.inr (shown_escapeText ?_)))
    split
    · exact htrim
    · exact hline

theorem shown_codeSpan : markdownHasVisibleContent (renderCodeSpan value context) = true := by
  have htick : ∀ n, markdownHasVisibleContent (List.replicate (n + 1) '\x60') = true := fun n =>
    shown_of_mem (List.mem_replicate.mpr ⟨n.succ_ne_zero, rfl⟩) (by decide)
  unfold renderCodeSpan
  dsimp only
  split
  · rw [shown_append, shown_append]
    exact Bool.or_eq_true_iff.mpr (.inl (Bool.or_eq_true_iff.mpr (.inl (by decide))))
  · generalize (if context = .tableCell then _ else _) = shielded
    split <;> simp only [shown_append, htick, Bool.or_true]

/-- Whatever is not text is rendered with a visible character, a line break apart. -/
theorem shown_renderInline {inline : Inline} {rendered : Text} (hbreak : inline ≠ .lineBreak)
    (h : renderInline u context inline = .ok rendered) :
    markdownHasVisibleContent rendered = true := by
  have hopen : isVisibleScalar '[' = true := by decide
  have hdollar : isVisibleScalar '$' = true := by decide
  cases inline with
  | text value marks => cases h
  | sourceText value marks provenance => cases h
  | ocrText value marks provenance evidence => cases h
  | code value =>
    obtain rfl := Except.ok.inj h
    exact shown_codeSpan
  | formula value =>
    obtain rfl := Except.ok.inj h
    simp [hdollar]
  | footnoteReference label =>
    obtain rfl := Except.ok.inj h
    simp [hopen]
  | lineBreak => exact absurd rfl hbreak
  | link target content =>
    rw [renderInline] at h
    obtain ⟨_, -, h⟩ := ok_bind h
    obtain ⟨label, -, h⟩ := ok_bind h
    obtain rfl := Except.ok.inj h
    simp [hopen]

theorem inlineIsVisible_text {inline : Inline} {parts : Text × List InlineMark}
    (h : textParts inline = some parts) :
    inlineIsVisible inline = markdownHasVisibleContent parts.1 := by
  cases inline <;> first | (cases h; simp only [inlineIsVisible]) | cases h

def pendingShown (pending : Pending) : Bool :=
  pending.any fun run => markdownHasVisibleContent run.1

theorem shown_flush {output : Text} {pending : Pending} (next : Option Char)
    (h : (markdownHasVisibleContent output || pendingShown pending) = true) :
    markdownHasVisibleContent (flush u output pending next) = true := by
  cases pending with
  | none => exact (Bool.or_false _).symm.trans h
  | some run =>
    rw [flush, shown_append]
    rcases Bool.or_eq_true_iff.mp h with houtput | hrun
    · rw [houtput, Bool.true_or]
    · rw [shown_renderMarkedText hrun, Bool.or_true]

/-- What is visible is in the output, is pending, or comes. -/
theorem shown_renderFrom {inlines : List Inline} {output rendered : Text} {pending : Pending}
    (h : renderFrom u context output pending inlines = .ok rendered)
    (hshown : (markdownHasVisibleContent output || pendingShown pending ||
      inlinesAreVisible inlines) = true) :
    markdownHasVisibleContent rendered = true := by
  induction inlines generalizing output pending with
  | nil =>
    rw [renderFrom] at h
    obtain rfl := Except.ok.inj h
    rw [inlinesAreVisible, Bool.or_false] at hshown
    exact shown_flush none hshown
  | cons inline rest ih =>
    rw [renderFrom] at h
    rw [inlinesAreVisible] at hshown
    cases hparts : textParts inline with
    | some parts =>
      rw [hparts] at h
      rw [inlineIsVisible_text hparts] at hshown
      dsimp only at h
      split at h
      · next hsame =>
        refine ih h ?_
        cases pending with
        | none => cases hsame
        | some run => simpa [pendingShown, Bool.or_assoc] using hshown
      · refine ih h ?_
        by_cases hflush : (markdownHasVisibleContent output || pendingShown pending) = true
        · rw [shown_flush _ hflush]
          simp
        · rw [Bool.eq_false_iff.mpr hflush, Bool.false_or] at hshown
          rw [Bool.or_assoc]
          exact Bool.or_eq_true_iff.mpr (.inr hshown)
    | none =>
      rw [hparts] at h
      obtain ⟨part, hpart, h⟩ := ok_bind h
      refine ih h ?_
      rw [shown_append]
      by_cases hbreak : inline = .lineBreak
      · subst hbreak
        by_cases hflush : (markdownHasVisibleContent output || pendingShown pending) = true
        · rw [shown_flush _ hflush]
          simp
        · rw [Bool.eq_false_iff.mpr hflush, Bool.false_or] at hshown
          exact Bool.or_eq_true_iff.mpr (.inr hshown)
      · rw [shown_renderInline hbreak hpart]
        simp

theorem shown_renderInlines {inlines : List Inline} {rendered : Text}
    (h : renderInlines u inlines context = .ok rendered)
    (hvisible : inlineContent inlines = .visible) :
    markdownHasVisibleContent rendered = true := by
  refine shown_renderFrom h ?_
  by_cases hshown : inlinesAreVisible inlines = true
  · rw [hshown, Bool.or_true]
  · rw [inlineContent, if_neg hshown] at hvisible
    cases hvisible

theorem shown_protectParagraphIndent {rendered : Text}
    (h : markdownHasVisibleContent rendered = true) :
    markdownHasVisibleContent (protectParagraphIndent rendered) = true := by
  unfold protectParagraphIndent
  dsimp only
  split
  · rw [shown_append]
    split <;> exact Bool.or_eq_true_iff.mpr (.inl (by decide))
  · exact h

end

/-! ## Tables -/

section
variable {β : Type} {renderCell renderHtmlCell : CellRenderer β} {rows : List (TableRow β)}

theorem pushStr_text {s next : ExactString} {value : Text} (h : s.pushStr value = .ok next) :
    next.text = s.text ++ value := by
  obtain ⟨-, h⟩ := refuse_bind_ok.mp h
  obtain rfl := Except.ok.inj h
  rfl

theorem writeCells_extends {cells : List Text} {s next : ExactString}
    (h : writeCells cells s = .ok next) : s.text <+: next.text := by
  induction cells generalizing s with
  | nil =>
    obtain rfl := Except.ok.inj h
    exact List.prefix_refl _
  | cons cell cells ih =>
    obtain ⟨first, hfirst, h⟩ := ok_bind h
    obtain ⟨second, hsecond, h⟩ := ok_bind h
    obtain ⟨third, hthird, h⟩ := ok_bind h
    have hrest := ih h
    rw [pushStr_text hthird, pushStr_text hsecond, pushStr_text hfirst] at hrest
    exact (((List.prefix_append _ _).trans (List.prefix_append _ _)).trans
      (List.prefix_append _ _)).trans hrest

theorem writeExactTableRow_extends {cells : List Text} {newline : Bool} {s next : ExactString}
    (h : writeExactTableRow s cells newline = .ok next) : s.text ++ ['|'] <+: next.text := by
  obtain ⟨first, hfirst, h⟩ := ok_bind h
  obtain ⟨second, hsecond, h⟩ := ok_bind h
  have hcells := writeCells_extends hsecond
  rw [pushStr_text hfirst] at hcells
  split at h
  · rw [pushStr_text h]
    exact hcells.trans (List.prefix_append _ _)
  · obtain rfl := Except.ok.inj h
    exact hcells

theorem writeRows_extends {cells : List (List Text)} {s next : ExactString}
    (h : writeRows cells s = .ok next) : s.text <+: next.text := by
  induction cells generalizing s with
  | nil =>
    obtain rfl := Except.ok.inj h
    exact List.prefix_refl _
  | cons row cells ih =>
    obtain ⟨first, hfirst, h⟩ := ok_bind h
    exact ((List.prefix_append _ _).trans (writeExactTableRow_extends hfirst)).trans (ih h)

theorem shown_pipeTable {alignments : List TableAlignment} {shape : Shape}
    {result : Text × TablePlanOwners}
    (h : pipeTable renderCell rows alignments shape = .ok result) :
    markdownHasVisibleContent result.1 = true := by
  obtain ⟨grid, -, h⟩ := ok_bind h
  obtain ⟨first, hfirst, h⟩ := ok_bind h
  obtain ⟨second, hsecond, h⟩ := ok_bind h
  obtain ⟨third, hthird, h⟩ := ok_bind h
  obtain ⟨output, houtput, h⟩ := ok_bind h
  obtain ⟨_, -, h⟩ := ok_bind h
  obtain rfl := Except.ok.inj h
  obtain ⟨-, houtput⟩ := refuse_bind_ok.mp houtput
  obtain rfl := Except.ok.inj houtput
  have hgrows := ((writeExactTableRow_extends hfirst).trans ((List.prefix_append _ _).trans
    (writeExactTableRow_extends hsecond))).trans (writeRows_extends hthird)
  exact shown_infix (show markdownHasVisibleContent ['|'] = true by decide) hgrows.isInfix

theorem shown_htmlTable {shape : Shape} {result : Text × TablePlanOwners}
    (h : renderHtmlTable renderHtmlCell rows shape = .ok result) :
    markdownHasVisibleContent result.1 = true := by
  obtain ⟨r, -, h⟩ := ok_bind h
  obtain ⟨_, -, h⟩ := ok_bind h
  obtain rfl := Except.ok.inj h
  exact shown_infix (show markdownHasVisibleContent "</table>".toList = true by decide)
    (List.suffix_append _ _).isInfix

theorem shown_table {spreadsheetml : Bool} {alignments : List TableAlignment}
    {result : Text × TablePlanOwners}
    (h : renderTableMeasured spreadsheetml renderCell renderHtmlCell rows alignments =
      .ok result) : markdownHasVisibleContent result.1 = true := by
  obtain ⟨shape, -, h⟩ := ok_bind h
  split at h
  · exact shown_htmlTable h
  · exact shown_pipeTable h

end

/-! ## Blocks -/

theorem mergeNonVisible_visible {content other : DocumentContent} :
    (content.mergeNonVisible other).1 = true ↔ other = .visible := by
  cases other <;> simp [DocumentContent.mergeNonVisible]

theorem mergeNonVisible_keeps {content other : DocumentContent} (h : content ≠ .visible) :
    (content.mergeNonVisible other).2 ≠ .visible := by
  cases other <;> simp [DocumentContent.mergeNonVisible, h]

/-- Nodes are visible when one of them is. -/
theorem nodesContent_visible {nodes : List BlockNode} {content : DocumentContent}
    (hcontent : content ≠ .visible) :
    nodesContent content nodes = .visible ↔ ∃ node ∈ nodes, nodeContent node = .visible := by
  induction nodes generalizing content with
  | nil => simp [nodesContent, hcontent]
  | cons node nodes ih =>
    rw [nodesContent]
    by_cases hnode : nodeContent node = .visible
    · simp [mergeNonVisible_visible, hnode]
    · simp [mergeNonVisible_visible, hnode, ih (mergeNonVisible_keeps hcontent)]

section
variable {context : RenderContext} {renderInner : NodesRenderer} {ic : InlineContext}

theorem shown_append_left {a : Text} (h : markdownHasVisibleContent a = true) (b : Text) :
    markdownHasVisibleContent (a ++ b) = true := shown_infix h (List.prefix_append a b).isInfix

theorem shown_append_right {b : Text} (h : markdownHasVisibleContent b = true) (a : Text) :
    markdownHasVisibleContent (a ++ b) = true := shown_infix h (List.suffix_append a b).isInfix

theorem shown_fence (value : Text) (info : Option Text) :
    markdownHasVisibleContent (renderFence value info) = true := by
  have hticks : ∀ n, 0 < n → markdownHasVisibleContent (List.replicate n '\x60') = true := by
    intro n hn
    exact shown_of_mem (List.mem_replicate.mpr ⟨hn.ne', rfl⟩) (by decide)
  exact shown_append_right (hticks _ (lt_max_of_lt_right (by decide))) _

theorem shown_withBody {heading : Text} (h : markdownHasVisibleContent heading = true)
    (body : Text) : markdownHasVisibleContent (withBody heading body) = true := by
  unfold withBody
  split
  · exact h
  · exact shown_append_left (shown_append_left h _) _

theorem shown_listMarker {kind : ListKind} {start : UInt64} {index : Nat} {checked : Option Bool}
    {marker : Text} (h : listMarker kind start index checked = .ok marker) :
    markdownHasVisibleContent marker = true := by
  cases kind with
  | bullet =>
    obtain rfl := Except.ok.inj h
    decide
  | task =>
    obtain rfl := Except.ok.inj h
    split <;> decide
  | ordered =>
    obtain ⟨-, h⟩ := refuse_bind_ok.mp h
    obtain rfl := Except.ok.inj h
    exact shown_append_right (by decide) _

theorem shown_listLine {marker : Text} (h : markdownHasVisibleContent marker = true)
    (kind : ListKind) (html : Bool) (item : ListItem BlockNode) (body : Text) :
    markdownHasVisibleContent (listLine kind html item marker body) = true := by
  unfold listLine
  dsimp only
  split
  · exact shown_append_right (by decide) _
  · split
    · exact h
    · split <;> exact shown_append_left (shown_append_left h _) _

theorem shown_renderList {kind : ListKind} {start : UInt64} {items : List (ListItem BlockNode)}
    {text : Text} (hitems : items ≠ [])
    (h : renderList renderInner ic kind start items = .ok text) :
    markdownHasVisibleContent text = true := by
  rw [renderList, if_neg hitems] at h
  obtain ⟨item, items, rfl⟩ := List.exists_cons_of_ne_nil hitems
  obtain ⟨lines, hlines, h⟩ := ok_bind h
  obtain ⟨marker, hmarker, hlines⟩ := ok_bind hlines
  obtain ⟨body, -, hlines⟩ := ok_bind hlines
  obtain ⟨more, -, hlines⟩ := ok_bind hlines
  obtain rfl := Except.ok.inj hlines
  obtain rfl := Except.ok.inj h
  split
  · exact shown_append_right (by decide) _
  · exact shown_infix (shown_listLine (shown_listMarker hmarker) _ _ _ _)
      (infix_join _ List.mem_cons_self)

theorem shown_renderMergeHtml {value text : Text} (h : renderMergeHtml value = .ok text) :
    markdownHasVisibleContent text = true := by
  obtain ⟨body, -, h⟩ := ok_bind h
  obtain rfl := Except.ok.inj h
  exact shown_append_right (by decide) _

/-- Every container shows something of its own; a paragraph shows its text. -/
theorem shown_renderBlock {node : BlockNode} {text : Text}
    (h : renderBlock context renderInner node ic = .ok text)
    (hvisible : nodeContent node = .visible) : markdownHasVisibleContent text = true := by
  obtain ⟨id, block, provenance⟩ := node
  rw [nodeContent] at hvisible
  cases block with
  | paragraph content =>
    obtain ⟨inner, hinner, rfl⟩ := map_ok h
    rw [blockContent] at hvisible
    exact shown_protectParagraphIndent (shown_renderInlines hinner hvisible)
  | heading level content =>
    obtain ⟨inner, hinner, h⟩ := ok_bind h
    obtain rfl := Except.ok.inj h
    rw [blockContent] at hvisible
    exact shown_append_right (shown_renderInlines hinner hvisible) _
  | list kind start items =>
    rw [blockContent] at hvisible
    refine shown_renderList (fun hnil => ?_) h
    rw [hnil, itemsContent] at hvisible
    cases hvisible
  | table rows alignments =>
    obtain ⟨result, hresult, rfl⟩ := map_ok h
    exact shown_table hresult
  | code language value =>
    rw [renderBlock] at h
    dsimp only [BlockNode.block] at h
    split at h
    · exact shown_renderMergeHtml h
    · obtain rfl := Except.ok.inj h
      exact shown_fence _ _
  | formula value =>
    obtain rfl := Except.ok.inj h
    exact shown_fence _ _
  | footnote label blocks =>
    obtain ⟨body, -, h⟩ := ok_bind h
    obtain rfl := Except.ok.inj h
    have hstart : markdownHasVisibleContent ("[^".toList ++ footnoteLabel label ++ "]:".toList) =
        true := shown_append_right (by decide) _
    split
    · exact hstart
    · exact shown_append_left (shown_append_left hstart _) _
  | image asset alt =>
    rw [blockContent] at hvisible
    cases hvisible
  | page number blocks =>
    obtain ⟨body, -, h⟩ := ok_bind h
    obtain rfl := Except.ok.inj h
    refine shown_withBody (shown_append_left (shown_append_left (shown_append_left
      (shown_append_right (by decide) _) _) _) _) _
  | slide number title blocks =>
    obtain ⟨body, -, h⟩ := ok_bind h
    obtain rfl := Except.ok.inj h
    exact shown_withBody (shown_append_left (shown_append_left (by decide) _) _) _
  | sheet name blocks =>
    obtain ⟨body, -, h⟩ := ok_bind h
    obtain rfl := Except.ok.inj h
    exact shown_withBody (shown_append_left (by decide) _) _
  | timedSegment range speaker speakerConfidence tokens content =>
    obtain ⟨inner, -, h⟩ := ok_bind h
    obtain rfl := Except.ok.inj h
    have htick : markdownHasVisibleContent ['\x60'] = true := by decide
    split
    · exact shown_append_left (shown_append_right htick _) _
    · exact shown_append_left (shown_append_left (shown_append_left
        (shown_append_right htick _) _) _) _
  | rule =>
    obtain rfl := Except.ok.inj h
    decide

end

/-! ## Documents -/

/-- The nodes of a list without its generated speaker notes: their headings and the bodies
right behind. -/
def outsideNotes (inNotes : Bool) : List BlockNode → List BlockNode
  | [] => []
  | node :: rest =>
    if isHeading node then outsideNotes true rest
    else if inNotes && isBody node then outsideNotes true rest
    else node :: outsideNotes false rest

theorem outsideNotes_subset {visible : BlockNode → Bool} {nodes : List BlockNode}
    {inNotes hiddenNotes : Bool} (h : hiddenNotes = true → inNotes = true) :
    outsideNotes inNotes nodes ⊆ shownFrom visible hiddenNotes nodes := by
  induction nodes generalizing inNotes hiddenNotes with
  | nil => exact List.Subset.refl []
  | cons node rest ih =>
    rw [outsideNotes, shownFrom]
    by_cases hheading : isHeading node = true
    · rw [if_pos hheading]
      split
      · exact ih fun _ => rfl
      · split
        · exact ih fun _ => rfl
        · exact List.subset_cons_of_subset _ (ih fun hfalse => absurd hfalse Bool.false_ne_true)
    · rw [if_neg hheading, Bool.eq_false_iff.mpr hheading, Bool.false_and,
        if_neg Bool.false_ne_true]
      by_cases hbody : (inNotes && isBody node) = true
      · rw [if_pos hbody]
        split
        · exact ih fun _ => rfl
        · exact List.subset_cons_of_subset _ (ih fun hfalse => absurd hfalse Bool.false_ne_true)
      · have hhidden : ¬ (hiddenNotes && isBody node) = true := by
          simp only [Bool.and_eq_true, not_and] at hbody ⊢
          exact fun hnotes => hbody (h hnotes)
        rw [if_neg hbody, if_neg hhidden]
        exact List.cons_subset_cons _ (ih id)

/-- The content of a document outside its generated speaker notes. Containers need no look
inside: each shows something of its own. -/
def contentOutsideNotes (document : Document) : DocumentContent :=
  nodesContent .empty (outsideNotes false document.blocks)

theorem shown_renderBlocksIn {context : RenderContext} {levels : Nat} {nodes : List BlockNode}
    {ic : InlineContext} {text : Text} (h : renderBlocksIn context levels nodes ic = .ok text)
    (hvisible : nodesContent .empty (outsideNotes false nodes) = .visible) :
    markdownHasVisibleContent text = true := by
  obtain ⟨node, hnode, hcontent⟩ := (nodesContent_visible (by decide)).mp hvisible
  cases levels with
  | zero =>
    obtain ⟨hnil, -⟩ := refuse_bind_ok.mp h
    rw [not_not.mp hnil] at hnode
    cases hnode
  | succ levels =>
    obtain ⟨parts, hparts, h⟩ := ok_bind h
    obtain rfl := Except.ok.inj h
    obtain ⟨part, hpart, hin⟩ := renderNodes_ok hparts node (outsideNotes_subset id hnode)
    have hshown := shown_renderBlock hpart hcontent
    rcases hin with rfl | ⟨whole, hwhole, hin⟩
    · cases hshown
    · exact shown_infix hshown (hin.trans (infix_join _ hwhole))

/-- A document that is visible outside its speaker notes has visible Markdown. -/
theorem shown_render {u : Unicode} {x : External} {rules : EvidenceRules} {layout : Layout}
    {document : Document} {assets : List Asset} {options : ConversionOptions} {markdown : Text}
    (h : render u x rules layout document assets options = .ok markdown)
    (hvisible : contentOutsideNotes document = .visible) :
    markdownHasVisibleContent markdown = true := by
  obtain ⟨-, h⟩ := refuse_bind_ok.mp h
  obtain ⟨plan, -, h⟩ := ok_bind h
  obtain ⟨output, houtput, h⟩ := ok_bind h
  obtain rfl := Except.ok.inj h
  have hshown := shown_carries (shown_renderBlocksIn houtput hvisible)
    (Carries.dropWhileEnd (q := (· = '\n')) (fun c hc => ?_) output)
  · change markdownHasVisibleContent (trimBlankLines output) = true at hshown
    split
    · next hnil =>
      rw [hnil] at hshown
      cases hshown
    · exact shown_append_left hshown _
  · have hne : c ≠ '\n' := fun heq => by
      rw [heq] at hc
      revert hc
      decide
    simpa using hne

end IntoMarkdown.Result
