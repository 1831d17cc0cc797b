import IntoMarkdown.Lib.Carries
import IntoMarkdown.Render.Blocks
import IntoMarkdown.Render.Output

/-! # Where rendering fails

On a document whose tables tile grids, rendering fails only at a leaf: at a link target, a
list of merges, an image or the number of a list item. -/

namespace IntoMarkdown.Render
open Ir Lib Lib.Strings Lib.Tiling

/-! ## Inlines -/

mutual

def linkTargets : Inline → List Text
  | .link target content => target :: linkTargetsOf content
  | _ => []

def linkTargetsOf : List Inline → List Text
  | [] => []
  | inline :: rest => linkTargets inline ++ linkTargetsOf rest

end

/-- Some link target of the content is refused with this error. -/
def RefusesLink (content : List Inline) (e : RenderError) : Prop :=
  ∃ target ∈ linkTargetsOf content, validateLinkTarget target = .error e

theorem RefusesLink.head {inline : Inline} {rest : List Inline} {e : RenderError}
    (h : ∃ target ∈ linkTargets inline, validateLinkTarget target = .error e) :
    RefusesLink (inline :: rest) e := by
  obtain ⟨target, htarget, h⟩ := h
  exact ⟨target, List.mem_append_left _ htarget, h⟩

theorem RefusesLink.tail {inline : Inline} {rest : List Inline} {e : RenderError}
    (h : RefusesLink rest e) : RefusesLink (inline :: rest) e := by
  obtain ⟨target, htarget, h⟩ := h
  exact ⟨target, List.mem_append_right _ htarget, h⟩

section
variable {u : Unicode} {context : InlineContext} {e : RenderError}

mutual

theorem renderInline_error (inline : Inline) (hparts : textParts inline = none)
    (h : renderInline u context inline = .error e) :
    ∃ target ∈ linkTargets inline, validateLinkTarget target = .error e := by
  match inline with
  | .text _ _ => cases hparts
  | .sourceText _ _ _ => cases hparts
  | .ocrText _ _ _ _ => cases hparts
  | .code _ => cases h
  | .formula _ => cases h
  | .footnoteReference _ => cases h
  | .lineBreak => cases h
  | .link target content =>
    rcases error_bind h with h | ⟨_, -, h⟩
    · exact ⟨target, List.mem_cons_self, h⟩
    · rcases error_bind h with h | ⟨_, -, h⟩
      · obtain ⟨inner, hinner, h⟩ := renderFrom_error content [] none h
        exact ⟨inner, List.mem_cons_of_mem _ hinner, h⟩
      · cases h

theorem renderFrom_error (content : List Inline) (output : Text) (pending : Pending)
    (h : renderFrom u context output pending content = .error e) : RefusesLink content e := by
  match content with
  | [] => cases h
  | inline :: rest =>
    unfold renderFrom at h
    cases hparts : textParts inline with
    | some parts =>
      rw [hparts] at h
      dsimp only at h
      split at h
      · exact .tail (renderFrom_error rest _ _ h)
      · exact .tail (renderFrom_error rest _ _ h)
    | none =>
      rw [hparts] at h
      rcases error_bind h with h | ⟨_, -, h⟩
      · exact .head (renderInline_error inline hparts h)
      · exact .tail (renderFrom_error rest _ _ h)

end

theorem renderInlines_error {content : List Inline}
    (h : renderInlines u content context = .error e) : RefusesLink content e :=
  renderFrom_error content [] none h

mutual

theorem renderHtmlInline_error (inline : Inline) (h : renderHtmlInline inline = .error e) :
    ∃ target ∈ linkTargets inline, validateLinkTarget target = .error e := by
  match inline with
  | .text _ _ => cases h
  | .sourceText _ _ _ => cases h
  | .ocrText _ _ _ _ => cases h
  | .code _ => cases h
  | .formula _ => cases h
  | .footnoteReference _ => cases h
  | .lineBreak => cases h
  | .link target content =>
    rcases error_bind h with h | ⟨_, -, h⟩
    · exact ⟨target, List.mem_cons_self, h⟩
    · rcases error_bind h with h | ⟨_, -, h⟩
      · obtain ⟨inner, hinner, h⟩ := renderHtmlInlines_error content h
        exact ⟨inner, List.mem_cons_of_mem _ hinner, h⟩
      · cases h

theorem renderHtmlInlines_error (content : List Inline)
    (h : renderHtmlInlines content = .error e) : RefusesLink content e := by
  match content with
  | [] => cases h
  | inline :: rest =>
    rcases error_bind h with h | ⟨_, -, h⟩
    · exact .head (renderHtmlInline_error inline h)
    · rcases error_bind h with h | ⟨_, -, h⟩
      · exact .tail (renderHtmlInlines_error rest h)
      · cases h

end

end

/-! ## Rendered nodes -/

/-- The inlines of a block itself. -/
def inlineContent {β : Type} : Block β → List Inline
  | .paragraph content => content
  | .heading _ content => content
  | .timedSegment _ _ _ _ content => content
  | _ => []

/-- A node that a cell in HTML holds without a line of Markdown. -/
def isHtmlNode (node : BlockNode) : Bool :=
  match node.block with
  | .paragraph _ => true
  | .heading _ _ => true
  | .code _ _ => true
  | .formula _ => true
  | _ => false

def htmlLists (cell : Cell BlockNode) : List (List BlockNode) :=
  (cell.blocks.filter fun node => !isHtmlNode node).map fun node => [node]

/-- The lists of nodes that are rendered for a block. -/
def renderedLists (spreadsheetml : Bool) (block : Block BlockNode) : List (List BlockNode) :=
  match block with
  | .table rows _ => rows.flatMap fun row => row.cells.flatMap fun cell =>
      if showsHtml spreadsheetml rows then htmlLists cell else [cell.blocks]
  | block => block.childLists

/-- The nodes of a list without notes that are hidden. -/
def shownFrom (visible : BlockNode → Bool) : Bool → List BlockNode → List BlockNode
  | _, [] => []
  | hiddenNotes, node :: rest =>
    if isHeading node && !(rest.takeWhile isBody).any visible then shownFrom visible true rest
    else if hiddenNotes && isBody node then shownFrom visible true rest
    else node :: shownFrom visible false rest

def shown (assetMode : AssetMode) (levels : Nat) (nodes : List BlockNode) : List BlockNode :=
  shownFrom (fun node => hasVisibleContent assetMode levels [node]) false nodes

/-- Every node that rendering comes to. -/
def renderedNodes (assetMode : AssetMode) (spreadsheetml : Bool) :
    Nat → List BlockNode → List BlockNode
  | 0, _ => []
  | levels + 1, nodes => (shown assetMode (levels + 1) nodes).flatMap fun node =>
      node :: (renderedLists spreadsheetml node.block).flatMap
        (renderedNodes assetMode spreadsheetml levels)

/-- What can be wrong with a node by itself. -/
inductive FailsAt (context : RenderContext) (node : BlockNode) (e : RenderError) : Prop where
  | link (h : RefusesLink (inlineContent node.block) e)
  | htmlLink {rows : List (TableRow BlockNode)} {alignments : List TableAlignment}
      {row : TableRow BlockNode} {cell : Cell BlockNode} {inner : BlockNode}
      (hblock : node.block = .table rows alignments) (hrow : row ∈ rows) (hcell : cell ∈ row.cells)
      (hinner : inner ∈ cell.blocks) (h : RefusesLink (inlineContent inner.block) e)
  | merges {text : Text} (hblock : node.block = .code (some "xlsx-merge-html".toList) text)
      (h : renderMergeHtml text = .error e)
  | image {asset : Text} {alt : Option Text} (hblock : node.block = .image asset alt)
      (h : renderImage context asset alt node.provenance.page = .error e)
  | marker {start : UInt64} {items : List (ListItem BlockNode)} {index : Nat}
      (hblock : node.block = .list .ordered start items) (hindex : index < items.length)
      (hoverflow : 2 ^ 64 ≤ start.toNat + index)
      (he : e = renderError "ordered-list marker overflowed u64")

section
variable {visible : BlockNode → Bool} {renderNode : BlockNode → Except RenderError Text}
  {nodes : List BlockNode} {previousList hiddenNotes : Bool} {e : RenderError}

theorem renderNodes_error
    (h : renderNodes visible renderNode nodes previousList hiddenNotes = .error e) :
    ∃ node ∈ shownFrom visible hiddenNotes nodes, renderNode node = .error e := by
  induction nodes generalizing previousList hiddenNotes with
  | nil => cases h
  | cons node rest ih =>
    rw [renderNodes] at h
    rw [shownFrom]
    split at h
    · rename_i hhidden
      rw [if_pos hhidden]
      exact ih h
    rename_i hshown
    rw [if_neg hshown]
    split at h
    · rename_i hbody
      rw [if_pos hbody]
      exact ih h
    rename_i hbody
    rw [if_neg hbody]
    rcases error_bind h with h | ⟨block, -, h⟩
    · exact ⟨node, List.mem_cons_self, h⟩
    have hrest : ∃ inner ∈ shownFrom visible false rest, renderNode inner = .error e := by
      split at h
      · exact ih h
      · rcases error_bind h with h | ⟨more, -, h⟩
        · exact ih h
        · cases h
    obtain ⟨inner, hinner, h⟩ := hrest
    exact ⟨inner, List.mem_cons_of_mem _ hinner, h⟩

theorem infix_join {part : Text} {parts : List Text} (separator : Text) (h : part ∈ parts) :
    part <:+: join separator parts := by
  have hmem : part ∈ parts.intersperse separator := by
    induction parts with
    | nil => cases h
    | cons first parts ih =>
      cases parts with
      | nil => exact h
      | cons second parts =>
        rw [List.intersperse_cons_cons]
        rcases List.mem_cons.mp h with rfl | h
        · exact List.mem_cons_self
        · exact List.mem_cons_of_mem _ (List.mem_cons_of_mem _ (ih h))
  obtain ⟨front, back, hsplit⟩ := List.append_of_mem hmem
  refine ⟨front.flatten, back.flatten, ?_⟩
  rw [join, hsplit, List.flatten_append, List.flatten_cons, List.append_assoc]

theorem renderNodes_ok {parts : List Text}
    (h : renderNodes visible renderNode nodes previousList hiddenNotes = .ok parts) :
    ∀ node ∈ shownFrom visible hiddenNotes nodes, ∃ text, renderNode node = .ok text ∧
      (text = [] ∨ ∃ part ∈ parts, text <:+: part) := by
  induction nodes generalizing previousList hiddenNotes parts with
  | nil => exact List.forall_mem_nil _
  | cons node rest ih =>
    rw [renderNodes] at h
    rw [shownFrom]
    split at h
    · rename_i hhidden
      rw [if_pos hhidden]
      exact ih h
    rename_i hshown
    rw [if_neg hshown]
    split at h
    · rename_i hbody
      rw [if_pos hbody]
      exact ih h
    rename_i hbody
    rw [if_neg hbody]
    obtain ⟨block, hblock, h⟩ := ok_bind h
    split at h
    · rename_i hempty
      exact List.forall_mem_cons.mpr ⟨⟨block, hblock, .inl hempty⟩, ih h⟩
    obtain ⟨more, hmore, h⟩ := ok_bind h
    obtain rfl := Except.ok.inj h
    refine List.forall_mem_cons.mpr ⟨⟨block, hblock, .inr ⟨_, List.mem_cons_self, ?_⟩⟩, ?_⟩
    · split
      · exact (List.suffix_append _ _).isInfix
      · exact List.infix_refl _
    · intro inner hinner
      obtain ⟨text, htext, hin⟩ := ih hmore inner hinner
      refine ⟨text, htext, hin.imp_right ?_⟩
      rintro ⟨part, hpart, hin⟩
      exact ⟨part, List.mem_cons_of_mem _ hpart, hin⟩

theorem shownFrom_subset (hiddenNotes : Bool) (nodes : List BlockNode) :
    shownFrom visible hiddenNotes nodes ⊆ nodes := by
  induction nodes generalizing hiddenNotes with
  | nil => exact List.Subset.refl _
  | cons node rest ih =>
    rw [shownFrom]
    split
    · exact List.subset_cons_of_subset _ (ih true)
    · split
      · exact List.subset_cons_of_subset _ (ih true)
      · exact List.cons_subset_cons _ (ih false)

end

/-! ## Blocks -/

section
variable {context : RenderContext} {renderInner : NodesRenderer} {ic : InlineContext}
  {e : RenderError} {bound : Nat}

theorem renderItems_error {kind : ListKind} {start : UInt64} {html : Bool} {index : Nat}
    {items : List (ListItem BlockNode)}
    (h : renderItems renderInner ic kind start html index items = .error e) :
    (kind = .ordered ∧ e = renderError "ordered-list marker overflowed u64" ∧
        ∃ k < items.length, 2 ^ 64 ≤ start.toNat + (index + k)) ∨
      ∃ item ∈ items, renderInner item.blocks ic = .error e := by
  induction items generalizing index with
  | nil => cases h
  | cons item items ih =>
    rcases error_bind h with h | ⟨marker, -, h⟩
    · cases kind with
      | bullet => cases h
      | task => cases h
      | ordered =>
        rcases error_bind h with h | ⟨_, -, h⟩
        · obtain ⟨hoverflow, he⟩ := refuse_error h
          exact .inl ⟨rfl, he, 0, Nat.succ_pos _, hoverflow⟩
        · cases h
    rcases error_bind h with h | ⟨body, -, h⟩
    · exact .inr ⟨item, List.mem_cons_self, h⟩
    rcases error_bind h with h | ⟨rest, -, h⟩
    · rcases ih h with ⟨hkind, he, k, hk, hoverflow⟩ | ⟨inner, hinner, h⟩
      · refine .inl ⟨hkind, he, k + 1, Nat.succ_lt_succ hk, ?_⟩
        rwa [Nat.add_right_comm, Nat.add_assoc index] at hoverflow
      · exact .inr ⟨inner, List.mem_cons_of_mem _ hinner, h⟩
    · cases h

theorem renderHtmlNode_error {node : BlockNode}
    (h : renderHtmlNode renderInner node = .error e) :
    RefusesLink (inlineContent node.block) e ∨
      (isHtmlNode node = false ∧ renderInner [node] .tableCell = .error e) := by
  obtain ⟨id, block, provenance⟩ := node
  cases block with
  | paragraph content => exact .inl (renderHtmlInlines_error _ (map_error h))
  | heading level content => exact .inl (renderHtmlInlines_error _ (map_error h))
  | code language text => cases h
  | formula value => cases h
  | _ => exact .inr ⟨rfl, map_error h⟩

theorem renderHtmlNodes_error {nodes : List BlockNode}
    (h : renderHtmlNodes renderInner nodes = .error e) :
    ∃ node ∈ nodes, renderHtmlNode renderInner node = .error e := by
  induction nodes with
  | nil => cases h
  | cons node nodes ih =>
    rcases error_bind h with h | ⟨first, -, h⟩
    · exact ⟨node, List.mem_cons_self, h⟩
    · rcases error_bind h with h | ⟨rest, -, h⟩
      · obtain ⟨inner, hinner, h⟩ := ih h
        exact ⟨inner, List.mem_cons_of_mem _ hinner, h⟩
      · cases h

theorem renderHtmlNodes_ok {nodes : List BlockNode} {r : List Text × Nat}
    (h : renderHtmlNodes renderInner nodes = .ok r) :
    ∀ node ∈ nodes, ∃ value, renderHtmlNode renderInner node = .ok value ∧ value.1 ∈ r.1 := by
  induction nodes generalizing r with
  | nil => exact List.forall_mem_nil _
  | cons node nodes ih =>
    obtain ⟨first, hfirst, h⟩ := ok_bind h
    obtain ⟨rest, hrest, h⟩ := ok_bind h
    obtain rfl := Except.ok.inj h
    refine List.forall_mem_cons.mpr ⟨⟨first, hfirst, List.mem_cons_self⟩, fun inner hinner => ?_⟩
    obtain ⟨value, hvalue, hin⟩ := ih hrest inner hinner
    exact ⟨value, hvalue, List.mem_cons_of_mem _ hin⟩

/-- The lists of a table, one cell after the other. -/
theorem mem_renderedLists_table {spreadsheetml : Bool} {rows : List (TableRow BlockNode)}
    {alignments : List TableAlignment} {children : List BlockNode} :
    children ∈ renderedLists spreadsheetml (.table rows alignments) ↔
      ∃ row ∈ rows, ∃ cell ∈ row.cells,
        children ∈ if showsHtml spreadsheetml rows then htmlLists cell else [cell.blocks] := by
  simp only [renderedLists, List.mem_flatMap]

theorem renderTable_error {node : BlockNode} {rows : List (TableRow BlockNode)}
    {alignments : List TableAlignment} (hblock : node.block = .table rows alignments)
    (htiles : (Block.table rows alignments).TilesWithin bound)
    (hbound : bound ≤ maxTableColumns.toNat)
    (h : renderTable context renderInner rows alignments = .error e) :
    FailsAt context node e ∨
      ∃ children ∈ renderedLists context.usesSpreadsheetmlHtmlTables node.block, ∃ ic,
        renderInner children ic = .error e := by
  obtain ⟨hrows, W, hW, htiled⟩ := htiles
  obtain ⟨final, hrun⟩ := run_iff_tiles.mpr htiled
  obtain ⟨row, hrow, cell, hcell, h⟩ :=
    renderTableMeasured_error hrun hrows (hW.trans hbound) (map_error h)
  have hlists : ∀ children ∈ (if showsHtml context.usesSpreadsheetmlHtmlTables rows then
      htmlLists cell else [cell.blocks]),
      children ∈ renderedLists context.usesSpreadsheetmlHtmlTables node.block := by
    intro children hchildren
    rw [hblock]
    exact mem_renderedLists_table.mpr ⟨row, hrow, cell, hcell, hchildren⟩
  cases hhtml : showsHtml context.usesSpreadsheetmlHtmlTables rows with
  | false =>
    rw [if_neg (Bool.eq_false_iff.mp hhtml)] at h hlists
    rcases error_bind h with h | ⟨_, -, h⟩
    · exact .inr ⟨cell.blocks, hlists _ (List.mem_singleton_self _), .tableCell, h⟩
    · cases h
  | true =>
    rw [if_pos hhtml] at h hlists
    rcases error_bind h with h | ⟨_, -, h⟩
    · obtain ⟨inner, hinner, h⟩ := renderHtmlNodes_error h
      rcases renderHtmlNode_error h with h | ⟨hnode, h⟩
      · exact .inl (.htmlLink hblock hrow hcell hinner h)
      · refine .inr ⟨[inner], hlists _ (List.mem_map.mpr ⟨inner, ?_, rfl⟩), .tableCell, h⟩
        exact List.mem_filter.mpr ⟨hinner, by rw [hnode]; rfl⟩
    · cases h

/-- A block fails by itself, or for a list of nodes that is rendered for it. -/
theorem renderBlock_error {node : BlockNode} (htiles : node.block.TilesWithin bound)
    (hbound : bound ≤ maxTableColumns.toNat)
    (h : renderBlock context renderInner node ic = .error e) :
    FailsAt context node e ∨
      ∃ children ∈ renderedLists context.usesSpreadsheetmlHtmlTables node.block, ∃ ic,
        renderInner children ic = .error e := by
  obtain ⟨id, block, provenance⟩ := node
  cases block with
  | paragraph content => exact .inl (.link (renderInlines_error (map_error h)))
  | heading level content =>
    rcases error_bind h with h | ⟨_, -, h⟩
    · exact .inl (.link (renderInlines_error h))
    · cases h
  | list kind start items =>
    change renderList renderInner ic kind start items = .error e at h
    rw [renderList] at h
    split at h
    · cases h
    rcases error_bind h with h | ⟨_, -, h⟩
    · rcases renderItems_error h with ⟨hkind, he, index, hindex, hoverflow⟩ | ⟨item, hitem, h⟩
      · subst hkind
        rw [Nat.zero_add] at hoverflow
        exact .inl (.marker rfl hindex hoverflow he)
      · exact .inr ⟨item.blocks, List.mem_map_of_mem hitem, ic, h⟩
    · cases h
  | table rows alignments => exact renderTable_error rfl htiles hbound h
  | code language text =>
    change (if language = some "xlsx-merge-html".toList then renderMergeHtml text else _) = _ at h
    split at h
    · rename_i hlanguage
      exact .inl (.merges (congrArg (Block.code · text) hlanguage) h)
    · cases h
  | formula value => cases h
  | footnote label blocks =>
    rcases error_bind h with h | ⟨_, -, h⟩
    · exact .inr ⟨blocks, List.mem_singleton_self _, ic, h⟩
    · cases h
  | image asset alt => exact .inl (.image rfl h)
  | page number blocks =>
    rcases error_bind h with h | ⟨_, -, h⟩
    · exact .inr ⟨blocks, List.mem_singleton_self _, ic, h⟩
    · cases h
  | slide number title blocks =>
    rcases error_bind h with h | ⟨_, -, h⟩
    · exact .inr ⟨blocks, List.mem_singleton_self _, ic, h⟩
    · cases h
  | sheet name blocks =>
    rcases error_bind h with h | ⟨_, -, h⟩
    · exact .inr ⟨blocks, List.mem_singleton_self _, ic, h⟩
    · cases h
  | timedSegment range speaker speakerConfidence tokens content =>
    rcases error_bind h with h | ⟨_, -, h⟩
    · exact .inl (.link (renderInlines_error h))
    · cases h
  | rule => cases h

/-! ## What was rendered -/

/-- The last number of an ordered list is a word. -/
def MarkersFit {β : Type} : Block β → Prop
  | .list .ordered start items => start.toNat + (items.length - 1) < 2 ^ 64
  | _ => True

/-- A character that rewriting leaves in its place, as those of a reference to a footnote. -/
def isPlain (c : Char) : Bool :=
  isAsciiDigit c || (97 ≤ c.toNat && c.toNat ≤ 122) || c ∈ ['[', ']', '^', ':', '-']

theorem not_whitespace_of_plain {c : Char} (h : isPlain c = true) : isWhitespace c = false := by
  have hall : ∀ n : Fin 128, isPlain (Char.ofNat n) = true →
      isWhitespace (Char.ofNat n) = false := by decide +kernel
  have hbound : c.toNat < 128 := by
    simp only [isPlain, isAsciiDigit, Bool.or_eq_true, Bool.and_eq_true, decide_eq_true_eq] at h
    rcases h with (h | h) | h
    · omega
    · omega
    · simp only [List.mem_cons, List.not_mem_nil, or_false] at h
      rcases h with rfl | rfl | rfl | rfl | rfl <;> decide
  have hc := hall ⟨c.toNat, hbound⟩
  rw [Char.ofNat_toNat] at hc
  exact hc h

section
variable {text : Text}

theorem carries_indentContinuation (text : Text) (n : Nat) :
    Carries isPlain text (indentContinuation text n) := .replaceChar (by decide) _ _

theorem carries_escapeHtmlText (text : Text) : Carries isPlain text (escapeHtmlText text) := by
  refine .flatMap (fun c hc => ?_) text
  rw [if_neg, if_neg, if_neg]
  all_goals
    rintro rfl
    exact absurd hc (by decide)

theorem carries_trim (text : Text) : Carries isPlain text (trim text) :=
  (Carries.dropWhile (fun _ => not_whitespace_of_plain) text).trans
    (.dropWhileEnd (fun _ => not_whitespace_of_plain) _)

theorem carries_boldCell (text : Text) : Carries isPlain text (boldCell text) := by
  unfold boldCell
  split
  · exact .refl _
  · split
    · exact (Carries.append_left _ _).trans (.append_right _ _)
    · exact (carries_trim text).trans ((Carries.append_left _ _).trans (.append_right _ _))

theorem carries_withBody (heading body : Text) : Carries isPlain body (withBody heading body) := by
  unfold withBody
  split
  · rename_i hnil
    rw [hnil]
    exact .nil _
  · exact .append_left _ _

theorem carries_listLine (kind : ListKind) (html : Bool) (item : ListItem BlockNode)
    (marker body : Text) : Carries isPlain body (listLine kind html item marker body) := by
  unfold listLine
  dsimp only
  split
  · exact (Carries.append_left _ _).trans (.append_right _ _)
  · split
    · rename_i hnil
      rw [hnil]
      exact .nil _
    · split
      · exact (carries_indentContinuation body _).trans (.append_left _ _)
      · exact ((carries_indentContinuation body _).trans (.append_left _ _)).trans
          (.append_left _ _)

end

theorem renderItems_ok {kind : ListKind} {start : UInt64} {html : Bool} {index : Nat}
    {items : List (ListItem BlockNode)} {lines : List Text}
    (h : renderItems renderInner ic kind start html index items = .ok lines) :
    (∀ item ∈ items, ∃ body, renderInner item.blocks ic = .ok body ∧
      ∃ line ∈ lines, Carries isPlain body line) ∧
      (kind = .ordered → ∀ k < items.length, start.toNat + (index + k) < 2 ^ 64) := by
  induction items generalizing index lines with
  | nil => exact ⟨List.forall_mem_nil _, fun _ k hk => absurd hk (Nat.not_lt_zero k)⟩
  | cons item items ih =>
    obtain ⟨marker, hmarker, h⟩ := ok_bind h
    obtain ⟨body, hbody, h⟩ := ok_bind h
    obtain ⟨rest, hrest, h⟩ := ok_bind h
    obtain rfl := Except.ok.inj h
    obtain ⟨hitems, hmarkers⟩ := ih hrest
    refine ⟨List.forall_mem_cons.mpr ⟨⟨body, hbody, _, List.mem_cons_self,
      carries_listLine _ _ _ _ _⟩, fun inner hinner => ?_⟩, fun hkind k hk => ?_⟩
    · obtain ⟨text, htext, line, hline, hcarries⟩ := hitems inner hinner
      exact ⟨text, htext, line, List.mem_cons_of_mem _ hline, hcarries⟩
    cases k with
    | zero =>
      subst hkind
      exact Nat.lt_of_not_le (refuse_bind_ok.mp hmarker).1
    | succ k =>
      have hnext := hmarkers hkind k (Nat.lt_of_succ_lt_succ hk)
      omega

theorem renderList_ok {kind : ListKind} {start : UInt64} {items : List (ListItem BlockNode)}
    {text : Text} (h : renderList renderInner ic kind start items = .ok text) :
    (∀ item ∈ items, ∃ body, renderInner item.blocks ic = .ok body ∧
      Carries isPlain body text) ∧ MarkersFit (Block.list kind start items) := by
  have hstart := start.toNat_lt
  rw [renderList] at h
  split at h
  · rename_i hnil
    subst hnil
    refine ⟨List.forall_mem_nil _, ?_⟩
    cases kind with
    | ordered => exact hstart
    | bullet => trivial
    | task => trivial
  rename_i hne
  obtain ⟨lines, hlines, h⟩ := ok_bind h
  obtain rfl := Except.ok.inj h
  obtain ⟨hitems, hmarkers⟩ := renderItems_ok hlines
  refine ⟨fun item hitem => ?_, ?_⟩
  · obtain ⟨body, hbody, line, hline, hcarries⟩ := hitems item hitem
    refine ⟨body, hbody, (hcarries.trans (.of_inside (infix_join ['\n'] hline))).trans ?_⟩
    split
    · exact (Carries.append_left _ _).trans (.append_right _ _)
    · exact .refl _
  have hlength := List.length_pos_iff.mpr hne
  cases kind with
  | ordered =>
    have hlast := hmarkers rfl (items.length - 1) (by omega)
    rwa [Nat.zero_add] at hlast
  | bullet => trivial
  | task => trivial

theorem renderCell_ok {cell : Cell BlockNode} {value : Text × Nat}
    (h : renderCell renderInner cell = .ok value) :
    ∃ body, renderInner cell.blocks .tableCell = .ok body ∧ Carries isPlain body value.1 := by
  obtain ⟨body, hbody, h⟩ := ok_bind h
  obtain rfl := Except.ok.inj h
  have hflat : Carries isPlain body (replaceChar '\n' "<br>".toList
      (replacePair '\n' '\n' "<br><br>".toList (normalizeLf body))) :=
    (((Carries.replacePair (by decide) (by decide) _ body).trans
      (.replaceChar (by decide) _ _)).trans (.replacePair (by decide) (by decide) _ _)).trans
      (.replaceChar (by decide) _ _)
  refine ⟨body, hbody, ?_⟩
  have hspanned : Carries isPlain body (if spans cell then
      "<span data-rowspan=\"".toList ++ natText cell.rowSpan.toNat ++
        "\" data-colspan=\"".toList ++ natText cell.columnSpan.toNat ++ "\">".toList ++
        replaceChar '\n' "<br>".toList (replacePair '\n' '\n' "<br><br>".toList
          (normalizeLf body)) ++ "</span>".toList
    else replaceChar '\n' "<br>".toList (replacePair '\n' '\n' "<br><br>".toList
      (normalizeLf body))) := by
    split
    · exact hflat.trans ((Carries.append_left _ _).trans (.append_right _ _))
    · exact hflat
  dsimp only
  split
  · exact hspanned.trans (carries_boldCell _)
  · exact hspanned

theorem renderHtmlCell_ok {cell : Cell BlockNode} {value : Text × Nat}
    (h : renderHtmlCell renderInner cell = .ok value) :
    ∀ inner ∈ cell.blocks, ∃ part, renderHtmlNode renderInner inner = .ok part ∧
      part.1 <:+: value.1 := by
  obtain ⟨r, hnodes, h⟩ := ok_bind h
  obtain rfl := Except.ok.inj h
  intro inner hinner
  obtain ⟨part, hpart, hin⟩ := renderHtmlNodes_ok hnodes inner hinner
  exact ⟨part, hpart, infix_join _ hin⟩

theorem renderHtmlNode_markdown {node : BlockNode} {part : Text × Nat}
    (hnode : isHtmlNode node = false) (h : renderHtmlNode renderInner node = .ok part) :
    ∃ text, renderInner [node] .tableCell = .ok text ∧ Carries isPlain text part.1 := by
  obtain ⟨id, block, provenance⟩ := node
  cases block with
  | paragraph _ => cases hnode
  | heading _ _ => cases hnode
  | code _ _ => cases hnode
  | formula _ => cases hnode
  | _ =>
    obtain ⟨text, htext, rfl⟩ := map_ok h
    exact ⟨text, htext, carries_escapeHtmlText text⟩

theorem renderTable_ok {rows : List (TableRow BlockNode)} {alignments : List TableAlignment}
    {text : Text} (htiles : (Block.table rows alignments).TilesWithin bound)
    (hbound : bound ≤ maxTableColumns.toNat)
    (h : renderTable context renderInner rows alignments = .ok text) :
    ∀ children ∈ renderedLists context.usesSpreadsheetmlHtmlTables (.table rows alignments),
      ∃ ic inner, renderInner children ic = .ok inner ∧ Carries isPlain inner text := by
  obtain ⟨hrows, W, hW, htiled⟩ := htiles
  obtain ⟨final, hrun⟩ := run_iff_tiles.mpr htiled
  obtain ⟨result, hresult, rfl⟩ := map_ok h
  intro children hchildren
  obtain ⟨row, hrow, cell, hcell, hchildren⟩ := mem_renderedLists_table.mp hchildren
  obtain ⟨value, hvalue, hin⟩ :=
    renderTableMeasured_rendered hrun hrows (hW.trans hbound) hresult row hrow cell hcell
  cases hhtml : showsHtml context.usesSpreadsheetmlHtmlTables rows with
  | false =>
    rw [if_neg (Bool.eq_false_iff.mp hhtml)] at hvalue hchildren
    obtain rfl := List.mem_singleton.mp hchildren
    obtain ⟨body, hbody, hcarries⟩ := renderCell_ok hvalue
    exact ⟨.tableCell, body, hbody, hcarries.trans (.of_inside hin)⟩
  | true =>
    rw [if_pos hhtml] at hvalue hchildren
    obtain ⟨inner, hinner, rfl⟩ := List.mem_map.mp hchildren
    obtain ⟨hmem, hnode⟩ := List.mem_filter.mp hinner
    rw [Bool.not_eq_true'] at hnode
    obtain ⟨part, hpart, hpartIn⟩ := renderHtmlCell_ok hvalue inner hmem
    obtain ⟨body, hbody, hcarries⟩ := renderHtmlNode_markdown hnode hpart
    exact ⟨.tableCell, body, hbody, hcarries.trans (.of_inside (hpartIn.trans hin))⟩

theorem renderBlock_ok {node : BlockNode} {text : Text}
    (htiles : node.block.TilesWithin bound) (hbound : bound ≤ maxTableColumns.toNat)
    (h : renderBlock context renderInner node ic = .ok text) :
    MarkersFit node.block ∧
      ∀ children ∈ renderedLists context.usesSpreadsheetmlHtmlTables node.block, ∃ ic inner,
        renderInner children ic = .ok inner ∧ Carries isPlain inner text := by
  obtain ⟨id, block, provenance⟩ := node
  cases block with
  | list kind start items =>
    obtain ⟨hitems, hmarkers⟩ := renderList_ok h
    refine ⟨hmarkers, List.forall_mem_map.mpr fun item hitem => ?_⟩
    obtain ⟨body, hbody, hcarries⟩ := hitems item hitem
    exact ⟨ic, body, hbody, hcarries⟩
  | table rows alignments => exact ⟨trivial, renderTable_ok htiles hbound h⟩
  | footnote label blocks =>
    obtain ⟨body, hbody, h⟩ := ok_bind h
    obtain rfl := Except.ok.inj h
    refine ⟨trivial, List.forall_mem_singleton.mpr ⟨ic, body, hbody, ?_⟩⟩
    split
    · rename_i hnil
      rw [hnil]
      exact .nil _
    · exact (carries_indentContinuation body 4).trans (.append_left _ _)
  | page number blocks =>
    obtain ⟨body, hbody, h⟩ := ok_bind h
    obtain rfl := Except.ok.inj h
    exact ⟨trivial, List.forall_mem_singleton.mpr ⟨ic, body, hbody, carries_withBody _ _⟩⟩
  | slide number title blocks =>
    obtain ⟨body, hbody, h⟩ := ok_bind h
    obtain rfl := Except.ok.inj h
    exact ⟨trivial, List.forall_mem_singleton.mpr ⟨ic, body, hbody, carries_withBody _ _⟩⟩
  | sheet name blocks =>
    obtain ⟨body, hbody, h⟩ := ok_bind h
    obtain rfl := Except.ok.inj h
    exact ⟨trivial, List.forall_mem_singleton.mpr ⟨ic, body, hbody, carries_withBody _ _⟩⟩
  | _ => exact ⟨trivial, List.forall_mem_nil _⟩

end

/-! ## Runs over the levels -/

/-- What is rendered for a node is shaped as its children are. -/
theorem renderedLists_shaped {bound depth : Nat} {spreadsheetml : Bool} {block : Block BlockNode}
    (h : ∀ children ∈ block.childLists, Shaped bound depth children) :
    ∀ children ∈ renderedLists spreadsheetml block, Shaped bound depth children := by
  cases block with
  | table rows alignments =>
    intro children hchildren
    obtain ⟨row, hrow, cell, hcell, hchildren⟩ := mem_renderedLists_table.mp hchildren
    have hblocks : Shaped bound depth cell.blocks :=
      h _ (List.mem_flatMap.mpr ⟨row, hrow, List.mem_map_of_mem hcell⟩)
    split at hchildren
    · obtain ⟨inner, hinner, rfl⟩ := List.mem_map.mp hchildren
      exact hblocks.mono (List.cons_subset.mpr ⟨List.mem_of_mem_filter hinner, List.nil_subset _⟩)
    · obtain rfl := List.mem_singleton.mp hchildren
      exact hblocks
  | _ => exact h

section
variable {context : RenderContext} {levels depth bound : Nat} {nodes : List BlockNode}
  {ic : InlineContext} {e : RenderError}

theorem mem_renderedNodes {assetMode : AssetMode} {spreadsheetml : Bool} {node : BlockNode} :
    node ∈ renderedNodes assetMode spreadsheetml (levels + 1) nodes ↔
      ∃ top ∈ shown assetMode (levels + 1) nodes, node = top ∨
        ∃ children ∈ renderedLists spreadsheetml top.block,
          node ∈ renderedNodes assetMode spreadsheetml levels children := by
  simp only [renderedNodes, List.mem_flatMap, List.mem_cons]

/-- Rendering fails only at a node it comes to. -/
theorem renderBlocksIn_error (hbound : bound ≤ maxTableColumns.toNat) (hlevels : depth ≤ levels)
    (hshaped : Shaped bound depth nodes)
    (h : renderBlocksIn context levels nodes ic = .error e) :
    ∃ node ∈ renderedNodes context.options.assetMode context.usesSpreadsheetmlHtmlTables levels
      nodes, FailsAt context node e := by
  induction levels generalizing depth nodes ic with
  | zero =>
    obtain rfl := Nat.le_zero.mp hlevels
    have hnil : nodes = [] := hshaped
    rcases error_bind h with h | ⟨_, -, h⟩
    · exact absurd hnil (refuse_error h).1
    · cases h
  | succ levels ih =>
    rcases error_bind h with h | ⟨_, -, h⟩
    · obtain ⟨node, hnode, h⟩ := renderNodes_error h
      have hmem := shownFrom_subset _ _ hnode
      cases depth with
      | zero =>
        have hnil : nodes = [] := hshaped
        rw [hnil] at hmem
        cases hmem
      | succ depth =>
        obtain ⟨htiles, hchildren⟩ := hshaped node hmem
        rcases renderBlock_error htiles hbound h with hfails | ⟨children, hlist, ic, h⟩
        · exact ⟨node, mem_renderedNodes.mpr ⟨node, hnode, .inl rfl⟩, hfails⟩
        · obtain ⟨inner, hinner, hfails⟩ := ih (Nat.le_of_succ_le_succ hlevels)
            (renderedLists_shaped hchildren children hlist) h
          exact ⟨inner, mem_renderedNodes.mpr ⟨node, hnode, .inr ⟨children, hlist, hinner⟩⟩, hfails⟩
    · cases h

/-- Every node that rendering comes to was rendered, and is carried by the output. -/
theorem renderBlocksIn_ok (hbound : bound ≤ maxTableColumns.toNat)
    (hshaped : Shaped bound depth nodes) {text : Text}
    (h : renderBlocksIn context levels nodes ic = .ok text) :
    ∀ node ∈ renderedNodes context.options.assetMode context.usesSpreadsheetmlHtmlTables levels
      nodes, MarkersFit node.block ∧ ∃ levels ic part,
        renderBlock context (renderBlocksIn context levels) node ic = .ok part ∧
          Carries isPlain part text := by
  induction levels generalizing depth nodes ic text with
  | zero => exact List.forall_mem_nil _
  | succ levels ih =>
    intro node hnode
    obtain ⟨top, htop, hnode⟩ := mem_renderedNodes.mp hnode
    obtain ⟨parts, hparts, h⟩ := ok_bind h
    obtain rfl := Except.ok.inj h
    obtain ⟨part, hpart, hin⟩ := renderNodes_ok hparts top htop
    have hcarries : Carries isPlain part (join ['\n', '\n'] parts) := by
      rcases hin with rfl | ⟨whole, hwhole, hin⟩
      · exact .nil _
      · exact .of_inside (hin.trans (infix_join _ hwhole))
    have hmem := shownFrom_subset _ _ htop
    cases depth with
    | zero =>
      have hnil : nodes = [] := hshaped
      rw [hnil] at hmem
      cases hmem
    | succ depth =>
      obtain ⟨htiles, hchildren⟩ := hshaped top hmem
      obtain ⟨hfit, hlists⟩ := renderBlock_ok htiles hbound hpart
      rcases hnode with rfl | ⟨children, hlist, hinner⟩
      · exact ⟨hfit, levels, ic, part, hpart, hcarries⟩
      · obtain ⟨inner, text, htext, hinnerCarries⟩ := hlists children hlist
        obtain ⟨hfit, levels, ic, innerPart, hinnerPart, hmore⟩ :=
          ih (renderedLists_shaped hchildren children hlist) htext node hinner
        exact ⟨hfit, levels, ic, innerPart, hinnerPart,
          hmore.trans (hinnerCarries.trans hcarries)⟩

end

/-! ## Errors -/

theorem validateLinkTarget_error {target : Text} {e : RenderError}
    (h : validateLinkTarget target = .error e) : ∃ detail, e = renderError detail := by
  rcases error_bind h with h | ⟨_, -, h⟩
  · exact ⟨_, (refuse_error h).2⟩
  rcases error_bind h with h | ⟨_, -, h⟩
  · exact ⟨_, (refuse_error h).2⟩
  rcases error_bind h with h | ⟨_, -, h⟩
  · exact ⟨_, (refuse_error h).2⟩
  · exact ⟨_, (refuse_error h).2⟩

theorem renderMergeLines_error {rows : List Text} {e : RenderError}
    (h : renderMergeLines rows = .error e) :
    e = renderError "invalid prepared XLSX merge range" ∧
      ∃ row ∈ rows, parseMergeSpan row = none := by
  induction rows with
  | nil => cases h
  | cons row rows ih =>
    rw [renderMergeLines] at h
    cases hspan : parseMergeSpan row with
    | none =>
      rw [hspan] at h
      exact ⟨(Except.error.inj h).symm, row, List.mem_cons_self, hspan⟩
    | some span =>
      rw [hspan] at h
      rcases error_bind h with h | ⟨_, -, h⟩
      · obtain ⟨he, inner, hinner, hnone⟩ := ih h
        exact ⟨he, inner, List.mem_cons_of_mem _ hinner, hnone⟩
      · cases h

theorem renderMergeHtml_error {text : Text} {e : RenderError}
    (h : renderMergeHtml text = .error e) :
    e = renderError "invalid prepared XLSX merge range" ∧
      ∃ row ∈ lines text, parseMergeSpan row = none := by
  rcases error_bind h with h | ⟨_, -, h⟩
  · exact renderMergeLines_error h
  · cases h

theorem imageTarget_error {context : RenderContext} {id : Text} {asset : Asset} {e : RenderError}
    (h : imageTarget context id asset = .error e) : ∃ detail, e = renderError detail := by
  unfold imageTarget at h
  split at h
  · split at h
    · cases h
    · exact ⟨_, (Except.error.inj h).symm⟩
  · split at h
    · cases h
    · split at h
      · cases h
      · exact ⟨_, (Except.error.inj h).symm⟩

theorem renderImage_error {context : RenderContext} {id : Text} {alt : Option Text}
    {page : Option UInt32} {e : RenderError} (h : renderImage context id alt page = .error e) :
    ∃ detail, e = renderError detail := by
  unfold renderImage at h
  dsimp only at h
  split at h
  · cases h
  split at h
  · exact ⟨_, (Except.error.inj h).symm⟩
  rcases error_bind h with h | ⟨target, -, h⟩
  · exact imageTarget_error h
  split at h
  · cases h
  rcases error_bind h with h | ⟨_, -, h⟩
  · exact validateLinkTarget_error h
  · cases h

theorem FailsAt.detail {context : RenderContext} {node : BlockNode} {e : RenderError}
    (h : FailsAt context node e) : ∃ detail, e = renderError detail := by
  cases h with
  | link h =>
    obtain ⟨_, -, h⟩ := h
    exact validateLinkTarget_error h
  | htmlLink _ _ _ _ h =>
    obtain ⟨_, -, h⟩ := h
    exact validateLinkTarget_error h
  | merges _ h => exact ⟨_, (renderMergeHtml_error h).1⟩
  | image _ h => exact renderImage_error h
  | marker _ _ _ he => exact ⟨_, he⟩

/-- No error of a leaf is that of a plan that was exceeded. -/
theorem renderError_ne_exceeded (detail owner : String) (actual bound : Nat) :
    renderError detail ≠ TablePlanOwners.exceeded owner actual bound := by
  intro h
  have htext := congrArg (fun s : String => s.toList.head?) (RenderError.internal.inj h)
  simp [toString] at htext

/-! ## Validated tables -/

/-- What the passes over a table make of it, when its cells are placed so. -/
structure PassesAgree (context : RenderContext) (levels : Nat)
    (rows : List (TableRow BlockNode)) (alignments : List TableAlignment) (W : Nat)
    (placed : List Rect) : Prop where
  places : Places [] (itemsFrom 0 (extents rows)) placed
  tiles : Tiles rows.length W placed
  shape : ∃ shape, tableShape rows = .ok shape ∧ shape.width = W ∧
    (shape.requiresHtml = true ↔
      ∃ row ∈ rows, ∃ cell ∈ row.cells, 1 < cell.rowSpan ∨ 1 < cell.columnSpan)
  grid : ∀ (renderCell : CellRenderer BlockNode) (grid : List (List Text))
    (actual : TablePlanOwners), tableGrid renderCell rows W = .ok (grid, actual) →
      HoldsCells renderCell rows W placed grid
  cells : ∀ (renderCell : CellRenderer BlockNode) (e : RenderError),
    tableGrid renderCell rows W = .error e →
      ∃ row ∈ rows, ∃ cell ∈ row.cells, renderCell cell = .error e
  output : ∀ (owner : String) (actual bound : Nat),
    renderTable context (renderBlocksIn context levels) rows alignments ≠
      .error (TablePlanOwners.exceeded owner actual bound)

section
variable {limits : ValidationLimits} {rules : EvidenceRules} {remaining levels : Nat}
  {rows : List (TableRow BlockNode)} {alignments : List TableAlignment} {path : String}
  {state state' : ValidationState}

theorem any_spans_iff : (rows.any fun row => row.cells.any spans) = true ↔
    ∃ row ∈ rows, ∃ cell ∈ row.cells, 1 < cell.rowSpan ∨ 1 < cell.columnSpan := by
  simp only [List.any_eq_true, spans, Bool.or_eq_true, decide_eq_true_eq]

/-- No accepted table exceeds the plan of its output. -/
theorem renderTable_ne_exceeded (context : RenderContext)
    (hvalid : validateTable limits (validateNodes limits rules remaining) rows alignments path
      state = .ok state')
    (hlimits : limits.maxTableColumns ≤ Ir.maxTableColumns) (hlevels : remaining ≤ levels)
    (owner : String) (actual bound : Nat) :
    renderTable context (renderBlocksIn context levels) rows alignments ≠
      .error (TablePlanOwners.exceeded owner actual bound) := by
  intro herror
  have hbound : limits.maxTableColumns.toNat ≤ Ir.maxTableColumns.toNat :=
    UInt64.le_iff_toNat_le.mp hlimits
  obtain ⟨hrows, hcontents, W, -, hW, htiles, -⟩ := validateTable_ok_iff.mp hvalid
  have hchildren : ∀ children ∈ (Block.table rows alignments).childLists,
      Shaped limits.maxTableColumns.toNat remaining children := by
    intro children hchildren
    obtain ⟨row, hrow, hchildren⟩ := List.mem_flatMap.mp hchildren
    obtain ⟨cell, hcell, rfl⟩ := List.mem_map.mp hchildren
    obtain ⟨p, s, s', hinner⟩ := contentsRows_children hcontents row hrow cell hcell
    exact validateNodes_shaped hinner
  have hnode : (BlockNode.mk [] (.table rows alignments) ⟨[], none, []⟩).block =
      .table rows alignments := rfl
  have hfails : ∃ node, FailsAt context node (TablePlanOwners.exceeded owner actual bound) := by
    rcases renderTable_error hnode ⟨hrows, W, hW, htiles⟩ hbound herror with
      hfails | ⟨children, hlist, ic, hinner⟩
    · exact ⟨_, hfails⟩
    · obtain ⟨node, -, hfails⟩ := renderBlocksIn_error hbound hlevels
        (renderedLists_shaped hchildren children hlist) hinner
      exact ⟨node, hfails⟩
  obtain ⟨node, hfails⟩ := hfails
  obtain ⟨detail, hdetail⟩ := hfails.detail
  exact renderError_ne_exceeded detail owner actual bound hdetail.symm

/-- The passes of the renderer agree with the validator. -/
theorem validated_passes_agree (context : RenderContext)
    (hvalid : validateTable limits (validateNodes limits rules remaining) rows alignments path
      state = .ok state')
    (hlimits : limits.maxTableColumns ≤ Ir.maxTableColumns) (hlevels : remaining ≤ levels) :
    ∃ W last placed, validateRows limits (validateNodes limits rules remaining) path none 0 rows []
        state = .ok (some W, last, state') ∧
      PassesAgree context levels rows alignments W placed := by
  obtain ⟨W, last, hwidth, hmax, htiles⟩ := validateTable_width hvalid
  obtain ⟨final, hrun⟩ := run_iff_tiles.mpr htiles
  obtain ⟨hplaces, hfinal, -⟩ := rowsRun_iff.mp hrun
  have hbound := hmax.trans (UInt64.le_iff_toNat_le.mp hlimits)
  have hlength : (extents rows).length = rows.length := List.length_map _
  exact ⟨W, last, final, hwidth, {
    places := hplaces
    tiles := hlength ▸ hfinal
    shape := ⟨_, tableShape_run hrun (validateTable_ok_iff.mp hvalid).1 hbound, rfl, any_spans_iff⟩
    grid := fun _ _ _ hok => tableGrid_holds hrun hok
    cells := fun _ _ herror => tableGrid_error hrun herror
    output := renderTable_ne_exceeded context hvalid hlimits hlevels }⟩

end

/-! ## Two tables -/

def plainContext : RenderContext :=
  ⟨⟨Char.isAlphanum⟩, ⟨[], .empty⟩, [], .default, []⟩

/-- Two rows under a cell that spans both. -/
def mergedRows : List (TableRow BlockNode) :=
  [⟨[⟨2, 1, false, []⟩,
      ⟨1, 1, true, [.mk "a".toList (.paragraph [.text "x".toList []]) ⟨"docx".toList, none, []⟩]⟩]⟩,
    ⟨[⟨1, 1, false, []⟩]⟩]

theorem merged_passes_agree : ∃ state' W last placed,
    validateRows (.default ⟨1, 1⟩) (validateNodes (.default ⟨1, 1⟩) .plain 3) "$" none 0
        mergedRows [] .new = .ok (some W, last, state') ∧
      PassesAgree plainContext 3 mergedRows [] W placed := by
  have hvalid := isOk_iff.mp (show (validateTable (.default ⟨1, 1⟩)
    (validateNodes (.default ⟨1, 1⟩) .plain 3) mergedRows [] "$" .new).isOk by decide +kernel)
  obtain ⟨state', hvalid⟩ := hvalid
  exact ⟨state', validated_passes_agree plainContext hvalid (by decide) (Nat.le_refl 3)⟩

/-- One cell over more columns than the default limit. -/
def wideRows : List (TableRow BlockNode) := [⟨[⟨1, 16385, false, []⟩]⟩]

def wideLimits : ValidationLimits := { ValidationLimits.default ⟨1, 1⟩ with maxTableColumns := 16385 }

/-- Under wider limits the validator accepts a table that the renderer has no room for. -/
theorem wide_table_refused :
    (∃ state', validateTable wideLimits (validateNodes wideLimits .plain 3) wideRows [] "$"
      .new = .ok state') ∧ ¬ ∃ shape, tableShape wideRows = .ok shape := by
  have htiles : Tiles 1 16385 [⟨0, 0, 1, 16385⟩] := by
    refine ⟨fun r hr c hc => ?_, List.forall_mem_singleton.mpr ⟨by decide, by decide⟩⟩
    rw [coverage_singleton, if_pos]
    simp only [Rect.covers, Nat.zero_le, decide_true, Nat.zero_add, hr, hc, Bool.and_self]
  have hgrid : TilesGrid wideRows 16385 :=
    ⟨⟨_, .next ⟨rfl, fun c hc => absurd hc (Nat.not_lt_zero c)⟩ (.done _), htiles⟩, by decide⟩
  obtain ⟨state', hcontents⟩ := isOk_iff.mp (show (contentsRows wideLimits
    (validateNodes wideLimits .plain 3) "$" 0 wideRows .new).isOk by decide +kernel)
  refine ⟨⟨state', validateTable_ok_iff.mpr ⟨List.cons_ne_nil _ _, hcontents, 16385, by decide,
    by decide, hgrid, .inl rfl⟩⟩, ?_⟩
  rintro ⟨shape, hshape⟩
  cases hshape

end IntoMarkdown.Render
