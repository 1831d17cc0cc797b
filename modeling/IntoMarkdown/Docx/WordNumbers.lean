import IntoMarkdown.Docx.Numbering

/-! # The numbers that lists show

Word keeps one counter for each level of each list over the whole document; the converter has
only the block before. What the converter shows is computed here from the number before. -/

namespace IntoMarkdown.Docx
open Lib Ir
open Lib.Strings (Text)

/-! ## What is shown -/

/-- A paragraph of a list with the number it shows, if the list is ordered. -/
abbrev Entry := List (Block BlockNode) × Option Nat

/-- The start of the list plus the index, for each item. -/
def shownIn : BlockNode → List Entry
  | .mk _ (.list kind start items) _ =>
    items.mapIdx fun index item =>
      (item.blocks.map BlockNode.block, if kind = .ordered then some (start.toNat + index) else none)
  | _ => []

def shown (blocks : List BlockNode) : List Entry := blocks.flatMap shownIn

/-! ## Word's counters -/

abbrev Counters := ListKey → Option Nat

/-- The counter of a level is set, and those of the deeper levels of its list begin anew. -/
def Counters.advance (counters : Counters) (key : ListKey) (number : Nat) : Counters :=
  fun other =>
    if other = key then some number
    else if other.1 = key.1 ∧ key.2 < other.2 then none
    else counters other

def noList : Text := ['0']

section
variable (scan : NumberingScan)

def wordStart (key : ListKey) : Nat := (scan.level key).elim 1 fun level => level.start.toNat

/-- The numbers that Word shows from these counters on. -/
def wordNumbers : Counters → List Paragraph → List Entry
  | _, [] => []
  | counters, p :: rest =>
    match p.key with
    | none => wordNumbers counters rest
    | some key =>
      if key.1 = noList then wordNumbers counters rest
      else
        let number := (counters key).elim (wordStart scan key) (· + 1)
        ([p.block], some number) :: wordNumbers (counters.advance key number) rest

end

/-! ## Unbroken lists -/

/-- Some paragraph before is of this level of this list, and none after it is of a shallower
one. -/
def Continued (before : List Paragraph) (key : ListKey) : Prop :=
  ∃ a q b, before = a ++ q :: b ∧ q.key = some key ∧
    ∀ r ∈ b, ∀ k ∈ r.key, k.1 = key.1 → key.2 ≤ k.2

/-- A paragraph that continues a level comes directly after one of this level, without a
picture; and no paragraph is taken out of its list. -/
structure Unbroken (paragraphs : List Paragraph) : Prop where
  noZero : ∀ p ∈ paragraphs, p.numId ≠ some noList
  adjacent : ∀ before p after key, paragraphs = before ++ p :: after → p.key = some key →
    Continued before key → p.media = [] ∧ ∃ q ∈ before.getLast?, q.key = some key

/-! ## The converter's counter -/

section
variable (numbering : List (ListKey × Numbering))

/-- The number of a paragraph, by the list and the number directly before. -/
def nextNumber (prev : Option (ListKey × Nat)) (p : Paragraph) (key : ListKey) : Nat :=
  match prev with
  | some (before, number) =>
    if p.media = [] ∧ before = key then number + 1 else (descriptorOf numbering key).start.toNat
  | none => (descriptorOf numbering key).start.toNat

def entryOf (p : Paragraph) (key : ListKey) (number : Nat) : Entry :=
  ([p.block], if (descriptorOf numbering key).kind = .ordered then some number else none)

def convertedNumbers : Option (ListKey × Nat) → List Paragraph → List Entry
  | _, [] => []
  | prev, p :: rest =>
    match p.key with
    | none => convertedNumbers none rest
    | some key =>
      let number := nextNumber numbering prev p key
      entryOf numbering p key number :: convertedNumbers (some (key, number)) rest

/-- The list at the end of the blocks, with the number of its last item. -/
structure Stand (state : ParseState) (prev : Option (ListKey × Nat)) : Prop where
  lastKey : state.lastListKey = prev.map Prod.fst
  last : ∀ key number, prev = some (key, number) → ∃ front id start items provenance,
    state.blocks = front ++
      [.mk id (.list (descriptorOf numbering key).kind start items) provenance] ∧
    start.toNat + items.length = number + 1

end

section
variable {numbering : List (ListKey × Numbering)} {layout : Layout} {part : Text}
  {state next : ParseState} {prev : Option (ListKey × Nat)} {p : Paragraph}

theorem node_ok {block : Block BlockNode} {r : BlockNode × ParseState}
    (h : state.node layout part block = .ok r) :
    r.1.block = block ∧ r.2.blocks = state.blocks ∧ r.2.lastListKey = state.lastListKey := by
  obtain ⟨-, h⟩ := refuse_bind_ok.mp h
  obtain ⟨-, h⟩ := refuse_bind_ok.mp h
  obtain rfl := Except.ok.inj h
  exact ⟨rfl, rfl, rfl⟩

theorem addInlines_ok {count : Nat} (h : state.addInlines layout count = .ok next) :
    next.blocks = state.blocks ∧ next.lastListKey = state.lastListKey := by
  obtain ⟨-, h⟩ := refuse_bind_ok.mp h
  obtain ⟨-, h⟩ := refuse_bind_ok.mp h
  obtain rfl := Except.ok.inj h
  exact ⟨rfl, rfl⟩

def IsList (node : BlockNode) : Prop :=
  ∃ kind start items, node.block = .list kind start items

theorem shownIn_eq_nil {node : BlockNode} (h : ¬ IsList node) : shownIn node = [] := by
  obtain ⟨id, block, provenance⟩ := node
  cases block <;> first | rfl | exact absurd ⟨_, _, _, rfl⟩ h

theorem pushItem_eq_none {node : BlockNode} (h : ¬ IsList node) (kind : ListKind)
    (item : ListItem BlockNode) : pushItem kind item node = none := by
  obtain ⟨id, block, provenance⟩ := node
  cases block <;> first | rfl | exact absurd ⟨_, _, _, rfl⟩ h

theorem media_not_list (media : Media) {node : BlockNode} (h : node.block = media.block) :
    ¬ IsList node := by
  rintro ⟨kind, start, items, hlist⟩
  cases media <;> rw [h] at hlist <;> cases hlist

/-- The blocks of the pictures come after those before. -/
theorem pushMedia_run {media : List Media}
    (h : media.foldlM (pushMedia layout part) state = .ok next) :
    ∃ nodes, next.blocks = state.blocks ++ nodes ∧ next.lastListKey = state.lastListKey ∧
      nodes.length = media.length ∧ ∀ node ∈ nodes, ¬ IsList node := by
  induction media generalizing state with
  | nil =>
    obtain rfl := Except.ok.inj h
    exact ⟨[], (List.append_nil _).symm, rfl, rfl, by simp⟩
  | cons picture media ih =>
    rw [List.foldlM_cons] at h
    obtain ⟨middle, hpush, hrest⟩ := ok_bind h
    obtain ⟨counted, hcounted, hpush⟩ := ok_bind hpush
    obtain ⟨⟨node, after⟩, hnode, hpush⟩ := ok_bind hpush
    obtain rfl := Except.ok.inj hpush
    obtain ⟨hblocks, hkey⟩ := addInlines_ok hcounted
    obtain ⟨hblock, hafter, hafterKey⟩ := node_ok hnode
    obtain ⟨nodes, hnodes, hlast, hlength, hnone⟩ := ih hrest
    refine ⟨node :: nodes, ?_, ?_, ?_, ?_⟩
    · rw [hnodes]
      dsimp only at hafter ⊢
      rw [hafter, hblocks, List.append_assoc, List.singleton_append]
    · rw [hlast]
      exact hafterKey.trans hkey
    · rw [List.length_cons, List.length_cons, hlength]
    · exact List.forall_mem_cons.mpr ⟨media_not_list picture hblock, hnone⟩

theorem shown_append (a b : List BlockNode) : shown (a ++ b) = shown a ++ shown b :=
  List.flatMap_append

theorem shown_not_list {nodes : List BlockNode} (h : ∀ node ∈ nodes, ¬ IsList node) :
    shown nodes = [] :=
  List.flatMap_eq_nil_iff.mpr fun node hnode => shownIn_eq_nil (h node hnode)

theorem finish_unnumbered (h : finishParagraph layout part numbering state p = .ok next)
    (hkey : p.key = none) :
    Stand numbering next none ∧ shown next.blocks = shown state.blocks := by
  obtain ⟨pictured, hmedia, h⟩ := ok_bind h
  obtain ⟨counted, hcounted, h⟩ := ok_bind h
  obtain ⟨⟨node, after⟩, hnode, h⟩ := ok_bind h
  simp only [hkey] at h
  obtain rfl := Except.ok.inj h
  obtain ⟨nodes, hnodes, -, -, hnone⟩ := pushMedia_run hmedia
  obtain ⟨hblocks, -⟩ := addInlines_ok hcounted
  obtain ⟨hblock, hafter, -⟩ := node_ok hnode
  have hnot : ¬ IsList node := by
    rintro ⟨kind, start, items, hlist⟩
    rw [show node.block = p.block from hblock, Paragraph.block] at hlist
    split at hlist <;> cases hlist
  have hall : after.blocks = state.blocks ++ nodes := hafter.trans (hblocks.trans hnodes)
  refine ⟨⟨rfl, fun key number hprev => by cases hprev⟩, ?_⟩
  dsimp only
  split
  · rw [hall, shown_append, shown_not_list hnone, List.append_nil]
  · rw [hall, shown_append, shown_append, shown_not_list hnone,
      shown_not_list (List.forall_mem_singleton.mpr hnot), List.append_nil, List.append_nil]

/-- What the last block becomes with the item, if it can take it. -/
def grownLast (numbering : List (ListKey × Numbering)) (state : ParseState) (key : ListKey)
    (item : ListItem BlockNode) : Option BlockNode :=
  if state.lastListKey = some key then
    state.blocks.getLast?.bind (pushItem (descriptorOf numbering key).kind item) else none

theorem grownLast_none {nodes : List BlockNode} {key : ListKey} {before : ParseState}
    (hstand : Stand numbering before prev) (hblocks : state.blocks = before.blocks ++ nodes)
    (hlast : state.lastListKey = before.lastListKey) (hlength : nodes.length = p.media.length)
    (hnone : ∀ node ∈ nodes, ¬ IsList node)
    (hprev : ∀ number, prev = some (key, number) → p.media ≠ []) (item : ListItem BlockNode) :
    grownLast numbering state key item = none := by
  rw [grownLast, hlast, hstand.lastKey]
  split
  · rename_i hkey
    obtain ⟨⟨key', number⟩, hprev', rfl⟩ := Option.map_eq_some_iff.mp hkey
    have hne : nodes ≠ [] := by
      intro hnil
      rw [hnil] at hlength
      exact hprev number hprev' (List.length_eq_zero_iff.mp hlength.symm)
    rw [hblocks, List.getLast?_append_of_ne_nil _ hne, List.getLast?_eq_some_getLast hne,
      Option.bind_some]
    exact pushItem_eq_none (hnone _ (List.getLast_mem hne)) _ _
  · rfl

theorem finish_numbered {key : ListKey}
    (h : finishParagraph layout part numbering state p = .ok next)
    (hstand : Stand numbering state prev) (hkey : p.key = some key) :
    Stand numbering next (some (key, nextNumber numbering prev p key)) ∧
      shown next.blocks =
        shown state.blocks ++ [entryOf numbering p key (nextNumber numbering prev p key)] := by
  obtain ⟨pictured, hmedia, h⟩ := ok_bind h
  obtain ⟨counted, hcounted, h⟩ := ok_bind h
  obtain ⟨⟨node, after⟩, hnode, h⟩ := ok_bind h
  simp only [hkey] at h
  obtain ⟨nodes, hnodes, hpictured, hlength, hnone⟩ := pushMedia_run hmedia
  obtain ⟨hblocks, hcountedKey⟩ := addInlines_ok hcounted
  obtain ⟨hblock, hafter, hafterKey⟩ := node_ok hnode
  have hall : after.blocks = state.blocks ++ nodes := hafter.trans (hblocks.trans hnodes)
  have hlast : after.lastListKey = state.lastListKey :=
    hafterKey.trans (hcountedKey.trans hpictured)
  by_cases hadjacent : p.media = [] ∧ ∃ number, prev = some (key, number)
  · obtain ⟨hmediaNil, number, rfl⟩ := hadjacent
    obtain ⟨front, id, start, items, provenance, hfront, hnumber⟩ := hstand.last key number rfl
    have hnil : nodes = [] := List.length_eq_zero_iff.mp (hlength.trans (by rw [hmediaNil]; rfl))
    rw [hnil, List.append_nil, hfront] at hall
    have hgrown : (if after.lastListKey = some key then
        after.blocks.getLast?.bind (pushItem (descriptorOf numbering key).kind ⟨none, [node]⟩)
        else none) = some (.mk id (.list (descriptorOf numbering key).kind start
          (items ++ [⟨none, [node]⟩])) provenance) := by
      have hheld : after.lastListKey = some key := hlast.trans hstand.lastKey
      rw [if_pos hheld, hall, List.getLast?_concat, Option.bind_some,
        pushItem, if_pos rfl]
    have hnext : nextNumber numbering (some (key, number)) p key = number + 1 :=
      if_pos ⟨hmediaNil, rfl⟩
    simp only [hgrown] at h
    obtain rfl := Except.ok.inj h
    rw [hnext]
    refine ⟨⟨rfl, fun key' number' heq => ?_⟩, ?_⟩
    · obtain ⟨rfl, rfl⟩ := Prod.mk.inj (Option.some.inj heq)
      refine ⟨front, id, start, items ++ [⟨none, [node]⟩], provenance, ?_, ?_⟩
      · dsimp only
        rw [hall, List.dropLast_concat]
      · rw [List.length_append, List.length_singleton]
        omega
    · dsimp only
      rw [hall, hfront, List.dropLast_concat, shown_append, shown_append, List.append_assoc]
      refine congrArg (shown front ++ ·) ?_
      simp only [shown, List.flatMap_singleton, shownIn, List.mapIdx_concat, hnumber, entryOf,
        List.map_singleton, show node.block = p.block from hblock]
  · have hprev : ∀ number, prev = some (key, number) → p.media ≠ [] := fun number heq hnil =>
      hadjacent ⟨hnil, number, heq⟩
    have hgrown := grownLast_none hstand hall hlast hlength hnone hprev ⟨none, [node]⟩
    rw [grownLast] at hgrown
    simp only [hgrown] at h
    obtain ⟨⟨list, final⟩, hlist, h⟩ := ok_bind h
    obtain rfl := Except.ok.inj h
    obtain ⟨hlistBlock, hfinal, -⟩ := node_ok hlist
    have hnext : nextNumber numbering prev p key = (descriptorOf numbering key).start.toNat := by
      unfold nextNumber
      split
      · rename_i before number
        exact if_neg fun hboth => hprev number (by rw [hboth.2]) hboth.1
      · rfl
    rw [hnext]
    obtain ⟨id, block, provenance⟩ := list
    obtain rfl : block = _ := hlistBlock
    dsimp only at hfinal
    refine ⟨⟨rfl, fun key' number' heq => ?_⟩, ?_⟩
    · obtain ⟨rfl, rfl⟩ := Prod.mk.inj (Option.some.inj heq)
      exact ⟨final.blocks, id, _, _, provenance, rfl, rfl⟩
    · dsimp only
      rw [hfinal, hall, shown_append, shown_append, shown_not_list hnone, List.append_nil]
      refine congrArg (shown state.blocks ++ ·) ?_
      simp only [shown, List.flatMap_singleton, shownIn, List.mapIdx_cons, List.mapIdx_nil,
        entryOf, List.map_singleton, show node.block = p.block from hblock, Nat.add_zero]

/-- The numbers that the converted paragraphs show. -/
theorem finishParagraphs_shown {paragraphs : List Paragraph}
    (h : paragraphs.foldlM (finishParagraph layout part numbering) state = .ok next)
    (hstand : Stand numbering state prev) :
    shown next.blocks = shown state.blocks ++ convertedNumbers numbering prev paragraphs := by
  induction paragraphs generalizing state prev with
  | nil =>
    obtain rfl := Except.ok.inj h
    exact (List.append_nil _).symm
  | cons p paragraphs ih =>
    rw [List.foldlM_cons] at h
    obtain ⟨middle, hp, hrest⟩ := ok_bind h
    cases hkey : p.key with
    | none =>
      obtain ⟨hmiddle, hshown⟩ := finish_unnumbered hp hkey
      rw [ih hrest hmiddle, hshown, convertedNumbers, hkey]
    | some key =>
      obtain ⟨hmiddle, hshown⟩ := finish_numbered hp hstand hkey
      rw [ih hrest hmiddle, hshown, convertedNumbers, hkey, List.append_assoc,
        List.singleton_append]

end

end IntoMarkdown.Docx
