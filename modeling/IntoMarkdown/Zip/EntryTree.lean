import IntoMarkdown.Zip.EntryNames

/-! # The tree of accepted paths

The index of a policy holds the paths of the accepted entries and the paths they descend
through, each under its key. What one more entry needs of the index, and what the entries
need of each other, whatever their order. -/

namespace IntoMarkdown.Zip
open Lib Strings Paths Converters

abbrev Path := List Text

abbrev Index := Text → Option PathEntry

section
variable (unicode : Unicode)

/-- The key of a path. -/
def keyOf (path : Path) : Text := joined '/' (path.map (aliasKey unicode))

/-- What stands under the key of a path is that path, and it may be visited. -/
def Allowed (kind : EntryKind) (last : Bool) (path : Path) (existing : Option PathEntry) : Prop :=
  ∀ e ∈ existing, e.original = joined '/' path ∧
    if last then e.kind = none ∧ kind = .directory else e.kind ≠ some .file

/-- What stands under the key of a path after the visit. -/
def visited (kind : EntryKind) (last : Bool) (path : Path) (existing : Option PathEntry) :
    PathEntry :=
  ⟨joined '/' path, if last then some kind else existing.bind (·.kind)⟩

/-- The visits of the components that remain, after those that are done. -/
def indexFrom (kind : EntryKind) : Path → Path → Index → Index
  | _, [], index => index
  | done, component :: rest, index =>
    let path := done ++ [component]
    indexFrom kind path rest (Function.update index (keyOf unicode path)
      (some (visited kind rest.isEmpty path (index (keyOf unicode path)))))

def AllowedFrom (kind : EntryKind) : Path → Path → Index → Prop
  | _, [], _ => True
  | done, component :: rest, index =>
    let path := done ++ [component]
    Allowed kind rest.isEmpty path (index (keyOf unicode path)) ∧
      AllowedFrom kind path rest (Function.update index (keyOf unicode path)
        (some (visited kind rest.isEmpty path (index (keyOf unicode path)))))

/-- The index can name its memory for a path. -/
def Fits (path : Path) : Prop :=
  byteLength (keyOf unicode path) + byteLength (joined '/' path) + 256 < usizeModulus

end

section
variable {unicode : Unicode}

/-- A path and one below it have different keys. -/
theorem keyOf_ne {path more : Path} (hpath : path ≠ []) (hmore : more ≠ []) :
    keyOf unicode (path ++ more) ≠ keyOf unicode path := by
  intro heq
  have hlt : (joined '/' (path.map (aliasKey unicode))).length <
      (joined '/' (path.map (aliasKey unicode) ++ more.map (aliasKey unicode))).length :=
    length_joined_lt (by simpa using hpath) (by simpa using hmore)
  rw [← List.map_append] at hlt
  exact absurd (congrArg List.length heq) (Nat.ne_of_gt hlt)

variable {kind : EntryKind} {done rest : Path} {index : Index}

/-- The visits leave alone what is under other keys. -/
theorem indexFrom_other {key : Text}
    (h : ∀ more, more ≠ [] → more <+: rest → keyOf unicode (done ++ more) ≠ key) :
    indexFrom unicode kind done rest index key = index key := by
  induction rest generalizing done index with
  | nil => rfl
  | cons component rest ih =>
    have hfirst : keyOf unicode (done ++ [component]) ≠ key :=
      h [component] (List.cons_ne_nil _ _) (List.prefix_iff_eq_append.mpr rfl)
    rw [indexFrom, ih, Function.update_of_ne hfirst.symm]
    intro more _ hmore
    rw [List.append_assoc]
    exact h (component :: more) (List.cons_ne_nil _ _) (List.cons_prefix_cons.mpr ⟨rfl, hmore⟩)

theorem indexFrom_visited {more : Path} (hmore : more ≠ []) (hstarts : more <+: rest) :
    indexFrom unicode kind done rest index (keyOf unicode (done ++ more)) =
      some (visited kind (decide (more = rest)) (done ++ more)
        (index (keyOf unicode (done ++ more)))) := by
  induction rest generalizing done index more with
  | nil => exact absurd (List.prefix_nil.mp hstarts) hmore
  | cons component rest ih =>
    obtain ⟨first, more, rfl⟩ := List.exists_cons_of_ne_nil hmore
    obtain ⟨rfl, htail⟩ := List.cons_prefix_cons.mp hstarts
    rw [indexFrom]
    by_cases hnil : more = []
    · subst hnil
      rw [indexFrom_other, Function.update_self]
      · cases rest <;> simp
      · intro more hmore _
        exact keyOf_ne (by simp) hmore
    · have hassoc : done ++ first :: more = done ++ [first] ++ more := by simp
      rw [hassoc, ih hnil htail, Function.update_of_ne (keyOf_ne (by simp) hnil)]
      simp

theorem allowedFrom_iff : AllowedFrom unicode kind done rest index ↔
    ∀ more, more ≠ [] → more <+: rest → Allowed kind (decide (more = rest)) (done ++ more)
      (index (keyOf unicode (done ++ more))) := by
  induction rest generalizing done index with
  | nil =>
    refine iff_of_true trivial fun more hmore hstarts => ?_
    exact absurd (List.prefix_nil.mp hstarts) hmore
  | cons component rest ih =>
    rw [AllowedFrom, ih]
    constructor
    · rintro ⟨hfirst, hrest⟩ more hmore hstarts
      obtain ⟨first, more, rfl⟩ := List.exists_cons_of_ne_nil hmore
      obtain ⟨rfl, htail⟩ := List.cons_prefix_cons.mp hstarts
      by_cases hnil : more = []
      · subst hnil
        rw [show decide ([first] = first :: rest) = rest.isEmpty by cases rest <;> simp]
        exact hfirst
      · have hallowed := hrest more hnil htail
        rw [Function.update_of_ne (keyOf_ne (by simp) hnil)] at hallowed
        simpa using hallowed
    · intro h
      constructor
      · have hfirst := h [component] (List.cons_ne_nil _ _)
          (List.cons_prefix_cons.mpr ⟨rfl, List.nil_prefix⟩)
        rwa [show decide ([component] = component :: rest) = rest.isEmpty by
          cases rest <;> simp] at hfirst
      · intro more hmore hstarts
        rw [Function.update_of_ne (keyOf_ne (by simp) hmore)]
        have hallowed := h (component :: more) (List.cons_ne_nil _ _)
          (List.cons_prefix_cons.mpr ⟨rfl, hstarts⟩)
        simpa using hallowed

end

/-! ## The condition on the entries -/

/-- A path with the kind it is declared with. -/
abbrev Node := Path × EntryKind

section
variable (unicode : Unicode)

/-- An unambiguous tree of paths. -/
structure Tree (nodes : List Node) : Prop where
  /-- Paths with equal keys, implied ones too, are equal. -/
  unambiguous : ∀ a ∈ nodes, ∀ b ∈ nodes, ∀ p q, p ≠ [] → q ≠ [] → p <+: a.1 → q <+: b.1 →
    keyOf unicode p = keyOf unicode q → p = q
  once : (nodes.map (·.1)).Nodup
  file : ∀ a ∈ nodes, ∀ b ∈ nodes, a.2 = .file → a.1 <+: b.1 → a.1 = b.1

/-- The kind that a path is declared with, if it is. -/
def declared (nodes : List Node) (path : Path) : Option EntryKind :=
  (nodes.find? fun node => node.1 = path).map (·.2)

/-- The index holds the paths of the nodes and those they descend through. -/
structure Indexed (nodes : List Node) (index : Index) : Prop where
  sound : ∀ key e, index key = some e → ∃ node ∈ nodes, ∃ p, p ≠ [] ∧ p <+: node.1 ∧
    key = keyOf unicode p
  complete : ∀ node ∈ nodes, ∀ p, p ≠ [] → p <+: node.1 →
    index (keyOf unicode p) = some ⟨joined '/' p, declared nodes p⟩

/-- A path as the names have it: no component has a slash. -/
def Split (path : Path) : Prop := ∀ component ∈ path, '/' ∉ component

end

section
variable {unicode : Unicode} {nodes : List Node}

theorem Tree.perm {nodes' : List Node} (h : Tree unicode nodes) (hperm : nodes.Perm nodes') :
    Tree unicode nodes' where
  unambiguous a ha b hb := h.unambiguous a (hperm.mem_iff.mpr ha) b (hperm.mem_iff.mpr hb)
  once := ((hperm.map _).nodup_iff).mp h.once
  file a ha b hb := h.file a (hperm.mem_iff.mpr ha) b (hperm.mem_iff.mpr hb)

theorem Tree.of_append {more : List Node} (h : Tree unicode (nodes ++ more)) :
    Tree unicode nodes where
  unambiguous a ha b hb :=
    h.unambiguous a (List.mem_append_left _ ha) b (List.mem_append_left _ hb)
  once := by
    have honce := h.once
    rw [List.map_append] at honce
    exact (List.nodup_append.mp honce).1
  file a ha b hb := h.file a (List.mem_append_left _ ha) b (List.mem_append_left _ hb)

theorem Indexed.empty : Indexed unicode [] fun _ => none where
  sound _ _ h := nomatch h
  complete := List.forall_mem_nil _

theorem declared_append (node : Node) (path : Path) :
    declared (nodes ++ [node]) path =
      (declared nodes path).or (if node.1 = path then some node.2 else none) := by
  unfold declared
  rw [List.find?_append]
  cases nodes.find? fun node => node.1 = path with
  | some found => rfl
  | none =>
    by_cases h : node.1 = path <;> simp [List.find?, h]

theorem declared_eq_none {path : Path} (h : ∀ node ∈ nodes, node.1 ≠ path) :
    declared nodes path = none := by
  unfold declared
  rw [List.find?_eq_none.mpr (by simpa using h)]
  rfl

theorem declared_of_mem (honce : (nodes.map (·.1)).Nodup) {node : Node} (h : node ∈ nodes) :
    declared nodes node.1 = some node.2 := by
  induction nodes with
  | nil => cases h
  | cons first rest ih =>
    rw [List.map_cons, List.nodup_cons] at honce
    unfold declared
    rcases List.mem_cons.mp h with rfl | h
    · simp
    · have hne : first.1 ≠ node.1 := fun heq =>
        honce.1 (heq ▸ List.mem_map_of_mem h)
      rw [List.find?_cons_of_neg (by simpa using hne)]
      exact ih honce.2 h

theorem mem_of_declared {path : Path} {kind : EntryKind} (h : declared nodes path = some kind) :
    (path, kind) ∈ nodes := by
  obtain ⟨node, hfind, rfl⟩ := Option.map_eq_some_iff.mp h
  have hpath : node.1 = path := by simpa using List.find?_some hfind
  rw [← hpath]
  exact List.mem_of_find?_eq_some hfind

theorem Split.of_start {path p : Path} (h : Split path) (hp : p <+: path) : Split p :=
  fun component hc => h component (hp.subset hc)

/-- Along one path, keys tell the paths apart. -/
theorem keyOf_injective_of_start {path p q : Path} (hp : p <+: path) (hq : q <+: path)
    (hpne : p ≠ []) (hqne : q ≠ []) (h : keyOf unicode p = keyOf unicode q) : p = q := by
  rcases List.prefix_or_prefix_of_prefix hp hq with ⟨more, rfl⟩ | ⟨more, rfl⟩
  · by_cases hmore : more = []
    · rw [hmore, List.append_nil]
    · exact absurd h.symm (keyOf_ne hpne hmore)
  · by_cases hmore : more = []
    · rw [hmore, List.append_nil]
    · exact absurd h (keyOf_ne hqne hmore)

variable {index : Index} {node : Node}

/-- Well-formed paths: some component, and no slash in one. -/
def Paths (nodes : List Node) : Prop := ∀ node ∈ nodes, node.1 ≠ [] ∧ Split node.1

theorem allowedFrom_start : AllowedFrom unicode node.2 [] node.1 index ↔
    ∀ p, p ≠ [] → p <+: node.1 →
      Allowed node.2 (decide (p = node.1)) p (index (keyOf unicode p)) :=
  allowedFrom_iff

/-- What the index allows keeps the tree. -/
theorem tree_of_allowed (hindexed : Indexed unicode nodes index) (htree : Tree unicode nodes)
    (hpaths : Paths nodes) (hnode : node.1 ≠ [] ∧ Split node.1)
    (hallowed : AllowedFrom unicode node.2 [] node.1 index) :
    Tree unicode (nodes ++ [node]) := by
  have hallowed := allowedFrom_start.mp hallowed
  have hmixed : ∀ a ∈ nodes, ∀ p q, p ≠ [] → q ≠ [] → p <+: a.1 → q <+: node.1 →
      keyOf unicode p = keyOf unicode q → p = q := fun a ha p q hpne hqne hp hq hkey => by
    have hentry := hindexed.complete a ha p hpne hp
    rw [hkey] at hentry
    obtain ⟨horiginal, _⟩ := hallowed q hqne hq _ hentry
    exact joined_injective hpne hqne ((hpaths a ha).2.of_start hp) (hnode.2.of_start hq)
      horiginal
  have hlast : ∀ b ∈ nodes, node.1 <+: b.1 →
      declared nodes node.1 = none ∧ node.2 = .directory := fun b hb hstarts => by
    have hvisit := (hallowed node.1 hnode.1 List.prefix_rfl _
      (hindexed.complete b hb node.1 hnode.1 hstarts)).2
    rwa [decide_eq_true rfl, if_pos rfl] at hvisit
  refine ⟨fun a ha b hb p q hpne hqne hp hq hkey => ?_, ?_, fun a ha b hb hfile hstarts => ?_⟩
  · rcases List.mem_append.mp ha with ha' | ha' <;> rcases List.mem_append.mp hb with hb' | hb'
    · exact htree.unambiguous a ha' b hb' p q hpne hqne hp hq hkey
    · obtain rfl := List.mem_singleton.mp hb'
      exact hmixed a ha' p q hpne hqne hp hq hkey
    · obtain rfl := List.mem_singleton.mp ha'
      exact (hmixed b hb' q p hqne hpne hq hp hkey.symm).symm
    · obtain rfl := List.mem_singleton.mp ha'
      obtain rfl := List.mem_singleton.mp hb'
      exact keyOf_injective_of_start hp hq hpne hqne hkey
  · rw [List.map_append, List.nodup_append]
    refine ⟨htree.once, List.nodup_singleton _, fun path hpath path' hpath' heq => ?_⟩
    obtain rfl := List.mem_singleton.mp hpath'
    obtain ⟨b, hb, hpath⟩ := List.mem_map.mp hpath
    have hsame : b.1 = node.1 := hpath.trans heq
    have hnone := (hlast b hb (hsame ▸ List.prefix_rfl)).1
    rw [← hsame, declared_of_mem htree.once hb] at hnone
    cases hnone
  · rcases List.mem_append.mp ha with ha' | ha' <;> rcases List.mem_append.mp hb with hb' | hb'
    · exact htree.file a ha' b hb' hfile hstarts
    · obtain rfl := List.mem_singleton.mp hb'
      by_contra hne
      have hvisit := (hallowed a.1 (hpaths a ha').1 hstarts _
        (hindexed.complete a ha' a.1 (hpaths a ha').1 List.prefix_rfl)).2
      rw [decide_eq_false hne, if_neg Bool.false_ne_true, declared_of_mem htree.once ha',
        hfile] at hvisit
      exact hvisit rfl
    · obtain rfl := List.mem_singleton.mp ha'
      have hdirectory := (hlast b hb' hstarts).2
      rw [hfile] at hdirectory
      cases hdirectory
    · rw [List.mem_singleton.mp ha', List.mem_singleton.mp hb']

theorem not_declared (htree : Tree unicode (nodes ++ [node])) : ∀ b ∈ nodes, b.1 ≠ node.1 := by
  intro b hb heq
  have honce := htree.once
  rw [List.map_append, List.nodup_append] at honce
  exact honce.2.2 b.1 (List.mem_map_of_mem hb) node.1 (List.mem_singleton.mpr rfl) heq

/-- What keeps the tree the index allows. -/
theorem allowed_of_tree (hindexed : Indexed unicode nodes index)
    (htree : Tree unicode (nodes ++ [node])) :
    AllowedFrom unicode node.2 [] node.1 index := by
  refine allowedFrom_start.mpr fun p hpne hp e he => ?_
  have hnode : node ∈ nodes ++ [node] := List.mem_append_right _ (List.mem_singleton.mpr rfl)
  obtain ⟨b, hb, q, hqne, hq, hkey⟩ := hindexed.sound _ e he
  have hb' : b ∈ nodes ++ [node] := List.mem_append_left _ hb
  obtain rfl := htree.unambiguous node hnode b hb' p q hpne hqne hp hq hkey
  have hentry := Option.some.inj ((hindexed.complete b hb p hpne hq).symm.trans he)
  subst hentry
  refine ⟨rfl, ?_⟩
  by_cases hlast : p = node.1
  · subst hlast
    rw [decide_eq_true rfl, if_pos rfl]
    refine ⟨declared_eq_none (not_declared htree), ?_⟩
    cases hkind : node.2 with
    | directory => rfl
    | file => exact absurd (htree.file node hnode b hb' hkind hq).symm (not_declared htree b hb)
  · rw [decide_eq_false hlast, if_neg Bool.false_ne_true]
    intro hfile
    exact hlast (htree.file (p, .file) (List.mem_append_left _ (mem_of_declared hfile)) node hnode
      rfl hp)

/-- One more entry in the index. -/
theorem indexed_append (hindexed : Indexed unicode nodes index)
    (htree : Tree unicode (nodes ++ [node])) :
    Indexed unicode (nodes ++ [node]) (indexFrom unicode node.2 [] node.1 index) := by
  have hnode : node ∈ nodes ++ [node] := List.mem_append_right _ (List.mem_singleton.mpr rfl)
  constructor
  · intro key e he
    by_cases hkey : ∃ p, p ≠ [] ∧ p <+: node.1 ∧ key = keyOf unicode p
    · exact ⟨node, hnode, hkey⟩
    · rw [indexFrom_other fun p hpne hp heq => hkey ⟨p, hpne, hp, heq.symm⟩] at he
      obtain ⟨b, hb, hp⟩ := hindexed.sound key e he
      exact ⟨b, List.mem_append_left _ hb, hp⟩
  · intro b hb p hpne hp
    rw [declared_append]
    by_cases hstarts : p <+: node.1
    · have hvisited : indexFrom unicode node.2 [] node.1 index (keyOf unicode p) =
          some (visited node.2 (decide (p = node.1)) p (index (keyOf unicode p))) :=
        indexFrom_visited hpne hstarts
      rw [hvisited, visited]
      by_cases hlast : p = node.1
      · subst hlast
        rw [declared_eq_none (not_declared htree)]
        simp
      · have hkinds : (index (keyOf unicode p)).bind (·.kind) = declared nodes p := by
          cases hentry : index (keyOf unicode p) with
          | some e =>
            obtain ⟨c, hc, q, hqne, hq, hkey⟩ := hindexed.sound _ e hentry
            obtain rfl := htree.unambiguous node hnode c (List.mem_append_left _ hc) p q hpne hqne
              hstarts hq hkey
            rw [hindexed.complete c hc p hpne hq] at hentry
            rw [← Option.some.inj hentry]
            rfl
          | none =>
            refine (declared_eq_none fun c hc heq => ?_).symm
            rw [hindexed.complete c hc p hpne (heq ▸ List.prefix_rfl)] at hentry
            cases hentry
        rw [decide_eq_false hlast, if_neg (Ne.symm hlast), hkinds, Option.or_none]
        rfl
    · rcases List.mem_append.mp hb with hb | hb
      · have hother : ∀ q, q ≠ [] → q <+: node.1 → keyOf unicode ([] ++ q) ≠ keyOf unicode p := by
          intro q hqne hq heq
          have hsame := htree.unambiguous node hnode b (List.mem_append_left _ hb) q p hqne hpne hq
            hp heq
          exact hstarts (hsame ▸ hq)
        have hne : node.1 ≠ p := fun heq => hstarts (heq ▸ List.prefix_rfl)
        rw [indexFrom_other hother, hindexed.complete b hb p hpne hp, if_neg hne, Option.or_none]
      · exact absurd (List.mem_singleton.mp hb ▸ hp) hstarts

end

end IntoMarkdown.Zip
