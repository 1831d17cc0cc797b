import IntoMarkdown.Zip.EntryTree

/-! # Entries in any order

A policy accepts a sequence of entries when each is accepted on its own and their paths
form an unambiguous tree, as far as the context grants what the calls ask for. -/

namespace IntoMarkdown.Zip
open Lib Strings Paths Converters

/-- Every call of the context succeeds. -/
structure Context.Generous {σ : Type} (context : Context σ) : Prop where
  runtime : context.toRuntime.Generous
  reserve : ∀ s bytes, ∃ s', context.reserveMemory s bytes = .ok s'

section
variable {unicode : Unicode} {σ : Type} {context : Context σ}

/-- The call succeeds with this, or the context refuses something. -/
def Grants {α : Type} (context : Context σ) (x : Except ConversionError α) (Q : α → Prop) : Prop :=
  (∃ a, x = .ok a ∧ Q a) ∨ (¬ context.Generous ∧ ∃ c, x = .error (.core c))

namespace Grants
variable {α β : Type} {x : Except ConversionError α} {Q : α → Prop}

theorem ok {a : α} (h : Q a) : Grants context (.ok a) Q := Or.inl ⟨a, rfl, h⟩

theorem bind {f : α → Except ConversionError β} {R : β → Prop} (hx : Grants context x Q)
    (hf : ∀ a, Q a → Grants context (f a) R) : Grants context (x >>= f) R := by
  rcases hx with ⟨a, rfl, ha⟩ | ⟨hcontext, c, rfl⟩
  · exact hf a ha
  · exact Or.inr ⟨hcontext, c, rfl⟩

theorem of_eq {a : α} (hx : x = .ok a) (h : Q a) : Grants context x Q := Or.inl ⟨a, hx, h⟩

theorem refuse {bad : Prop} [Decidable bad] {error : ConversionError} (h : ¬ bad) :
    Grants context (refuse bad error) fun _ => True :=
  of_eq (refuse_of_not h) trivial

/-- A call of the context, or of the allocator. -/
theorem call {ε : Type} {x : Except ε α} {error : ε → Core.ConversionError}
    (h : context.Generous → ∃ a, x = .ok a) :
    Grants context (x.mapError fun e => .core (error e)) fun _ => True := by
  cases x with
  | ok a => exact ok trivial
  | error e =>
    refine Or.inr ⟨fun hgenerous => ?_, error e, rfl⟩
    obtain ⟨a, ha⟩ := h hgenerous
    cases ha

theorem coreCall {x : Except Core.ConversionError α} (h : context.Generous → ∃ a, x = .ok a) :
    Grants context (x.mapError .core) fun _ => True :=
  call h

end Grants

/-! ## One component -/

theorem revisit_ok {name : Text} {kind : EntryKind} {path : Path} {last : Bool}
    {existing entry : PathEntry} :
    revisit unicode name kind (joined '/' path) last existing = .ok entry ↔
      Allowed kind last path (some existing) ∧ entry = visited kind last path (some existing) := by
  obtain ⟨original, found⟩ := existing
  cases last with
  | true =>
    simp only [revisit, refuse_bind_ok, Allowed, visited, Option.mem_some_iff, forall_eq', if_true,
      not_or, not_not, ne_eq, Option.not_isSome_iff_eq_none, Option.bind_some]
    constructor
    · rintro ⟨rfl, ⟨hnone, hkind⟩, h⟩
      refine ⟨⟨rfl, hnone, ?_⟩, (Except.ok.inj h).symm⟩
      cases kind with
      | directory => rfl
      | file => exact absurd rfl hkind
    · rintro ⟨⟨rfl, hnone, rfl⟩, rfl⟩
      exact ⟨rfl, ⟨hnone, by decide⟩, rfl⟩
  | false =>
    simp only [revisit, refuse_bind_ok, Allowed, visited, Option.mem_some_iff, forall_eq',
      not_not, ne_eq, Option.bind_some, Bool.false_eq_true, ↓reduceIte]
    constructor
    · rintro ⟨rfl, hkind, h⟩
      exact ⟨⟨rfl, hkind⟩, (Except.ok.inj h).symm⟩
    · rintro ⟨⟨rfl, hkind⟩, rfl⟩
      exact ⟨rfl, hkind, rfl⟩

theorem growIndex_ok {path : Path} {world world' : σ}
    (h : growIndex context (joined '/' path) (keyOf unicode path) world = .ok world') :
    Fits unicode path := by
  obtain ⟨bytes, hbytes, _⟩ := ok_bind h
  cases hplan : (checkedAdd (byteLength (keyOf unicode path))
      (byteLength (joined '/' path))).bind (checkedAdd · 256) with
  | none =>
    rw [hplan] at hbytes
    cases hbytes
  | some total =>
    obtain ⟨sum, hsum, htotal⟩ := Option.bind_eq_some_iff.mp hplan
    unfold checkedAdd at hsum htotal
    split at hsum
    · obtain rfl := Option.some.inj hsum
      split at htotal
      · assumption
      · cases htotal
    · cases hsum

theorem growIndex_granted {path : Path} (h : Fits unicode path) (world : σ) :
    Grants context (growIndex context (joined '/' path) (keyOf unicode path) world)
      fun _ => True := by
  have hsum : checkedAdd (byteLength (keyOf unicode path)) (byteLength (joined '/' path)) =
      some (byteLength (keyOf unicode path) + byteLength (joined '/' path)) :=
    if_pos (by unfold Fits at h; omega)
  have hplan : (checkedAdd (byteLength (keyOf unicode path))
      (byteLength (joined '/' path))).bind (checkedAdd · 256) =
      some (byteLength (keyOf unicode path) + byteLength (joined '/' path) + 256) := by
    rw [hsum]
    exact if_pos h
  rw [growIndex, hplan]
  exact Grants.coreCall fun hgenerous => hgenerous.runtime.grow _ _

variable {kind : EntryKind} {name : Text} {policy : EntryPolicy σ}

theorem visit_ok {path : Path} {last : Bool} {policy' : EntryPolicy σ}
    (h : visit unicode context name kind (joined '/' path) (keyOf unicode path) last policy =
      .ok policy') :
    Allowed kind last path (policy.paths (keyOf unicode path)) ∧
      policy'.paths = Function.update policy.paths (keyOf unicode path)
        (some (visited kind last path (policy.paths (keyOf unicode path)))) ∧
      (policy.paths (keyOf unicode path) = none → Fits unicode path) := by
  unfold visit at h
  cases hexisting : policy.paths (keyOf unicode path) with
  | some existing =>
    rw [hexisting] at h
    obtain ⟨entry, hentry, h⟩ := ok_bind h
    obtain rfl := Except.ok.inj h
    obtain ⟨hallowed, rfl⟩ := revisit_ok.mp hentry
    exact ⟨hallowed, rfl, nofun⟩
  | none =>
    rw [hexisting] at h
    obtain ⟨world, hworld, h⟩ := ok_bind h
    obtain rfl := Except.ok.inj h
    exact ⟨nofun, rfl, fun _ => growIndex_ok hworld⟩

theorem visit_granted {path : Path} {last : Bool}
    (hallowed : Allowed kind last path (policy.paths (keyOf unicode path)))
    (hfits : Fits unicode path) :
    Grants context
      (visit unicode context name kind (joined '/' path) (keyOf unicode path) last policy)
      fun policy' => policy'.paths = Function.update policy.paths (keyOf unicode path)
        (some (visited kind last path (policy.paths (keyOf unicode path)))) := by
  unfold visit
  cases hexisting : policy.paths (keyOf unicode path) with
  | some existing =>
    rw [hexisting] at hallowed
    exact .of_eq (bind_ok_iff.mpr ⟨_, revisit_ok.mpr ⟨hallowed, rfl⟩, rfl⟩) rfl
  | none => exact (growIndex_granted hfits policy.world).bind fun world _ => .ok rfl

/-! ## One name -/

/-- What the loop has put together so far. -/
theorem original_next (done : Path) (component : Text) :
    joined '/' done ++ (if done.length ≠ 0 then ['/'] else []) ++ component =
      joined '/' (done ++ [component]) := by
  by_cases hnil : done = []
  · subst hnil
    exact (joined_singleton component).symm
  · rw [if_pos (by simpa using hnil), joined_concat hnil, List.append_assoc]
    rfl

theorem key_next (done : Path) (component : Text) :
    keyOf unicode done ++ (if done.length ≠ 0 then ['/'] else []) ++ aliasKey unicode component =
      keyOf unicode (done ++ [component]) := by
  have h := original_next (done.map (aliasKey unicode)) (aliasKey unicode component)
  rw [List.length_map] at h
  rw [keyOf, keyOf, List.map_append, h]
  rfl

theorem last_iff (done rest : Path) (component : Text) :
    decide (done.length + 1 = (done ++ component :: rest).length) = rest.isEmpty := by
  cases rest with
  | nil => simp
  | cons next rest => simp

theorem visitAll_ok (done : Path) {rest : Path} {policy' : EntryPolicy σ}
    (h : visitAll unicode context name kind (done ++ rest).length rest done.length
      (joined '/' done) (keyOf unicode done) policy = .ok policy') :
    AllowedFrom unicode kind done rest policy.paths ∧
      policy'.paths = indexFrom unicode kind done rest policy.paths ∧
      ∀ more, more ≠ [] → more <+: rest → policy.paths (keyOf unicode (done ++ more)) = none →
        Fits unicode (done ++ more) := by
  induction rest generalizing done policy with
  | nil =>
    obtain rfl := Except.ok.inj h
    exact ⟨trivial, rfl, fun more hmore hstarts => absurd (List.prefix_nil.mp hstarts) hmore⟩
  | cons component rest ih =>
    obtain ⟨world, _, h⟩ := ok_bind h
    simp only [original_next, key_next, last_iff] at h
    obtain ⟨visitedPolicy, hvisit, h⟩ := ok_bind h
    obtain ⟨hallowed, hpaths, hfits⟩ := visit_ok hvisit
    have hlength : done.length + 1 = (done ++ [component]).length := by simp
    have hcount : (done ++ component :: rest).length = (done ++ [component] ++ rest).length := by
      simp
    rw [hlength, hcount] at h
    obtain ⟨hrest, hindex, hfits'⟩ := ih (done ++ [component]) h
    rw [hpaths] at hrest hindex
    refine ⟨⟨hallowed, hrest⟩, hindex, fun more hmore hstarts hnone => ?_⟩
    obtain ⟨first, more, rfl⟩ := List.exists_cons_of_ne_nil hmore
    obtain ⟨rfl, htail⟩ := List.cons_prefix_cons.mp hstarts
    by_cases hnil : more = []
    · subst hnil
      exact hfits hnone
    · have hassoc : done ++ first :: more = done ++ [first] ++ more := by simp
      rw [hassoc] at hnone ⊢
      refine hfits' more hnil htail ?_
      rw [hpaths, Function.update_of_ne (keyOf_ne (by simp) hnil)]
      exact hnone

theorem visitAll_granted (done : Path) {rest : Path}
    (hallowed : AllowedFrom unicode kind done rest policy.paths)
    (hfits : ∀ more, more ≠ [] → more <+: rest → Fits unicode (done ++ more)) :
    Grants context (visitAll unicode context name kind (done ++ rest).length rest done.length
      (joined '/' done) (keyOf unicode done) policy)
      fun policy' => policy'.paths = indexFrom unicode kind done rest policy.paths := by
  induction rest generalizing done policy with
  | nil => exact .ok rfl
  | cons component rest ih =>
    refine (Grants.coreCall fun hgenerous =>
      hgenerous.runtime.checkpoint policy.world).bind fun world _ => ?_
    simp only [original_next, key_next, last_iff]
    have hfirst : Fits unicode (done ++ [component]) :=
      hfits [component] (List.cons_ne_nil _ _) (List.cons_prefix_cons.mpr ⟨rfl, List.nil_prefix⟩)
    have hcurrent : Allowed kind rest.isEmpty (done ++ [component])
        (EntryPolicy.paths { policy with world } (keyOf unicode (done ++ [component]))) :=
      hallowed.1
    refine (visit_granted hcurrent hfirst).bind fun visitedPolicy hpaths => ?_
    have hlength : done.length + 1 = (done ++ [component]).length := by simp
    have hcount : (done ++ component :: rest).length = (done ++ [component] ++ rest).length := by
      simp
    rw [hlength, hcount, indexFrom, ← hpaths]
    refine ih (done ++ [component]) ?_ fun more hmore hstarts => ?_
    · rw [hpaths]
      exact hallowed.2
    · rw [List.append_assoc]
      exact hfits (component :: more) (List.cons_ne_nil _ _)
        (List.cons_prefix_cons.mpr ⟨rfl, hstarts⟩)

/-! ## One entry -/

theorem checkedMul_ok {a b c : Nat} {error : ConversionError}
    (h : okOr (checkedMul a b) error = .ok c) : a * b < usizeModulus ∧ c = a * b := by
  unfold checkedMul at h
  split at h
  · exact ⟨‹_›, (Except.ok.inj h).symm⟩
  · cases h

/-- The index after an entry, and what it has to be for that. -/
theorem accept_ok {entry : Entry} {done : (Text × EntryKind) × EntryPolicy σ}
    (h : accept unicode context entry.name entry.mode entry.directory policy = .ok done) :
    Named unicode context.maxNestingDepth entry done.1 ∧
      AllowedFrom unicode done.1.2 [] (pathOf done.1.1) policy.paths ∧
      done.2.paths = indexFrom unicode done.1.2 [] (pathOf done.1.1) policy.paths ∧
      ∀ p, p ≠ [] → p <+: pathOf done.1.1 → policy.paths (keyOf unicode p) = none →
        Fits unicode p := by
  obtain ⟨kind, hkind, h⟩ := ok_bind h
  obtain ⟨scratch, hscratch, h⟩ := ok_bind h
  obtain ⟨world, _, h⟩ := ok_bind h
  obtain ⟨named, hnamed, h⟩ := ok_bind h
  obtain ⟨hdepth, h⟩ := refuse_bind_ok.mp h
  obtain ⟨policy', hvisits, h⟩ := ok_bind h
  obtain rfl := Except.ok.inj h
  obtain ⟨hname, hok⟩ := canonicalName_ok hnamed
  obtain ⟨hallowed, hpaths, hfits⟩ := visitAll_ok [] hvisits
  exact ⟨⟨hkind, hname, hok, Nat.le_of_not_lt hdepth, (checkedMul_ok hscratch).1⟩, hallowed,
    hpaths, hfits⟩

theorem canonicalName_granted {entry : Entry} {named : Text × EntryKind} {depth : Nat}
    (h : Named unicode depth entry named) (world : σ) :
    Grants context (canonicalName unicode context entry.name named.2 world)
      fun done => done.1 = named.1 := by
  have hchecks : ¬ (named.1 = [] ∨ ['/'] <+: named.1 ∨ ['/', '/'] <+: named.1 ∨ '\\' ∈ named.1 ∨
      '\x00' ∈ named.1 ∨ named.1.any isControl) := by
    rintro (hnil | hslash | hslashes | hbackslash | hnul | hcontrol)
    · exact h.ok.nonempty hnil
    · exact h.ok.relative hslash
    · obtain ⟨rest, hrest⟩ := hslashes
      exact h.ok.relative ⟨'/' :: rest, hrest⟩
    · exact h.ok.backslash hbackslash
    · exact Bool.eq_false_iff.mp h.ok.control (List.any_eq_true.mpr ⟨_, hnul, rfl⟩)
    · exact Bool.eq_false_iff.mp h.ok.control hcontrol
  rw [canonicalName, ← h.name]
  refine (Grants.refuse hchecks).bind fun _ _ => ?_
  refine (Grants.call fun hgenerous => ?_).bind fun reserved _ => ?_
  · obtain ⟨s', hs'⟩ := hgenerous.runtime.allocate world (byteLength named.1)
    exact ⟨_, hs'⟩
  · have hpush : pushComponents unicode named.1 (splitOn '/' named.1) [] =
        .ok ((splitOn '/' named.1).foldl pushComponent []) :=
      pushComponents_ok.mpr ⟨h.ok.components, rfl⟩
    exact .of_eq (bind_ok_iff.mpr ⟨_, hpush, rfl⟩) (canonical_eq h.ok.components)

theorem accept_granted {entry : Entry} {named : Text × EntryKind}
    (h : Named unicode context.maxNestingDepth entry named)
    (hallowed : AllowedFrom unicode named.2 [] (pathOf named.1) policy.paths)
    (hfits : ∀ p, p ≠ [] → p <+: pathOf named.1 → Fits unicode p) :
    Grants context (accept unicode context entry.name entry.mode entry.directory policy)
      fun done => done.1 = named ∧
        done.2.paths = indexFrom unicode named.2 [] (pathOf named.1) policy.paths := by
  have hscratch : checkedMul (byteLength entry.name) 128 = some (byteLength entry.name * 128) :=
    if_pos h.scratch
  rw [accept, h.kind, hscratch]
  refine (Grants.coreCall fun hgenerous => hgenerous.reserve _ _).bind
    fun world _ => ?_
  refine (canonicalName_granted h world).bind fun done hname => ?_
  obtain ⟨name, world'⟩ := done
  obtain rfl : name = named.1 := hname
  refine (Grants.refuse (Nat.not_lt.mpr h.depth)).bind fun _ _ => ?_
  have hvisits : Grants context (visitAll unicode context named.1 named.2
      (splitOn '/' named.1).length (splitOn '/' named.1) 0 [] [] { policy with world := world' })
      fun policy' => policy'.paths = indexFrom unicode named.2 [] (pathOf named.1) policy.paths :=
    visitAll_granted [] hallowed hfits
  exact hvisits.bind fun policy' hpaths => .ok ⟨rfl, hpaths⟩

/-! ## A sequence of entries -/

def nodesOf (named : List (Text × EntryKind)) : List Node := named.map fun n => (pathOf n.1, n.2)

/-- The index can name its memory for every path of the nodes. -/
def FitsAll (unicode : Unicode) (nodes : List Node) : Prop :=
  ∀ node ∈ nodes, ∀ p, p ≠ [] → p <+: node.1 → Fits unicode p

theorem paths_nodesOf {named : List (Text × EntryKind)} : Paths (nodesOf named) := by
  intro node hnode
  obtain ⟨n, _, rfl⟩ := List.mem_map.mp hnode
  exact ⟨MarkdownCode.splitOn_ne_nil '/' n.1, not_mem_of_splitOn '/' n.1⟩

theorem paths_append {nodes more : List Node} (h : Paths nodes) (hmore : Paths more) :
    Paths (nodes ++ more) := fun node hnode =>
  (List.mem_append.mp hnode).elim (h node) (hmore node)

/-- What an accepted sequence is. -/
theorem acceptAll_ok {entries : List Entry} {done : List (Text × EntryKind) × EntryPolicy σ}
    (h : acceptAll unicode context entries policy = .ok done) {nodes : List Node}
    (hindexed : Indexed unicode nodes policy.paths) (htree : Tree unicode nodes)
    (hpaths : Paths nodes) (hfits : FitsAll unicode nodes) :
    List.Forall₂ (Named unicode context.maxNestingDepth) entries done.1 ∧
      Tree unicode (nodes ++ nodesOf done.1) ∧ FitsAll unicode (nodes ++ nodesOf done.1) := by
  induction entries generalizing policy done nodes with
  | nil =>
    obtain rfl := Except.ok.inj h
    have hnil : nodes ++ nodesOf [] = nodes := List.append_nil nodes
    exact ⟨.nil, hnil.symm ▸ htree, hnil.symm ▸ hfits⟩
  | cons entry rest ih =>
    obtain ⟨first, hfirst, h⟩ := ok_bind h
    obtain ⟨others, hothers, h⟩ := ok_bind h
    obtain rfl := Except.ok.inj h
    obtain ⟨hnamed, hallowed, hindex, hfresh⟩ := accept_ok hfirst
    have hnode : Paths (nodesOf [first.1]) := paths_nodesOf
    have htree' := tree_of_allowed hindexed htree hpaths
      (hnode _ (List.mem_singleton.mpr rfl)) hallowed
    have hindexed' := indexed_append hindexed htree'
    have hfits' : FitsAll unicode (nodes ++ [(pathOf first.1.1, first.1.2)]) := by
      intro node hmem p hpne hp
      rcases List.mem_append.mp hmem with hold | hnew
      · exact hfits node hold p hpne hp
      · obtain rfl := List.mem_singleton.mp hnew
        cases hentry : policy.paths (keyOf unicode p) with
        | none => exact hfresh p hpne hp hentry
        | some e =>
          obtain ⟨b, hb, q, hqne, hq, hkey⟩ := hindexed.sound _ e hentry
          obtain rfl := htree'.unambiguous _ hmem b (List.mem_append_left _ hb) p q hpne hqne hp
            hq hkey
          exact hfits b hb p hpne hq
    rw [← hindex] at hindexed'
    obtain ⟨hall, hfinal⟩ := ih hothers hindexed' htree' (paths_append hpaths hnode) hfits'
    rw [List.append_assoc] at hfinal
    exact ⟨.cons hnamed hall, hfinal⟩

/-- Such a sequence is accepted as far as the context goes. -/
theorem acceptAll_granted {entries : List Entry} {named : List (Text × EntryKind)}
    (hnamed : List.Forall₂ (Named unicode context.maxNestingDepth) entries named)
    {nodes : List Node} (hindexed : Indexed unicode nodes policy.paths)
    (htree : Tree unicode (nodes ++ nodesOf named)) (hfits : FitsAll unicode (nodesOf named)) :
    Grants context (acceptAll unicode context entries policy) fun done => done.1 = named := by
  induction hnamed generalizing policy nodes with
  | nil => exact .ok rfl
  | @cons entry first rest others hfirst _ ih =>
    obtain ⟨hfitsFirst, hfitsOthers⟩ := List.forall_mem_cons.mp hfits
    have hassoc : nodes ++ nodesOf (first :: others) =
        nodes ++ [(pathOf first.1, first.2)] ++ nodesOf others := by
      simp [nodesOf]
    rw [hassoc] at htree
    have hone := htree.of_append
    refine (accept_granted hfirst (allowed_of_tree hindexed hone) hfitsFirst).bind
      fun done hdone => ?_
    have hindexed' := indexed_append hindexed hone
    rw [← hdone.2] at hindexed'
    refine (ih hindexed' htree hfitsOthers).bind fun final hfinal => .ok ?_
    rw [hdone.1, hfinal]

theorem Tree.nil : Tree unicode [] where
  unambiguous := List.forall_mem_nil _
  once := List.nodup_nil
  file := List.forall_mem_nil _

/-- The entries of another order, each with the name it has. -/
theorem named_perm {depth : Nat} {entries entries' : List Entry}
    {named : List (Text × EntryKind)} (h : List.Forall₂ (Named unicode depth) entries named)
    (hperm : entries'.Perm entries) :
    ∃ named', List.Forall₂ (Named unicode depth) entries' named' ∧
      (entries'.zip named').Perm (entries.zip named) := by
  have hzip : List.Forall₂ (fun entry pair => pair.1 = entry ∧ Named unicode depth entry pair.2)
      entries (entries.zip named) := by
    clear hperm
    induction h with
    | nil => exact .nil
    | cons hfirst _ ih => exact .cons ⟨rfl, hfirst⟩ ih
  obtain ⟨pairs, hpairs, hpermuted⟩ := List.perm_comp_forall₂ hperm hzip
  have hparts : entries' = pairs.map (·.1) ∧
      List.Forall₂ (Named unicode depth) entries' (pairs.map (·.2)) := by
    clear hpermuted hperm
    induction hpairs with
    | nil => exact ⟨rfl, .nil⟩
    | cons hfirst _ ih => exact ⟨by rw [List.map_cons, ← ih.1, hfirst.1], .cons hfirst.2 ih.2⟩
  refine ⟨pairs.map (·.2), hparts.2, ?_⟩
  have hwhole : entries'.zip (pairs.map (·.2)) = pairs := by
    rw [hparts.1, List.zip_map']
    exact List.map_id' pairs
  rwa [hwhole]

end

/-- Accepted names are safe relative paths in an unambiguous tree, and entries that one
policy accepts are accepted in every order with the same names, unless the context refuses
memory or is interrupted. -/
theorem entry_policy_any_order (unicode : Unicode) {σ : Type} (context : Context σ) (world : σ)
    (entries : List Entry) (named : List (Text × EntryKind)) (policy : EntryPolicy σ)
    (h : acceptAll unicode context entries (.new world) = .ok (named, policy)) :
    (∀ n ∈ named, SafePath unicode n.1) ∧ Tree unicode (nodesOf named) ∧
      ∀ entries' : List Entry, entries'.Perm entries → ∀ world' : σ,
        (∃ named' policy', acceptAll unicode context entries' (.new world') =
          .ok (named', policy') ∧ (entries'.zip named').Perm (entries.zip named)) ∨
        (¬ context.Generous ∧ ∃ c, acceptAll unicode context entries' (.new world') =
          .error (.core c)) := by
  obtain ⟨hnamed, htree, hfits⟩ := acceptAll_ok h Indexed.empty Tree.nil (List.forall_mem_nil _)
    (List.forall_mem_nil _)
  rw [List.nil_append] at htree hfits
  refine ⟨fun n hn => ?_, htree, fun entries' hperm world' => ?_⟩
  · obtain ⟨entry, _, hone⟩ := exists_of_forall₂ hnamed.flip n hn
    exact hone.ok.safe
  · obtain ⟨named', hnamed', hzip⟩ := named_perm hnamed hperm
    have hnames : named'.Perm named := by
      have hsecond := hzip.map Prod.snd
      rwa [List.map_snd_zip hnamed'.length_eq.ge, List.map_snd_zip hnamed.length_eq.ge] at hsecond
    have hnodes : (nodesOf named').Perm (nodesOf named) := hnames.map _
    have htree' : Tree unicode ([] ++ nodesOf named') := htree.perm hnodes.symm
    have hfits' : FitsAll unicode (nodesOf named') := fun node hnode =>
      hfits node (hnodes.mem_iff.mp hnode)
    have hgranted : Grants context (acceptAll unicode context entries' (.new world'))
        fun done => done.1 = named' := acceptAll_granted hnamed' Indexed.empty htree' hfits'
    rcases hgranted with ⟨done, hdone, rfl⟩ | hrefused
    · exact Or.inl ⟨done.1, done.2, hdone, hzip⟩
    · exact Or.inr hrefused

/-! ## Two orders of two entries -/

/-- `checked_charge` of the counter of a request. -/
def chargeUpTo (limit current amount : Nat) : Except Core.ConversionError Nat :=
  if current + amount < usizeModulus ∧ current + amount ≤ limit then .ok (current + amount)
  else .error (.resourceLimit "max_memory_bytes" s!"{current} + {amount} exceeds {limit}")

/-- A request that nothing interrupts, alone with its memory limit. -/
def loneContext (limit maxNestingDepth : Nat) : Context Nat where
  checkpoint := .ok
  grow := chargeUpTo limit
  shrink := fun s bytes => .ok (s - bytes)
  allocate := fun s target => .ok (target, s)
  reserveMemory := chargeUpTo limit
  releaseMemory := fun s bytes => s - bytes
  maxNestingDepth

/-- On ASCII text the normalization forms change nothing, and folding is lower case. -/
def asciiUnicode : Unicode where
  nfd := id
  nfkc := id
  nfkd := id
  defaultCaseFold := toAsciiLowercase
  debug := fun text => s!"\"{String.ofList text}\""
  nfkc_colon := fun _ h => h

def longEntry : Entry := ⟨List.replicate 10 'a', some 0o100644, false⟩

def shortEntry : Entry := ⟨['b'], some 0o100644, false⟩

/-- With 1600 bytes both orders have the same names on their own, but the scratch memory of the
long name fits only before the short one is indexed. -/
theorem order_decides_under_limit :
    ¬ ∀ (unicode : Unicode) (context : Context Nat) (world : Nat) (entries entries' : List Entry),
      entries'.Perm entries →
      (∃ done, acceptAll unicode context entries (.new world) = .ok done) →
      ∃ done, acceptAll unicode context entries' (.new world) = .ok done := by
  intro h
  have hfirst : ∃ done, acceptAll asciiUnicode (loneContext 1600 64) [longEntry, shortEntry]
      (.new 0) = .ok done := isOk_iff.mp (by decide +kernel)
  have hsecond := h asciiUnicode (loneContext 1600 64) 0 [longEntry, shortEntry]
    [shortEntry, longEntry] (.swap _ _ _) hfirst
  exact absurd (isOk_iff.mpr hsecond) (by decide +kernel)

/-- With room for both, the entries form a tree. -/
theorem entry_policy_any_order_two :
    ∃ done, acceptAll asciiUnicode (loneContext 100000 64) [longEntry, shortEntry] (.new 0) =
      .ok done ∧ Tree asciiUnicode (nodesOf done.1) := by
  obtain ⟨done, h⟩ : ∃ done, acceptAll asciiUnicode (loneContext 100000 64)
      [longEntry, shortEntry] (.new 0) = .ok done := isOk_iff.mp (by decide +kernel)
  exact ⟨done, h, (entry_policy_any_order asciiUnicode (loneContext 100000 64) 0
    [longEntry, shortEntry] done.1 done.2 h).2.1⟩

end IntoMarkdown.Zip
