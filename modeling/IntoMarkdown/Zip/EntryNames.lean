import IntoMarkdown.Zip.EntryPolicy

/-! # Accepted names

What one entry has to be on its own, and that its canonical name is the declared one. -/

namespace IntoMarkdown.Zip
open Lib Strings Paths Converters

section
variable (unicode : Unicode)

/-- The checks of a component. -/
structure ComponentOk (component : Text) : Prop where
  named : component ≠ [] ∧ component ≠ ['.'] ∧ component ≠ ['.', '.']
  trimmed : trimEndDots component = component
  safe : safeComponent unicode component = true
  device : isWindowsDevice component = false

/-- The checks of a name, a directory's without its last slash. -/
structure NameOk (name : Text) : Prop where
  nonempty : name ≠ []
  relative : ¬ ['/'] <+: name
  backslash : '\\' ∉ name
  control : name.any isControl = false
  components : ∀ component ∈ splitOn '/' name, ComponentOk unicode component

/-- What the policy takes an entry for. -/
structure Named (depth : Nat) (entry : Entry) (named : Text × EntryKind) : Prop where
  kind : validateType unicode entry.name entry.mode entry.directory = .ok named.2
  name : named.1 = stripName entry.name named.2
  ok : NameOk unicode named.1
  depth : (splitOn '/' named.1).length ≤ depth
  scratch : byteLength entry.name * 128 < usizeModulus

/-- The components of a name. -/
def pathOf (name : Text) : List Text := splitOn '/' name

end

section
variable {unicode : Unicode}

theorem Named.unique {depth : Nat} {entry : Entry} {a b : Text × EntryKind}
    (ha : Named unicode depth entry a) (hb : Named unicode depth entry b) : a = b := by
  have hkind : a.2 = b.2 := Except.ok.inj (ha.kind.symm.trans hb.kind)
  exact Prod.ext (by rw [ha.name, hb.name, hkind]) hkind

theorem pushComponents_ok {name canonical : Text} {parts : List Text} {result : Text} :
    pushComponents unicode name parts canonical = .ok result ↔
      (∀ part ∈ parts, ComponentOk unicode part) ∧ result = parts.foldl pushComponent canonical := by
  induction parts generalizing canonical with
  | nil =>
    refine ⟨fun h => ⟨List.forall_mem_nil _, (Except.ok.inj h).symm⟩, fun h => ?_⟩
    rw [h.2]
    rfl
  | cons part rest ih =>
    rw [pushComponents, refuse_bind_ok, refuse_bind_ok, ih, List.forall_mem_cons]
    simp only [not_or, not_not, Bool.not_eq_false, Bool.not_eq_true, ← ne_eq]
    constructor
    · rintro ⟨hnamed, ⟨htrimmed, hsafe, hdevice⟩, hrest, hresult⟩
      exact ⟨⟨⟨hnamed, htrimmed, hsafe, hdevice⟩, hrest⟩, hresult⟩
    · rintro ⟨⟨⟨hnamed, htrimmed, hsafe, hdevice⟩, hrest⟩, hresult⟩
      exact ⟨hnamed, ⟨htrimmed, hsafe, hdevice⟩, hrest, hresult⟩

theorem joined_eq_nil {parts : List Text} (h : ∀ part ∈ parts, part ≠ []) :
    joined '/' parts = [] ↔ parts = [] := by
  cases parts with
  | nil => exact iff_of_true rfl rfl
  | cons first rest =>
    refine iff_of_false (fun hnil => ?_) (List.cons_ne_nil _ _)
    exact h first List.mem_cons_self (List.append_eq_nil_iff.mp hnil).1

theorem foldl_pushComponent {done parts : List Text} (hdone : ∀ part ∈ done, part ≠ [])
    (hparts : ∀ part ∈ parts, part ≠ []) :
    parts.foldl pushComponent (joined '/' done) = joined '/' (done ++ parts) := by
  induction parts generalizing done with
  | nil => rw [List.append_nil]; rfl
  | cons part rest ih =>
    obtain ⟨hpart, hrest⟩ := List.forall_mem_cons.mp hparts
    have hpush : pushComponent (joined '/' done) part = joined '/' (done ++ [part]) := by
      unfold pushComponent
      by_cases hnil : done = []
      · subst hnil
        rw [if_pos (show joined '/' [] = [] from rfl)]
        exact (joined_singleton part).symm
      · rw [if_neg (mt (joined_eq_nil hdone).mp hnil), joined_concat hnil, List.append_assoc]
        rfl
    have hnext : ∀ p ∈ done ++ [part], p ≠ [] := fun p hp =>
      (List.mem_append.mp hp).elim (hdone p) fun h => List.mem_singleton.mp h ▸ hpart
    rw [List.foldl_cons, hpush, ih hnext hrest, List.append_assoc]
    rfl

/-- The canonical name of a checked name is that name. -/
theorem canonical_eq {name : Text} (h : ∀ part ∈ splitOn '/' name, ComponentOk unicode part) :
    (splitOn '/' name).foldl pushComponent [] = name := by
  have hfold := foldl_pushComponent (List.forall_mem_nil _) fun part hpart => (h part hpart).named.1
  rw [List.nil_append, joined_splitOn] at hfold
  exact hfold

variable {σ : Type} {context : Context σ}

theorem canonicalName_ok {name : Text} {kind : EntryKind} {world : σ} {done : Text × σ}
    (h : canonicalName unicode context name kind world = .ok done) :
    done.1 = stripName name kind ∧ NameOk unicode done.1 := by
  obtain ⟨hchecks, h⟩ := refuse_bind_ok.mp h
  obtain ⟨reserved, _, h⟩ := ok_bind h
  obtain ⟨canonical, hpush, h⟩ := ok_bind h
  obtain rfl := Except.ok.inj h
  obtain ⟨hparts, rfl⟩ := pushComponents_ok.mp hpush
  rw [canonical_eq hparts]
  simp only [not_or] at hchecks
  obtain ⟨hnonempty, hrelative, _, hbackslash, _, hcontrol⟩ := hchecks
  exact ⟨rfl, hnonempty, hrelative, hbackslash, Bool.eq_false_iff.mpr hcontrol, hparts⟩

/-! ## Safe paths -/

/-- A component that no platform reads as anything but a plain name. -/
structure SafeComponent (unicode : Unicode) (component : Text) : Prop where
  nonempty : component ≠ []
  dots : component ≠ ['.'] ∧ component ≠ ['.', '.']
  separators : '/' ∉ component ∧ '\\' ∉ component
  control : ∀ c ∈ component, isControl c = false
  drive : ':' ∉ component
  device : isWindowsDevice component = false ∧ isWindowsDevice (unicode.nfkc component) = false

/-- A relative path of safe components. -/
structure SafePath (unicode : Unicode) (name : Text) : Prop where
  joined : name = joined '/' (pathOf name)
  relative : ¬ ['/'] <+: name
  components : ∀ component ∈ pathOf name, SafeComponent unicode component

theorem mem_of_mem_joined {c : Char} {parts : List Text} {part : Text} (hpart : part ∈ parts)
    (hc : c ∈ part) : c ∈ Paths.joined '/' parts := by
  cases parts with
  | nil => cases hpart
  | cons first rest =>
    rcases List.mem_cons.mp hpart with rfl | hpart
    · exact List.mem_append_left _ hc
    · exact List.mem_append_right _ (List.mem_flatMap.mpr ⟨part, hpart, List.mem_cons_of_mem _ hc⟩)

theorem NameOk.safe {name : Text} (h : NameOk unicode name) : SafePath unicode name := by
  have hjoined := joined_splitOn '/' name
  refine ⟨hjoined.symm, h.relative, fun component hcomponent => ?_⟩
  have hok := h.components component hcomponent
  have hmem : ∀ c ∈ component, c ∈ name := fun c hc => by
    rw [← hjoined]
    exact mem_of_mem_joined hcomponent hc
  have hsafe := hok.safe
  simp only [safeComponent, Bool.and_eq_true, Bool.not_eq_true'] at hsafe
  obtain ⟨⟨_, hforbidden⟩, hdevice⟩ := hsafe
  refine ⟨hok.named.1, hok.named.2, ⟨not_mem_of_splitOn '/' name component hcomponent, ?_⟩, ?_, ?_,
    hok.device, hdevice⟩
  · exact fun hc => h.backslash (hmem _ hc)
  · exact fun c hc => Bool.eq_false_iff.mpr fun hcontrol => Bool.eq_false_iff.mp h.control
      (List.any_eq_true.mpr ⟨c, hmem c hc, hcontrol⟩)
  · exact fun hc => Bool.eq_false_iff.mp hforbidden
      (List.any_eq_true.mpr ⟨':', unicode.nfkc_colon _ hc, rfl⟩)

end

end IntoMarkdown.Zip
