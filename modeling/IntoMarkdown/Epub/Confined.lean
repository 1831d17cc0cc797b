import IntoMarkdown.Epub.Resolve
import IntoMarkdown.Zip.EntryOrder

/-! # References stay inside the container

Bases and the URIs that they stand for, and what every accepted reference leads to. -/

namespace IntoMarkdown.Epub
open Lib Strings MarkdownCode Paths Converters Zip
open Uri (flat walk walkClimbs Plain NoDots)

/-- The URI path of a base, its segments decoded to the components of the container path. -/
inductive Stands (unicode : Unicode) : BasePath → Text → Prop where
  | document {path : Text} {raws : List Text} (ok : NameOk unicode path) (plain : Plain raws)
      (dots : NoDots raws) (decoded : Decoded raws (splitOn '/' path)) :
      Stands unicode ⟨path, false⟩ (flat raws)
  | directory {path : Text} {raws : List Text} (ok : NameOk unicode path) (plain : Plain raws)
      (dots : NoDots raws) (decoded : Decoded raws (splitOn '/' path)) :
      Stands unicode ⟨path, true⟩ (flat (raws ++ [[]]))
  | root : Stands unicode ⟨[], true⟩ (flat [[]])

section
variable {unicode : Unicode}

theorem solid_splitOn {path : Text} (h : NameOk unicode path) : Solid (splitOn '/' path) :=
  fun component hc => ⟨(h.components component hc).named.1, not_mem_of_splitOn '/' path component hc⟩

/-- A base is a directory and a last segment. -/
theorem Stands.parts {base : BasePath} {uri : Text} (h : Stands unicode base uri) :
    ∃ dirs last, uri = flat (dirs ++ [last]) ∧ Plain dirs ∧ '/' ∉ last ∧ NoDots dirs ∧
      Decoded dirs (baseComponents base) ∧ Solid (baseComponents base) := by
  cases h with
  | @document path raws ok plain dots decoded =>
    have hne : raws ≠ [] := by
      rintro rfl
      exact splitOn_ne_nil '/' path (List.forall₂_nil_left_iff.mp decoded)
    refine ⟨raws.dropLast, raws.getLast hne, ?_, Uri.plain_dropLast plain,
      plain _ (List.getLast_mem hne), ?_, decoded.dropLast, ?_⟩
    · rw [List.dropLast_append_getLast]
    · exact fun segment hmem => dots segment (List.dropLast_subset _ hmem)
    · exact fun c hc => solid_splitOn ok c (List.dropLast_subset _ hc)
  | @directory path raws ok plain dots decoded =>
    have hbase : baseComponents ⟨path, true⟩ = splitOn '/' path := by
      rw [baseComponents, if_neg fun h => ok.nonempty h.2]
      rfl
    rw [hbase]
    exact ⟨raws, [], rfl, plain, List.not_mem_nil, dots, decoded, solid_splitOn ok⟩
  | root =>
    exact ⟨[], [], rfl, List.forall_mem_nil _, List.not_mem_nil, List.forall_mem_nil _, .nil,
      List.forall_mem_nil _⟩

theorem namesDirectory_iff {reference : Text} (h : reference ≠ []) :
    namesDirectory reference = true ↔ EndsDirectory (splitOn '/' reference) := by
  have hslash : ['/'] <:+ reference ↔ (splitOn '/' reference).getLast? = some [] := by
    constructor
    · rintro ⟨start, rfl⟩
      rw [splitOn_joined '/' start []]
      exact List.getLast?_concat
    · intro hlast
      obtain ⟨init, hsplit⟩ := List.getLast?_eq_some_iff.mp hlast
      have hjoined := joined_splitOn '/' reference
      rw [hsplit] at hjoined
      by_cases hinit : init = []
      · rw [hinit, List.nil_append, joined_singleton] at hjoined
        exact absurd hjoined.symm h
      · rw [joined_concat hinit] at hjoined
        exact ⟨_, hjoined⟩
  simp only [namesDirectory, EndsDirectory, Bool.or_eq_true, decide_eq_true_eq, hslash, or_assoc]

variable {σ : Type} {library : Library σ}

/-- An accepted path is the one of the URI reference. -/
theorem resolvePath_stands {base : BasePath} {uri reference : Text} {resolved : Text × Bool}
    (hbase : Stands library.unicode base uri)
    (h : resolvePath library base reference = .ok resolved) :
    reference ≠ [] ∧ Stands library.unicode ⟨resolved.1, resolved.2⟩ (Uri.resolvePath uri reference) ∧
      Uri.climbs uri reference = false ∧ ∀ raw ∈ splitOn '/' reference, ¬ HidesDots raw := by
  obtain ⟨hchecks, h⟩ := refuse_bind_ok.mp h
  obtain ⟨hrelative, _⟩ := not_or.mp hchecks
  obtain ⟨components, hparts, h⟩ := ok_bind h
  obtain ⟨dirs, last, rfl, hdirs, hlast, hdots, hdecoded, hsolid⟩ := hbase.parts
  have hreference : reference ≠ [] := by
    rintro rfl
    have hempty : resolveParts (namesDirectory []) (splitOn '/' []) (baseComponents base) =
        .error (malformed "EPUB path contains an empty component") := rfl
    rw [hempty] at hparts
    cases hparts
  have hplain := Uri.plain_splitOn reference
  have hwalked := resolveParts_walked hparts hdecoded hdots hdirs hplain (splitOn_ne_nil '/' reference)
    (namesDirectory_iff hreference)
  have hsolid' := resolveParts_solid hparts hplain hsolid
  obtain ⟨hresolved, hclimbs⟩ := Uri.resolvePath_flat hdirs hlast hdots hreference hrelative
  refine ⟨hreference, ?_, hclimbs.trans hwalked.stays, hwalked.plain⟩
  obtain ⟨out, hout, hnoDots, houtPlain, hwalk⟩ := hwalked.result
  rw [hresolved, hwalk]
  by_cases hnil : components = []
  · subst hnil
    obtain rfl : out = [] := List.forall₂_nil_right_iff.mp hout
    rw [if_pos rfl] at h
    cases hdirectory : namesDirectory reference with
    | false =>
      rw [hdirectory] at h
      cases h
    | true =>
      rw [hdirectory] at h
      obtain rfl := Except.ok.inj h
      exact .root
  · rw [if_neg hnil] at h
    obtain ⟨path, hpath, h⟩ := ok_bind h
    obtain rfl := Except.ok.inj h
    obtain ⟨rfl, hok⟩ := portableIdentity_ok hpath hsolid'
    have hsplit := splitOn_joined_solid hnil hsolid'
    rw [← hsplit] at hout
    cases hdirectory : namesDirectory reference with
    | false =>
      simp only [Bool.false_eq_true, if_false, List.append_nil]
      exact .document hok houtPlain hnoDots hout
    | true => exact .directory hok houtPlain hnoDots hout

/-! ## Chains of bases -/

/-- The URI path that the values of `xml:base` lead to. -/
def uriOf (uri : Text) (values : List Text) : Text :=
  values.foldl (fun uri value => Uri.resolvePath uri (Uri.Reference.read value).path) uri

theorem apply_stands {base base' : BasePath} {uri value : Text}
    (hbase : Stands library.unicode base uri) (h : base.apply library value = .ok base') :
    Stands library.unicode base' (Uri.resolvePath uri (Uri.Reference.read value).path) := by
  unfold BasePath.apply at h
  split at h
  · rename_i hnil
    obtain rfl := Except.ok.inj h
    subst hnil
    exact hbase
  · obtain ⟨raw, hraw, h⟩ := ok_bind h
    obtain ⟨hinternal, h⟩ := refuse_bind_ok.mp h
    obtain ⟨_, h⟩ := refuse_bind_ok.mp h
    obtain ⟨resolved, hresolved, h⟩ := ok_bind h
    obtain rfl := Except.ok.inj h
    rw [((splitReference_split hraw).path (Bool.eq_false_iff.mpr hinternal)).2.2]
    exact (resolvePath_stands hbase hresolved).2.1

theorem applyAll_stands {base base' : BasePath} {uri : Text} {values : List Text}
    (hbase : Stands library.unicode base uri)
    (h : values.foldlM (BasePath.apply library) base = .ok base') :
    Stands library.unicode base' (uriOf uri values) := by
  induction values generalizing base uri with
  | nil =>
    obtain rfl := Except.ok.inj h
    exact hbase
  | cons value rest ih =>
    obtain ⟨next, hnext, h⟩ := ok_bind h
    exact ih (apply_stands hbase hnext) h

theorem chain_stands {document : Text} {values raws : List Text} {base : BasePath}
    (hraws : Plain raws) (hdocument : Decoded raws (splitOn '/' document))
    (h : BasePath.chain library document values = .ok base) :
    Stands library.unicode base (uriOf (flat raws) values) := by
  obtain ⟨start, hstart, h⟩ := ok_bind h
  obtain ⟨path, hpath, hstart⟩ := ok_bind hstart
  obtain rfl := Except.ok.inj hstart
  obtain ⟨done, hdone, rfl⟩ := map_ok hpath
  obtain ⟨hname, hok⟩ := canonicalName_ok hdone
  have hsame : done.1 = document := hname
  rw [hsame] at h hok
  have hdots : NoDots raws := by
    intro raw hmem hdot
    obtain ⟨component, hc, hdecode⟩ := exists_of_forall₂ hdocument raw hmem
    obtain ⟨_, hone, htwo⟩ := (hok.components component hc).named
    simp only [Uri.dots, List.mem_cons, List.not_mem_nil, or_false] at hdot
    rcases hdot with rfl | rfl
    · rw [Uri.decode_of_not_mem (by decide)] at hdecode
      exact hone (Option.some.inj hdecode).symm
    · rw [Uri.decode_of_not_mem (by decide)] at hdecode
      exact htwo (Option.some.inj hdecode).symm
  exact applyAll_stands (.document hok hraws hdots hdocument) h

end

/-! ## References -/

/-- Nothing in the path leads out of the container. -/
structure Confined (path : Text) : Prop where
  relative : ¬ ['/'] <+: path
  components : ∀ component ∈ splitOn '/' path,
    component ≠ [] ∧ component ≠ ['.'] ∧ component ≠ ['.', '.']

/-- What an accepted reference says of its value, resolved against the URI path of the base. -/
def Leads (uri value : Text) : Reference → Prop
  | .external target => target = value ∧ (['/', '/'] <+: value ∨
      ∃ scheme, (Uri.Reference.read value).scheme = some scheme ∧
        toAsciiLowercase scheme ∈ ["http".toList, "https".toList, "mailto".toList])
  | .internal path _ => Confined path ∧ (Uri.Reference.read value).scheme = none ∧
      (Uri.Reference.read value).authority = none ∧
      Uri.decode (Uri.resolvePath uri (Uri.Reference.read value).path) = some ('/' :: path)

/-- A relative reference that asks for a segment above the root, or has a segment that is a dot
segment only once it is decoded. -/
def Climbs (uri value : Text) : Prop :=
  (Uri.Reference.read value).scheme = none ∧ (Uri.Reference.read value).authority = none ∧
    (Uri.climbs uri (Uri.Reference.read value).path = true ∨
      ∃ raw ∈ splitOn '/' (Uri.Reference.read value).path, HidesDots raw)

theorem external_not_relative {value : Text} {raw : RawReference} (hsplit : Split value raw)
    (hexternal : raw.isExternal = true) (hscheme : (Uri.Reference.read value).scheme = none) :
    (Uri.Reference.read value).authority ≠ none := by
  rcases hsplit.external hexternal with ⟨rest, rfl⟩ | ⟨scheme, hsome, _⟩
  · exact Option.some_ne_none _
  · rw [hscheme] at hsome
    cases hsome

section
variable {σ : Type} {library : Library σ}

theorem Stands.leads {path uri : Text} {directory : Bool} {unicode : Unicode}
    (h : Stands unicode ⟨path, directory⟩ uri) (hdirectory : directory = false) :
    Confined path ∧ Uri.decode uri = some ('/' :: path) := by
  cases h with
  | directory => cases hdirectory
  | root => cases hdirectory
  | document ok plain dots decoded =>
    refine ⟨⟨ok.relative, fun c hc => (ok.components c hc).named⟩, ?_⟩
    rw [Uri.decode_flat decoded, Uri.flat_splitOn]

theorem targetPath_leads {base : BasePath} {uri reference path : Text}
    (hbase : Stands library.unicode base uri)
    (h : base.targetPath library reference = .ok path) :
    Confined path ∧ Uri.decode (Uri.resolvePath uri reference) = some ('/' :: path) ∧
      Uri.climbs uri reference = false ∧ ∀ raw ∈ splitOn '/' reference, ¬ HidesDots raw := by
  unfold BasePath.targetPath at h
  split at h
  · rename_i hnil
    subst hnil
    obtain ⟨hdirectory, h⟩ := refuse_bind_ok.mp h
    obtain rfl := Except.ok.inj h
    obtain ⟨hconfined, hdecode⟩ := hbase.leads (Bool.eq_false_iff.mpr hdirectory)
    exact ⟨hconfined, hdecode, rfl,
      List.forall_mem_singleton.mpr fun hhides => absurd hhides.1 List.not_mem_nil⟩
  · obtain ⟨resolved, hresolved, h⟩ := ok_bind h
    obtain ⟨hdirectory, h⟩ := refuse_bind_ok.mp h
    obtain rfl := Except.ok.inj h
    obtain ⟨_, hstands, hclimbs, hplain⟩ := resolvePath_stands hbase hresolved
    obtain ⟨hconfined, hdecode⟩ := hstands.leads (Bool.eq_false_iff.mpr hdirectory)
    exact ⟨hconfined, hdecode, hclimbs, hplain⟩

theorem resolve_leads {base : BasePath} {uri value : Text} {reference : Reference}
    (hbase : Stands library.unicode base uri)
    (h : base.resolve library value = .ok reference) :
    Leads uri value reference ∧ ¬ Climbs uri value := by
  obtain ⟨raw, hraw, h⟩ := ok_bind h
  have hsplit := splitReference_split hraw
  split at h
  · rename_i hexternal
    obtain ⟨_, h⟩ := refuse_bind_ok.mp h
    obtain rfl := Except.ok.inj h
    exact ⟨⟨rfl, hsplit.external hexternal⟩,
      fun hclimbs => external_not_relative hsplit hexternal hclimbs.1 hclimbs.2.1⟩
  · rename_i hinternal
    obtain ⟨hscheme, hauthority, hpath⟩ := hsplit.path (Bool.eq_false_iff.mpr hinternal)
    obtain ⟨_, h⟩ := refuse_bind_ok.mp h
    obtain ⟨path, htarget, h⟩ := ok_bind h
    obtain ⟨fragment, _, h⟩ := ok_bind h
    obtain rfl := Except.ok.inj h
    rw [← hpath] at htarget
    obtain ⟨hconfined, hdecode, hstays, hplain⟩ := targetPath_leads hbase htarget
    refine ⟨⟨hconfined, hscheme, hauthority, hdecode⟩, ?_⟩
    rintro ⟨-, -, hclimbs | ⟨segment, hsegment, hhides⟩⟩
    · rw [hstays] at hclimbs
      cases hclimbs
    · exact hplain segment hsegment hhides

/-- Against every base that a document and its `xml:base` values give, a reference is external,
or leads to the path that it has as a URI reference, or is rejected; one that climbs above the
root is rejected. -/
theorem references_confined (library : Library σ) (document : Text) (values raws : List Text)
    (base : BasePath) (hchain : BasePath.chain library document values = .ok base)
    (hraws : Plain raws) (hdocument : Decoded raws (splitOn '/' document)) (value : Text) :
    (∀ reference, base.resolve library value = .ok reference →
      Leads (uriOf (flat raws) values) value reference) ∧
    (Climbs (uriOf (flat raws) values) value → ∃ e, base.resolve library value = .error e) := by
  have hbase := chain_stands hraws hdocument hchain
  refine ⟨fun reference h => (resolve_leads hbase h).1, fun hclimbs => ?_⟩
  cases h : base.resolve library value with
  | error e => exact ⟨e, rfl⟩
  | ok reference => exact absurd hclimbs (resolve_leads hbase h).2

end

def plainLibrary : Library Nat where
  unicode := asciiUnicode
  context := loneContext 100000 64
  world := 0
  nfc := id
  reservedSyntheticOrigin := fun _ => false

/-- A document in a directory below the one that its `xml:base` leads to. -/
theorem references_confined_image :
    ∃ base, BasePath.chain plainLibrary "O/t/a".toList ["../i/".toList] = .ok base ∧
      base.resolve plainLibrary "b%20c#x".toList =
        .ok (.internal "O/i/b c".toList (some ['x'])) ∧
      Leads (uriOf "/O/t/a".toList ["../i/".toList]) "b%20c#x".toList
        (.internal "O/i/b c".toList (some ['x'])) := by
  have hchain : BasePath.chain plainLibrary "O/t/a".toList ["../i/".toList] =
      .ok ⟨"O/i".toList, true⟩ := by decide +kernel
  have hresolve : BasePath.resolve plainLibrary ⟨"O/i".toList, true⟩ "b%20c#x".toList =
      .ok (.internal "O/i/b c".toList (some ['x'])) := by decide +kernel
  have hraws : Plain [['O'], ['t'], ['a']] := by
    simp [Plain]
  have hdocument : Decoded [['O'], ['t'], ['a']] (splitOn '/' "O/t/a".toList) :=
    .cons (Uri.decode_of_not_mem (by decide)) (.cons (Uri.decode_of_not_mem (by decide))
      (.cons (Uri.decode_of_not_mem (by decide)) .nil))
  exact ⟨_, hchain, hresolve, (references_confined plainLibrary "O/t/a".toList ["../i/".toList]
    [['O'], ['t'], ['a']] _ hchain hraws hdocument "b%20c#x".toList).1 _ hresolve⟩

end IntoMarkdown.Epub
