import IntoMarkdown.Lib.Uri
import IntoMarkdown.Epub.Path

/-! # Where references of an EPUB package lead

A reference is resolved as its URI reference is against the URI of its base, or rejected. -/

namespace IntoMarkdown.Epub
open Lib Strings MarkdownCode Paths Converters Zip
open Uri (flat walk walkClimbs Plain NoDots before startingAt)

/-! ## The parts of a reference -/

theorem splitOnce_fst (c : Char) (text : Text) :
    (splitOnce c text).elim text Prod.fst = text.takeWhile (· ≠ c) := by
  unfold splitOnce
  split
  · rfl
  · rename_i hc
    refine (List.takeWhile_eq_self_iff.mpr fun d hd => ?_).symm
    exact decide_eq_true (ne_of_mem_of_not_mem hd hc)

theorem find_append {c : Char} {start : Text} (h : c ∉ start) (rest : Text) :
    find c (start ++ c :: rest) = some start.length := by
  induction start with
  | nil => simp [find, List.findIdx?_cons]
  | cons d start ih =>
    obtain ⟨hd, hstart⟩ := not_or.mp (mt List.mem_cons.mpr h)
    have hnext := ih hstart
    unfold find at hnext ⊢
    simp [List.findIdx?_cons, Ne.symm hd, hnext]

theorem find_cases (c : Char) (text : Text) :
    (c ∉ text ∧ find c text = none) ∨
      ∃ start rest, text = start ++ c :: rest ∧ c ∉ start ∧ find c text = some start.length := by
  by_cases hc : c ∈ text
  · obtain ⟨start, rest, rfl, hstart⟩ := List.eq_append_cons_of_mem hc
    exact .inr ⟨start, rest, rfl, hstart, find_append hstart rest⟩
  · refine .inl ⟨hc, ?_⟩
    rw [find, List.findIdx?_eq_none_iff]
    exact fun d hd => decide_eq_false (ne_of_mem_of_not_mem hd hc)

/-- A colon comes before every slash. -/
def Schemed (path start rest : Text) : Prop := path = start ++ ':' :: rest ∧ ':' ∉ start ∧ '/' ∉ start

theorem external_iff (path : Text) :
    ((find ':' path).any fun colon => (find '/' path).all fun slash => colon < slash) = true ↔
      ∃ start rest, Schemed path start rest := by
  constructor
  · intro h
    rcases find_cases ':' path with ⟨-, hnone⟩ | ⟨start, rest, hpath, hstart, hfind⟩
    · rw [hnone] at h
      cases h
    · refine ⟨start, rest, hpath, hstart, fun hslash => ?_⟩
      rcases find_cases '/' path with ⟨hno, -⟩ | ⟨start', rest', hpath', hstart', hfind'⟩
      · exact hno (hpath ▸ List.mem_append_left _ hslash)
      · rw [hfind, hfind'] at h
        have hlt : start.length < start'.length := by simpa using h
        have hstarts : start <+: start' :=
          List.prefix_of_prefix_length_le ⟨_, hpath.symm⟩ ⟨_, hpath'.symm⟩ hlt.le
        exact hstart' (hstarts.subset hslash)
  · rintro ⟨start, rest, rfl, hstart, hslash⟩
    rw [find_append hstart, Option.any_some]
    rcases find_cases '/' (start ++ ':' :: rest) with ⟨-, hnone⟩ |
      ⟨start', rest', hpath, hstart', hfind⟩
    · rw [hnone]
      rfl
    · rw [hfind]
      simp only [Option.all_some, decide_eq_true_eq]
      by_contra hle
      have hstarts : start' <+: start :=
        List.prefix_of_prefix_length_le ⟨_, hpath.symm⟩ ⟨_, rfl⟩ (Nat.not_lt.mp hle)
      obtain ⟨more, rfl⟩ := hstarts
      rw [List.append_assoc] at hpath
      cases more with
      | nil => simp at hpath
      | cons c more =>
        obtain ⟨rfl, -⟩ := List.cons_eq_cons.mp (List.append_cancel_left hpath)
        exact hslash (by simp)

/-- What an accepted reference is read as. -/
structure Split (value : Text) (raw : RawReference) : Prop where
  nonempty : value ≠ []
  external : raw.isExternal = true → ['/', '/'] <+: value ∨
    ∃ scheme, (Uri.Reference.read value).scheme = some scheme ∧ toAsciiLowercase scheme ∈ schemes
  path : raw.isExternal = false → (Uri.Reference.read value).scheme = none ∧
    (Uri.Reference.read value).authority = none ∧ (Uri.Reference.read value).path = raw.path

theorem before_append {stops : List Char} {start : Text} {c : Char} {rest : Text}
    (h : ∀ d ∈ start, d ∉ stops) (hc : c ∈ stops) :
    before stops (start ++ c :: rest) = start ∧ startingAt stops (start ++ c :: rest) = c :: rest := by
  have hstart : ∀ d ∈ start, (decide (d ∉ stops)) = true := fun d hd => decide_eq_true (h d hd)
  rw [before, startingAt, List.takeWhile_append_of_pos hstart, List.dropWhile_append_of_pos hstart]
  simp [hc]

theorem not_mem_of_mem_before {stops : List Char} {text : Text} {d : Char}
    (h : d ∈ before stops text) : d ∉ stops := by
  unfold before at h
  simpa only [decide_eq_true_eq] using List.mem_takeWhile_imp h

theorem before_eq (value : Text) :
    ((value.takeWhile (· ≠ '#')).takeWhile (· ≠ '?')) = before ['?', '#'] value := by
  rw [List.takeWhile_takeWhile, before]
  congr 1
  funext c
  simp [Bool.and_comm]

theorem readAuthority_none {value : Text} (h : ¬ ['/', '/'] <+: value) :
    Uri.readAuthority value = (none, value) := by
  rw [Uri.readAuthority]
  rintro rest rfl
  exact h ⟨rest, rfl⟩

theorem readScheme_none {value : Text}
    (h : ¬ ∃ start rest, Schemed (before ['?', '#'] value) start rest) :
    Uri.readScheme value = (none, value) := by
  rw [Uri.readScheme]
  split
  · rename_i c name rest hbefore hafter
    have hvalue : value = c :: name ++ ':' :: rest := by
      rw [← hbefore, ← hafter]
      exact List.takeWhile_append_dropWhile.symm
    have hstops : ∀ d ∈ c :: name, d ∉ [':', '/', '?', '#'] := fun d hd =>
      not_mem_of_mem_before (hbefore ▸ hd)
    have hkeep : ∀ d ∈ c :: name ++ [':'], (decide (d ∉ ['?', '#'])) = true := fun d hd => by
      rcases List.mem_append.mp hd with hd | hd
      · have := hstops d hd
        simp only [List.mem_cons, List.not_mem_nil, or_false, not_or] at this
        simp [this.2.2.1, this.2.2.2]
      · rw [List.mem_singleton.mp hd]
        rfl
    refine absurd ⟨c :: name, before ['?', '#'] rest, ?_, fun hd => ?_, fun hd => ?_⟩ h
    · rw [hvalue, before, List.append_cons, List.takeWhile_append_of_pos hkeep, List.append_assoc]
      rfl
    · exact hstops _ hd (by simp)
    · exact hstops _ hd (by simp)
  · rfl

theorem readScheme_some {value start rest : Text} (hne : start ≠ [])
    (h : Schemed (before ['?', '#'] value) start rest) :
    ∃ more, Uri.readScheme value = (some start, more) := by
  obtain ⟨hpath, hcolon, hslash⟩ := h
  have hvalue : value = start ++ ':' :: (rest ++ startingAt ['?', '#'] value) := by
    calc value = before ['?', '#'] value ++ startingAt ['?', '#'] value :=
          List.takeWhile_append_dropWhile.symm
      _ = _ := by rw [hpath, List.append_assoc, List.cons_append]
  have hstops : ∀ d ∈ start, d ∉ [':', '/', '?', '#'] := by
    intro d hd
    have hmem : d ∈ before ['?', '#'] value := by
      rw [hpath]
      exact List.mem_append_left _ hd
    have hkept := not_mem_of_mem_before hmem
    simp only [List.mem_cons, List.not_mem_nil, or_false, not_or] at hkept ⊢
    exact ⟨ne_of_mem_of_not_mem hd hcolon, ne_of_mem_of_not_mem hd hslash, hkept⟩
  obtain ⟨hbefore, hafter⟩ := @before_append [':', '/', '?', '#'] start ':'
    (rest ++ startingAt ['?', '#'] value) hstops (by simp)
  rw [← hvalue] at hbefore hafter
  obtain ⟨c, name, rfl⟩ := List.exists_cons_of_ne_nil hne
  rw [Uri.readScheme, hbefore, hafter]
  exact ⟨_, rfl⟩

theorem splitReference_split {value : Text} {raw : RawReference}
    (h : splitReference value = .ok raw) : Split value raw := by
  obtain ⟨hvalue, h⟩ := refuse_bind_ok.mp h
  simp only [not_or] at hvalue
  by_cases hauthority : ['/', '/'] <+: value
  · rw [if_pos hauthority] at h
    obtain rfl := Except.ok.inj h
    exact ⟨hvalue.1, fun _ => .inl hauthority, fun h => by cases h⟩
  · rw [if_neg hauthority] at h
    simp only [splitOnce_fst, before_eq] at h
    obtain ⟨hscheme, h⟩ := refuse_bind_ok.mp h
    obtain rfl := Except.ok.inj h
    rw [external_iff, not_and, not_not] at hscheme
    refine ⟨hvalue.1, fun hexternal => .inr ?_, fun hinternal => ?_⟩
    · obtain ⟨start, rest, hpath⟩ := (external_iff _).mp hexternal
      have hallowed := hscheme ⟨start, rest, hpath⟩
      rw [hpath.1, find_append hpath.2.1, Option.getD_some, List.take_left] at hallowed
      have hne : start ≠ [] := by
        rintro rfl
        exact absurd hallowed (by decide)
      obtain ⟨more, hread⟩ := readScheme_some hne hpath
      exact ⟨start, congrArg Prod.fst hread, hallowed⟩
    · have hnone := readScheme_none fun hpath => by
        rw [(external_iff _).mpr hpath] at hinternal
        cases hinternal
      simp only [Uri.Reference.read, hnone, readAuthority_none hauthority]
      exact ⟨trivial, trivial, trivial⟩

/-! ## Percent escapes -/

theorem hex_eq {byte value : UInt8} (h : hex byte = .ok value) :
    Uri.hexValue byte = some value.toNat := by
  have hall : ∀ n : Fin 256,
      (hex (UInt8.ofNat n)).toOption.map UInt8.toNat = Uri.hexValue (UInt8.ofNat n) := by
    decide +kernel
  have hbyte := hall ⟨byte.toNat, byte.toNat_lt⟩
  rw [UInt8.ofNat_toNat, h] at hbyte
  exact hbyte.symm

theorem escapedByte_eq {high low byte : UInt8} {detail : String}
    (h : escapedByte high low detail = .ok byte) :
    ∃ a b, Uri.hexValue high = some a ∧ Uri.hexValue low = some b ∧
      byte = UInt8.ofNat (16 * a + b) := by
  obtain ⟨a, hhigh, h⟩ := ok_bind h
  obtain ⟨_, h⟩ := refuse_bind_ok.mp h
  obtain ⟨b, hlow, h⟩ := ok_bind h
  obtain ⟨_, h⟩ := refuse_bind_ok.mp h
  obtain rfl := Except.ok.inj h
  have hlow : hex low = .ok b := by
    cases hhex : hex low with
    | error e =>
      rw [hhex] at hlow
      cases hlow
    | ok value =>
      rw [hhex] at hlow
      exact hlow
  refine ⟨a.toNat, b.toNat, hex_eq hhigh, hex_eq hlow, ?_⟩
  apply UInt8.toNat.inj
  rw [UInt8.toNat_add, UInt8.toNat_mul, UInt8.toNat_ofNat']
  simp only [UInt8.reduceToNat]
  omega

theorem percentBytes_unescape {bytes decoded : List UInt8} (h : percentBytes bytes = .ok decoded) :
    Uri.unescape bytes = some decoded := by
  induction bytes using percentBytes.induct generalizing decoded with
  | case1 =>
    obtain rfl := Except.ok.inj h
    rfl
  | case2 => cases h
  | case3 => cases h
  | case4 high low rest ih =>
    rw [percentBytes] at h
    obtain ⟨byte, hbyte, h⟩ := ok_bind h
    obtain ⟨_, h⟩ := refuse_bind_ok.mp h
    obtain ⟨more, hrest, h⟩ := ok_bind h
    obtain rfl := Except.ok.inj h
    obtain ⟨a, b, ha, hb, rfl⟩ := escapedByte_eq hbyte
    rw [Uri.unescape, ha, hb, Option.bind_some, Option.bind_some, ih hrest, Option.map_some]
  | case5 byte rest hone htwo hmore ih =>
    rw [percentBytes] at h
    · obtain ⟨more, hrest, h⟩ := ok_bind h
      obtain rfl := Except.ok.inj h
      have hbyte : byte ≠ 37 := by
        rintro rfl
        rcases rest with _ | ⟨high, _ | ⟨low, rest⟩⟩
        · exact hone rfl rfl
        · exact htwo high rfl rfl
        · exact hmore high low rest rfl rfl
      rw [Uri.unescape_cons hbyte, ih hrest, Option.map_some]
    · exact hone
    · exact htwo
    · exact hmore

theorem percentDecode_decode {raw component : Text} (h : percentDecode raw = .ok component) :
    Uri.decode raw = some component := by
  obtain ⟨bytes, hbytes, h⟩ := ok_bind h
  unfold fromUtf8 at h
  rw [Uri.decode, percentBytes_unescape hbytes, Option.bind_some]
  cases hdecode : Utf8.decode bytes with
  | none =>
    rw [hdecode] at h
    cases h
  | some text =>
    rw [hdecode] at h
    exact congrArg some (Except.ok.inj h)

theorem percentDecode_plain {raw component : Text} (h : percentDecode raw = .ok component)
    (hraw : '%' ∉ raw) : component = raw := by
  have hdecode := percentDecode_decode h
  rw [Uri.decode_of_not_mem hraw] at hdecode
  exact (Option.some.inj hdecode).symm

/-! ## The walk over the parts -/

/-- The raw segments that the components were decoded from. -/
def Decoded (raws components : List Text) : Prop :=
  List.Forall₂ (fun raw component => Uri.decode raw = some component) raws components

theorem Decoded.dropLast {raws components : List Text} (h : Decoded raws components) :
    Decoded raws.dropLast components.dropLast := by
  rw [List.dropLast_eq_take, List.dropLast_eq_take, h.length_eq]
  exact List.forall₂_take _ h

theorem Decoded.append {raws components more parts : List Text} (h : Decoded raws components)
    (hmore : Decoded more parts) : Decoded (raws ++ more) (components ++ parts) :=
  List.rel_append h hmore

/-- The last part stands for a directory. -/
def EndsDirectory (parts : List Text) : Prop :=
  parts.getLast? = some [] ∨ parts.getLast? = some ['.'] ∨ parts.getLast? = some ['.', '.']

/-- A part that only its decoding makes a dot segment. -/
def HidesDots (raw : Text) : Prop :=
  '%' ∈ raw ∧ (Uri.decode raw = some ['.'] ∨ Uri.decode raw = some ['.', '.'])

/-- What the accepted parts of a reference did to the raw segments. -/
structure Walked (directory : Bool) (parts out components : List Text) : Prop where
  stays : walkClimbs parts out = false
  plain : ∀ raw ∈ parts, ¬ HidesDots raw
  result : ∃ out', Decoded out' components ∧ NoDots out' ∧ Plain out' ∧
    walk parts out = out' ++ if directory then [[]] else []

theorem endsDirectory_cons {raw : Text} {rest : List Text} (h : rest ≠ []) :
    EndsDirectory (raw :: rest) ↔ EndsDirectory rest := by
  rw [EndsDirectory, EndsDirectory, List.getLast?_cons_of_ne_nil h]

theorem resolveParts_nil {directory : Bool} {components components' : List Text}
    (h : resolveParts directory [] components = .ok components') : components' = components :=
  (Except.ok.inj h).symm

/-- The loop walks over the raw segments, and never climbs. -/
theorem resolveParts_walked {directory : Bool} {parts out components components' : List Text}
    (h : resolveParts directory parts components = .ok components')
    (hout : Decoded out components) (hdots : NoDots out) (hplain : Plain out)
    (hparts : Plain parts) (hne : parts ≠ [])
    (hend : directory = true ↔ EndsDirectory parts) : Walked directory parts out components' := by
  induction parts generalizing out components with
  | nil => exact absurd rfl hne
  | cons raw rest ih =>
    obtain ⟨hslash, hrest⟩ := List.forall_mem_cons.mp hparts
    rw [resolveParts] at h
    by_cases hraw : raw = []
    · subst hraw
      rw [if_pos rfl] at h
      split at h
      · rename_i hlast
        obtain ⟨hdirectory, rfl⟩ := hlast
        obtain rfl := resolveParts_nil h
        refine ⟨by simp [walkClimbs], ?_, out, hout, hdots, hplain, by simp [walk, hdirectory]⟩
        exact List.forall_mem_singleton.mpr fun hhides => absurd hhides.1 List.not_mem_nil
      · cases h
    · rw [if_neg hraw] at h
      obtain ⟨component, hdecode, hchecked⟩ := ok_bind h
      obtain ⟨hhidden, hnext⟩ := refuse_bind_ok.mp hchecked
      clear h hchecked
      have hcomponent := percentDecode_decode hdecode
      have hopen : ¬ HidesDots raw := by
        rw [HidesDots, hcomponent, Option.some_inj, Option.some_inj]
        exact hhidden
      have hsame : component = ['.'] ∨ component = ['.', '.'] → raw = component := fun hdot =>
        (percentDecode_plain hdecode fun hpercent => hhidden ⟨hpercent, hdot⟩).symm
      by_cases hd : component = ['.']
      · obtain rfl : raw = ['.'] := (hsame (.inl hd)).trans hd
        rw [if_pos hd] at hnext
        by_cases hr : rest = []
        · subst hr
          obtain rfl := resolveParts_nil hnext
          have hdirectory : directory = true := hend.mpr (.inr (.inl rfl))
          exact ⟨by simp [walkClimbs], List.forall_mem_singleton.mpr hopen, out, hout, hdots, hplain,
            by simp [walk, hdirectory]⟩
        · have hwalked := ih hnext hout hdots hplain hrest hr (hend.trans (endsDirectory_cons hr))
          exact ⟨hwalked.stays, List.forall_mem_cons.mpr ⟨hopen, hwalked.plain⟩,
            by simpa only [walk, if_pos, if_neg hr] using hwalked.result⟩
      · rw [if_neg hd] at hnext
        by_cases hdd : component = ['.', '.']
        · obtain rfl : raw = ['.', '.'] := (hsame (.inr hdd)).trans hdd
          rw [if_pos hdd] at hnext
          obtain ⟨hinside, hrest'⟩ := refuse_bind_ok.mp hnext
          clear hnext
          have hout' : out ≠ [] := by
            rintro rfl
            exact hinside (List.forall₂_nil_left_iff.mp hout)
          have hdots' : NoDots out.dropLast := fun segment hmem =>
            hdots segment (List.dropLast_subset _ hmem)
          have hplain' : Plain out.dropLast := Uri.plain_dropLast hplain
          by_cases hr : rest = []
          · subst hr
            obtain rfl := resolveParts_nil hrest'
            have hdirectory : directory = true := hend.mpr (.inr (.inr rfl))
            exact ⟨by simp [walkClimbs, hout'], List.forall_mem_singleton.mpr hopen, out.dropLast,
              hout.dropLast, hdots', hplain', by simp [walk, hdirectory]⟩
          · have hwalked := ih hrest' hout.dropLast hdots' hplain' hrest hr
              (hend.trans (endsDirectory_cons hr))
            exact ⟨by simpa [walkClimbs, hout'] using hwalked.stays,
              List.forall_mem_cons.mpr ⟨hopen, hwalked.plain⟩,
              by simpa [walk, hr] using hwalked.result⟩
        · rw [if_neg hdd] at hnext
          have hdot : raw ≠ ['.'] := by
            rintro rfl
            exact hd (percentDecode_plain hdecode (by decide))
          have hdots2 : raw ≠ ['.', '.'] := by
            rintro rfl
            exact hdd (percentDecode_plain hdecode (by decide))
          have hout' : Decoded (out ++ [raw]) (components ++ [component]) :=
            hout.append (.cons hcomponent .nil)
          have hnoDots : NoDots (out ++ [raw]) := fun segment hmem =>
            (List.mem_append.mp hmem).elim (hdots segment) fun hlast => by
              rw [List.mem_singleton.mp hlast]
              simp [Uri.dots, hdot, hdots2]
          have hplain' : Plain (out ++ [raw]) :=
            Uri.plain_append hplain (List.forall_mem_singleton.mpr hslash)
          by_cases hr : rest = []
          · subst hr
            obtain rfl := resolveParts_nil hnext
            have hdirectory : directory = false := Bool.eq_false_iff.mpr fun htrue => by
              have := hend.mp htrue
              simp [EndsDirectory, hraw, hdot, hdots2] at this
            exact ⟨by simp [walkClimbs, hdot, hdots2], List.forall_mem_singleton.mpr hopen,
              out ++ [raw], hout', hnoDots, hplain', by simp [walk, hdot, hdots2, hdirectory]⟩
          · have hwalked := ih hnext hout' hnoDots hplain' hrest hr
              (hend.trans (endsDirectory_cons hr))
            exact ⟨by simpa [walkClimbs, hdot, hdots2] using hwalked.stays,
              List.forall_mem_cons.mpr ⟨hopen, hwalked.plain⟩,
              by simpa [walk, hdot, hdots2] using hwalked.result⟩

/-! ## Components -/

/-- Components that a path can be joined from. -/
def Solid (components : List Text) : Prop := ∀ component ∈ components, component ≠ [] ∧ '/' ∉ component

theorem percentBytes_solid {bytes decoded : List UInt8} (h : percentBytes bytes = .ok decoded) :
    (decoded = [] → bytes = []) ∧ (47 ∈ decoded → 47 ∈ bytes) := by
  induction bytes using percentBytes.induct generalizing decoded with
  | case1 =>
    obtain rfl := Except.ok.inj h
    exact ⟨id, id⟩
  | case2 => cases h
  | case3 => cases h
  | case4 high low rest ih =>
    rw [percentBytes] at h
    obtain ⟨byte, _, h⟩ := ok_bind h
    obtain ⟨hseparator, h⟩ := refuse_bind_ok.mp h
    obtain ⟨more, hrest, h⟩ := ok_bind h
    obtain rfl := Except.ok.inj h
    refine ⟨fun hnil => absurd hnil (List.cons_ne_nil _ _), fun hmem => ?_⟩
    rcases List.mem_cons.mp hmem with hbyte | hmem
    · exact absurd (.inl hbyte.symm) hseparator
    · have := (ih hrest).2 hmem
      simp [this]
  | case5 byte rest hone htwo hmore ih =>
    rw [percentBytes] at h
    · obtain ⟨more, hrest, h⟩ := ok_bind h
      obtain rfl := Except.ok.inj h
      refine ⟨fun hnil => absurd hnil (List.cons_ne_nil _ _), fun hmem => ?_⟩
      rcases List.mem_cons.mp hmem with hbyte | hmem
      · exact List.mem_cons.mpr (.inl hbyte)
      · exact List.mem_cons.mpr (.inr ((ih hrest).2 hmem))
    · exact hone
    · exact htwo
    · exact hmore

theorem percentDecode_solid {raw component : Text} (h : percentDecode raw = .ok component)
    (hraw : raw ≠ []) (hslash : '/' ∉ raw) : component ≠ [] ∧ '/' ∉ component := by
  obtain ⟨bytes, hbytes, h⟩ := ok_bind h
  obtain ⟨hnil, hmem⟩ := percentBytes_solid hbytes
  have hdecode : Utf8.decode bytes = some component := by
    unfold fromUtf8 at h
    cases hdecode : Utf8.decode bytes with
    | none =>
      rw [hdecode] at h
      cases h
    | some text =>
      rw [hdecode] at h
      exact congrArg some (Except.ok.inj h)
  obtain rfl := Utf8.encode_of_decode hdecode
  constructor
  · rintro rfl
    have hempty := congrArg Utf8.decode (hnil rfl)
    rw [Utf8.decode_encode] at hempty
    exact hraw (Option.some.inj (hempty.trans (Utf8.decode_encode [])))
  · intro hin
    have hbyte : (47 : UInt8) ∈ Utf8.encode component :=
      List.mem_flatMap.mpr ⟨'/', hin, by decide +kernel⟩
    obtain ⟨c, hc, hchar⟩ := List.mem_flatMap.mp (hmem hbyte)
    have hnat : c.toNat = '/'.toNat := Utf8.toNat_of_mem hchar (by decide)
    rw [Char.toNat_inj.mp hnat] at hc
    exact hslash hc

theorem resolveParts_solid {directory : Bool} {parts components components' : List Text}
    (h : resolveParts directory parts components = .ok components') (hparts : Plain parts)
    (hcomponents : Solid components) : Solid components' := by
  induction parts generalizing components with
  | nil =>
    obtain rfl := resolveParts_nil h
    exact hcomponents
  | cons raw rest ih =>
    obtain ⟨hslash, hrest⟩ := List.forall_mem_cons.mp hparts
    rw [resolveParts] at h
    split at h
    · split at h
      · exact ih h hrest hcomponents
      · cases h
    · rename_i hraw
      obtain ⟨component, hdecode, h⟩ := ok_bind h
      obtain ⟨_, h⟩ := refuse_bind_ok.mp h
      split at h
      · exact ih h hrest hcomponents
      · split at h
        · obtain ⟨_, h⟩ := refuse_bind_ok.mp h
          exact ih h hrest fun c hc => hcomponents c (List.dropLast_subset _ hc)
        · refine ih h hrest fun c hc => (List.mem_append.mp hc).elim (hcomponents c) fun hlast => ?_
          rw [List.mem_singleton.mp hlast]
          exact percentDecode_solid hdecode hraw hslash

/-- A joined path has no slash at its end. -/
theorem not_slash_suffix {components : List Text} (h : Solid components) :
    ¬ ['/'] <:+ joined '/' components := by
  rintro ⟨start, heq⟩
  have hlast : (joined '/' components).getLast? = some '/' := by
    rw [← heq, List.getLast?_concat]
  induction components using List.reverseRecOn with
  | nil => cases hlast
  | append_singleton init last _ =>
    obtain ⟨hne, hslash⟩ := h last (by simp)
    have hend : (joined '/' (init ++ [last])).getLast? = last.getLast? := by
      by_cases hinit : init = []
      · rw [hinit, List.nil_append, joined_singleton]
      · rw [joined_concat hinit, List.append_cons, List.getLast?_append_of_ne_nil _ hne]
    rw [hend] at hlast
    exact hslash (List.mem_of_getLast? hlast)

theorem splitOn_joined_solid {components : List Text} (hne : components ≠ [])
    (h : Solid components) : splitOn '/' (joined '/' components) = components :=
  splitOn_joined_parts hne fun c hc => (h c hc).2

section
variable {σ : Type} {library : Library σ}

theorem portableIdentity_ok {components : List Text} {directory : Bool} {path : Text}
    (h : portableIdentity library (joined '/' components) directory = .ok path)
    (hsolid : Solid components) : path = joined '/' components ∧ NameOk library.unicode path := by
  obtain ⟨done, hdone, rfl⟩ := map_ok h
  obtain ⟨hname, hok⟩ := canonicalName_ok hdone
  refine ⟨hname.trans ?_, hok⟩
  cases directory with
  | false => rfl
  | true =>
    rw [if_pos rfl, stripName, stripSuffix, if_neg (not_slash_suffix hsolid), Option.getD_none]

end

end IntoMarkdown.Epub
