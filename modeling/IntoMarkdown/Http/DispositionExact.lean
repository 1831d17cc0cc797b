import IntoMarkdown.Lib.Paths
import IntoMarkdown.Http.HeaderValues

/-! # Content-Disposition by its grammar

The loop over the pieces keeps what the parameters so far give; a value is derivable with
these parameters exactly if each piece is clean. -/

namespace IntoMarkdown.Http
open Lib

/-! ## The loop -/

def parameterOf (piece : Text) : Option (Text × Text) := splitOnce '=' (trim piece)

/-- The check of one parameter. -/
structure Accepted (p : Text × Text) : Prop where
  name : p.1.all isTokenChar = true
  extended : lower p.1 = "filename*".toList → ∃ value, decodeRfc5987 p.2 = .ok value
  plain : lower p.1 = "filename".toList → ∃ value, decodeQuotedOrToken p.2 = .ok value

/-- What the loop knows after some parameters. -/
structure Recorded (parameters : List (Text × Text)) (seen : Disposition) : Prop where
  names : ∀ name, name ∈ seen.names ↔ ∃ p ∈ parameters, lower p.1 = name
  accepted : ∀ p ∈ parameters, Accepted p
  extended : ∀ value, seen.extended = some value ↔
    ∃ p ∈ parameters, lower p.1 = "filename*".toList ∧ decodeRfc5987 p.2 = .ok value
  plain : ∀ value, seen.plain = some value ↔
    ∃ p ∈ parameters, lower p.1 = "filename".toList ∧ decodeQuotedOrToken p.2 = .ok value

theorem recorded_nil : Recorded [] ⟨none, none, []⟩ where
  names := by simp
  accepted := by simp
  extended := by simp
  plain := by simp

theorem exists_mem_concat {α : Type} {as : List α} {a : α} {P : α → Prop} :
    (∃ b ∈ as ++ [a], P b) ↔ (∃ b ∈ as, P b) ∨ P a := by
  simp only [List.mem_append, List.mem_singleton, or_and_right, exists_or, exists_eq_left]

/-- What one turn does with a parameter. -/
theorem dispositionParameter_ok {seen next : Disposition} {piece : Text}
    (h : dispositionParameter seen piece = .ok next) (hne : trim piece ≠ []) :
    ∃ name raw, parameterOf piece = some (name, raw) ∧ lower name ∉ seen.names ∧
      name.all isTokenChar = true ∧ next.names = lower name :: seen.names ∧
      ((lower name = "filename*".toList ∧ next.plain = seen.plain ∧
          ∃ value, decodeRfc5987 raw = .ok value ∧ next.extended = some value) ∨
        (lower name = "filename".toList ∧ next.extended = seen.extended ∧
          ∃ value, decodeQuotedOrToken raw = .ok value ∧ next.plain = some value) ∨
        (lower name ≠ "filename*".toList ∧ lower name ≠ "filename".toList ∧
          next.plain = seen.plain ∧ next.extended = seen.extended)) := by
  simp only [dispositionParameter, if_neg hne] at h
  obtain ⟨⟨name, raw⟩, hsplit, h⟩ := ok_bind h
  obtain ⟨_, hreject, h⟩ := ok_bind h
  obtain ⟨hnew, htoken⟩ := not_or.mp (reject_ok hreject)
  rw [Bool.not_eq_true', Bool.not_eq_false, all_isToken, all_isTokenChar_lower] at htoken
  refine ⟨name, raw, orInvalid_ok hsplit, hnew, htoken, ?_⟩
  split at h
  · rename_i hextended
    obtain ⟨value, hvalue, h⟩ := ok_bind h
    obtain rfl := Except.ok.inj h
    exact ⟨rfl, .inl ⟨hextended, rfl, value, hvalue, rfl⟩⟩
  · rename_i hextended
    split at h
    · rename_i hplain
      obtain ⟨value, hvalue, h⟩ := ok_bind h
      obtain rfl := Except.ok.inj h
      exact ⟨rfl, .inr (.inl ⟨hplain, rfl, value, hvalue, rfl⟩)⟩
    · rename_i hplain
      obtain ⟨_, hvalid, h⟩ := ok_bind h
      obtain rfl := Except.ok.inj h
      exact ⟨rfl, .inr (.inr ⟨hextended, hplain, rfl, rfl⟩)⟩

theorem dispositionParameter_empty {seen next : Disposition} {piece : Text}
    (h : dispositionParameter seen piece = .ok next) (hempty : trim piece = []) : next = seen := by
  simp only [dispositionParameter, if_pos hempty] at h
  exact (Except.ok.inj h).symm

theorem recorded_step {parameters : List (Text × Text)} {seen next : Disposition} {piece : Text}
    (hseen : Recorded parameters seen) (h : dispositionParameter seen piece = .ok next)
    (hne : trim piece ≠ []) :
    ∃ p, parameterOf piece = some p ∧ Recorded (parameters ++ [p]) next := by
  obtain ⟨name, raw, hpiece, hnew, htoken, hnames, hcases⟩ := dispositionParameter_ok h hne
  refine ⟨(name, raw), hpiece, ?_⟩
  have hmem : ∀ n, n ∈ next.names ↔ ∃ p ∈ parameters ++ [(name, raw)], lower p.1 = n := by
    intro n
    rw [hnames, List.mem_cons, exists_mem_concat, hseen.names, or_comm]
    exact or_congr_right eq_comm
  have hother : ∀ p ∈ parameters, lower p.1 ≠ lower name := fun p hp heq =>
    hnew ((hseen.names _).mpr ⟨p, hp, heq⟩)
  have haccepted : Accepted (name, raw) →
      ∀ p ∈ parameters ++ [(name, raw)], Accepted p := by
    intro hnow p hp
    rcases List.mem_append.mp hp with hp | hp
    · exact hseen.accepted p hp
    · rwa [List.mem_singleton.mp hp]
  rcases hcases with ⟨hextended, hplain, value, hvalue, hnext⟩ |
    ⟨hplain, hextended, value, hvalue, hnext⟩ | ⟨hne₁, hne₂, hplain, hextended⟩
  · have hdiffer : lower name ≠ "filename".toList := by rw [hextended]; decide
    refine ⟨hmem, haccepted ⟨htoken, fun _ => ⟨value, hvalue⟩, fun heq => absurd heq hdiffer⟩,
      fun v => ?_, fun v => ?_⟩
    · rw [hnext, exists_mem_concat]
      constructor
      · intro hv
        obtain rfl := Option.some.inj hv
        exact .inr ⟨hextended, hvalue⟩
      · rintro (⟨p, hp, hname, -⟩ | ⟨-, hv⟩)
        · exact absurd (hname.trans hextended.symm) (hother p hp)
        · exact congrArg some (Except.ok.inj (hvalue.symm.trans hv))
    · rw [hplain, exists_mem_concat, hseen.plain]
      exact ⟨.inl, fun hv => hv.resolve_right fun hname => hdiffer hname.1⟩
  · have hdiffer : lower name ≠ "filename*".toList := by rw [hplain]; decide
    refine ⟨hmem, haccepted ⟨htoken, fun heq => absurd heq hdiffer, fun _ => ⟨value, hvalue⟩⟩,
      fun v => ?_, fun v => ?_⟩
    · rw [hextended, exists_mem_concat, hseen.extended]
      exact ⟨.inl, fun hv => hv.resolve_right fun hname => hdiffer hname.1⟩
    · rw [hnext, exists_mem_concat]
      constructor
      · intro hv
        obtain rfl := Option.some.inj hv
        exact .inr ⟨hplain, hvalue⟩
      · rintro (⟨p, hp, hname, -⟩ | ⟨-, hv⟩)
        · exact absurd (hname.trans hplain.symm) (hother p hp)
        · exact congrArg some (Except.ok.inj (hvalue.symm.trans hv))
  · refine ⟨hmem, haccepted ⟨htoken, fun heq => absurd heq hne₁, fun heq => absurd heq hne₂⟩,
      fun v => ?_, fun v => ?_⟩
    · rw [hextended, exists_mem_concat, hseen.extended]
      exact ⟨.inl, fun hv => hv.resolve_right fun hname => hne₁ hname.1⟩
    · rw [hplain, exists_mem_concat, hseen.plain]
      exact ⟨.inl, fun hv => hv.resolve_right fun hname => hne₂ hname.1⟩

/-- A piece is blank or has a parameter. -/
def Readable (piece : Text) : Prop := trim piece = [] ∨ ∃ p, parameterOf piece = some p

theorem recorded_run {pieces : List Text} {parameters : List (Text × Text)}
    {seen last : Disposition} (hseen : Recorded parameters seen)
    (h : pieces.foldlM dispositionParameter seen = .ok last) :
    (∀ piece ∈ pieces, Readable piece) ∧ Recorded (parameters ++ taken pieces) last := by
  induction pieces generalizing parameters seen with
  | nil =>
    obtain rfl := Except.ok.inj h
    rw [taken, List.filterMap_nil, List.append_nil]
    exact ⟨fun piece hpiece => absurd hpiece List.not_mem_nil, hseen⟩
  | cons piece pieces ih =>
    rw [List.foldlM_cons] at h
    obtain ⟨next, hnext, hrun⟩ := ok_bind h
    by_cases hempty : trim piece = []
    · obtain rfl := dispositionParameter_empty hnext hempty
      obtain ⟨hpieces, hlast⟩ := ih hseen hrun
      have htaken : taken (piece :: pieces) = taken pieces := by
        rw [taken, List.filterMap_cons, hempty]
        rfl
      rw [htaken]
      exact ⟨List.forall_mem_cons.mpr ⟨.inl hempty, hpieces⟩, hlast⟩
    · obtain ⟨p, hp, hrecorded⟩ := recorded_step hseen hnext hempty
      obtain ⟨hpieces, hlast⟩ := ih hrecorded hrun
      have htaken : taken (piece :: pieces) = p :: taken pieces :=
        List.filterMap_cons_some hp
      rw [htaken, List.append_cons]
      exact ⟨List.forall_mem_cons.mpr ⟨.inr ⟨p, hp⟩, hpieces⟩, hlast⟩

/-! ## Segments of clean pieces -/

theorem all_isBlank {text : Text} (h : text.all isBlank = true) :
    ∀ c ∈ text, c ≠ ';' ∧ isWhiteSpace c = true :=
  fun c hc => isBlank_not (List.all_eq_true.mp h c hc)

theorem clean_value {p : Text × Text} (h : cleanParameter p = true) :
    ∃ v : ParameterValue, v.Valid ∧ v.text = p.2 := by
  rw [cleanParameter, Bool.and_eq_true, Bool.or_eq_true, Bool.and_eq_true] at h
  rcases h.2 with htoken | ⟨-, hquoted⟩
  · exact ⟨.token p.2, isTokenText_iff.mp htoken, rfl⟩
  · obtain ⟨inner, hinner, hwell⟩ := (Option.any_eq_true _ _).mp hquoted
    obtain ⟨htext, hvalid⟩ := quotedParts_of hwell
    refine ⟨.quoted (quotedParts inner), hvalid, ?_⟩
    rw [ParameterValue.text, htext, unquoted_some hinner]

theorem cleanPiece_iff {piece : Text} : cleanPiece piece = true ↔
    (leading piece).all isBlank = true ∧ (trailing piece).all isBlank = true ∧
      ∀ p ∈ parameterOf piece, cleanParameter p = true := by
  rw [cleanPiece, Bool.and_eq_true, Bool.and_eq_true, Option.all_eq_true, and_assoc]
  rfl

theorem segment_of {piece : Text} (h : cleanPiece piece = true) (hread : Readable piece)
    (hname : ∀ p ∈ parameterOf piece, p.1.all isTokenChar = true) :
    ∃ s : Segment, s.Valid ∧ s.text = piece ∧
      s.parameter.map (fun p => (p.name, p.value.text)) = parameterOf piece := by
  obtain ⟨hleading, htrailing, hclean⟩ := cleanPiece_iff.mp h
  rcases hread with hempty | ⟨⟨name, raw⟩, hp⟩
  · refine ⟨⟨leading piece, none, trailing piece⟩, ⟨hleading, htrailing, by simp⟩, ?_, ?_⟩
    · have hpiece := piece_eq piece
      rwa [hempty] at hpiece
    · rw [parameterOf, hempty]
      rfl
  · obtain ⟨v, hvalid, htext⟩ := clean_value (hclean _ hp)
    have hnonempty : name ≠ [] := by
      have hclean := hclean _ hp
      rw [cleanParameter, Bool.and_eq_true, decide_eq_true_eq] at hclean
      exact hclean.1
    refine ⟨⟨leading piece, some ⟨name, v⟩, trailing piece⟩,
      ⟨hleading, htrailing, ?_⟩, ?_, ?_⟩
    · intro p hmem
      obtain rfl := Option.some.inj hmem
      exact ⟨⟨hnonempty, List.all_eq_true.mp (hname _ hp)⟩, hvalid⟩
    · have hpiece := piece_eq piece
      rw [splitOnce_some hp] at hpiece
      rw [Segment.text, Option.elim_some, Parameter.text, htext]
      exact hpiece
    · rw [hp, Option.map_some, htext]

theorem segments_of {pieces : List Text} (h : ∀ piece ∈ pieces, cleanPiece piece = true)
    (hread : ∀ piece ∈ pieces, Readable piece)
    (hname : ∀ p ∈ taken pieces, p.1.all isTokenChar = true) :
    ∃ segments : List Segment, (∀ s ∈ segments, s.Valid) ∧ segments.map Segment.text = pieces ∧
      taken pieces =
        (segments.filterMap Segment.parameter).map fun p => (p.name, p.value.text) := by
  induction pieces with
  | nil => exact ⟨[], by simp, rfl, rfl⟩
  | cons piece pieces ih =>
    obtain ⟨hpiece, hpieces⟩ := List.forall_mem_cons.mp h
    obtain ⟨hread, hreads⟩ := List.forall_mem_cons.mp hread
    have hnow : ∀ p ∈ parameterOf piece, p.1.all isTokenChar = true := by
      intro p hp
      exact hname p (List.mem_filterMap.mpr ⟨piece, List.mem_cons_self, hp⟩)
    have hlater : ∀ p ∈ taken pieces, p.1.all isTokenChar = true := by
      intro p hp
      obtain ⟨q, hq, hp⟩ := List.mem_filterMap.mp hp
      exact hname p (List.mem_filterMap.mpr ⟨q, List.mem_cons_of_mem _ hq, hp⟩)
    obtain ⟨s, hvalid, htext, hs⟩ := segment_of hpiece hread hnow
    obtain ⟨segments, hvalids, htexts, htaken⟩ := ih hpieces hreads hlater
    refine ⟨s :: segments, List.forall_mem_cons.mpr ⟨hvalid, hvalids⟩, ?_, ?_⟩
    · rw [List.map_cons, htext, htexts]
    · cases hp : s.parameter with
      | none =>
        rw [hp] at hs
        rw [List.filterMap_cons_none hp, ← htaken]
        exact List.filterMap_cons_none hs.symm
      | some p =>
        rw [hp] at hs
        rw [List.filterMap_cons_some hp, List.map_cons, ← htaken]
        exact List.filterMap_cons_some hs.symm

theorem isToken_type {type : Text}
    (h : lower type ∈ ["attachment", "inline"].map String.toList) : IsToken type := by
  have htoken : (lower type).all isTokenChar = true ∧ lower type ≠ [] := by
    have hall : ∀ word ∈ ["attachment", "inline"].map String.toList,
        word.all isTokenChar = true ∧ word ≠ [] := by decide +kernel
    exact hall (lower type) h
  rw [all_isTokenChar_lower] at htoken
  refine ⟨?_, List.all_eq_true.mp htoken.1⟩
  intro hnil
  rw [hnil] at htoken
  exact htoken.2 rfl

/-! ## Names -/

theorem names_of {parameters : List Parameter} {last : Disposition}
    (h : Recorded (parameters.map fun p => (p.name, p.value.text)) last)
    (hvalid : ∀ p ∈ parameters, p.value.Valid) :
    Names parameters (last.extended.or last.plain) := by
  have hmem : ∀ p ∈ parameters,
      (p.name, p.value.text) ∈ parameters.map fun p => (p.name, p.value.text) :=
    fun p hp => List.mem_map.mpr ⟨p, hp, rfl⟩
  cases hextended : last.extended with
  | some value =>
    obtain ⟨q, hq, hname, hdecode⟩ := (h.extended value).mp hextended
    obtain ⟨p, hp, rfl⟩ := List.mem_map.mp hq
    exact .inl ⟨p, hp, hname, value, decodeRfc5987_extended hdecode, rfl⟩
  | none =>
    refine .inr ⟨fun p hp hname => ?_, ?_⟩
    · obtain ⟨value, hdecode⟩ := (h.accepted _ (hmem p hp)).extended hname
      have hsome := (h.extended value).mpr ⟨_, hmem p hp, hname, hdecode⟩
      rw [hextended] at hsome
      cases hsome
    · rw [Option.none_or]
      cases hplain : last.plain with
      | some value =>
        obtain ⟨q, hq, hname, hdecode⟩ := (h.plain value).mp hplain
        obtain ⟨p, hp, rfl⟩ := List.mem_map.mp hq
        refine .inl ⟨p, hp, hname, ?_⟩
        rw [decodeQuotedOrToken_content (hvalid p hp) hdecode]
      | none =>
        refine .inr ⟨fun p hp hname => ?_, rfl⟩
        obtain ⟨value, hdecode⟩ := (h.accepted _ (hmem p hp)).plain hname
        have hsome := (h.plain value).mpr ⟨_, hmem p hp, hname, hdecode⟩
        rw [hplain] at hsome
        cases hsome

section
variable {nfc : Text → Text}

theorem portableFilename_ok {value name : Text} (h : portableFilename nfc value = .ok name) :
    name = value ∧ PortableName nfc name := by
  obtain ⟨_, hreject, h⟩ := ok_bind h
  obtain rfl := Except.ok.inj h
  have hgood := reject_ok hreject
  simp only [not_or] at hgood
  obtain ⟨hnonempty, hshort, hnormal, hstart, hstop, hcharacters, hdevice⟩ := hgood
  have heq : nfc value = value := not_not.mp hnormal
  rw [heq] at hnonempty hshort hstart hstop hcharacters hdevice ⊢
  simp only [List.mem_cons, List.not_mem_nil, or_false, not_or] at hstart hstop
  refine ⟨rfl, hnonempty, Nat.le_of_not_lt hshort, heq, hstart, hstop, ?_,
    (Bool.not_eq_true _).mp hdevice⟩
  intro c hc
  have hgood : ¬ (isControl c || decide (c ∈ "<>:\"/\\|?*".toList)) = true :=
    fun hbad => hcharacters (List.any_eq_true.mpr ⟨c, hc, hbad⟩)
  rw [Bool.or_eq_true, not_or, decide_eq_true_eq, Bool.not_eq_true] at hgood
  exact hgood

theorem portable_mapM {o name : Option Text} (h : o.mapM (portableFilename nfc) = .ok name) :
    name = o ∧ ∀ n ∈ name, PortableName nfc n := by
  cases o with
  | none =>
    obtain rfl := Except.ok.inj h
    exact ⟨rfl, by simp⟩
  | some value =>
    rw [Option.mapM_some] at h
    obtain ⟨n, hn, rfl⟩ := map_ok h
    obtain ⟨rfl, hportable⟩ := portableFilename_ok hn
    refine ⟨rfl, fun m hm => ?_⟩
    rwa [← Option.some.inj hm]

/-- What the parser has seen when it accepts. -/
theorem parseContentDisposition_ok {value : Text} {name : Option Text}
    (h : parseContentDisposition nfc value = .ok name) :
    ∃ last, lower (trim ((value.splitOn ';').headD [])) ∈
        ["attachment", "inline"].map String.toList ∧
      (∀ piece ∈ (value.splitOn ';').tail, Readable piece) ∧
      Recorded (taken (value.splitOn ';').tail) last ∧
      name = last.extended.or last.plain ∧ ∀ n ∈ name, PortableName nfc n := by
  obtain ⟨parts, hparts, h⟩ := ok_bind h
  obtain ⟨scan, -, hparts⟩ := ok_bind hparts
  obtain ⟨_, -, hparts⟩ := ok_bind hparts
  obtain rfl := Except.ok.inj hparts
  obtain ⟨_, htype, h⟩ := ok_bind h
  obtain ⟨last, hrun, h⟩ := ok_bind h
  obtain ⟨hread, hrecorded⟩ := recorded_run recorded_nil hrun
  exact ⟨last, not_not.mp (reject_ok htype), hread, hrecorded, portable_mapM h⟩

end

/-! ## Pieces of a derivation -/

theorem DispositionField.text_eq (d : DispositionField) : d.text =
    Paths.joined ';' ((d.before ++ (d.type ++ d.after)) :: d.segments.map Segment.text) := by
  rw [text, Paths.joined, List.flatMap_map]

theorem not_mem_blank {text : Text} (h : text.all isBlank = true) : ';' ∉ text :=
  fun hmem => (all_isBlank h _ hmem).1 rfl

theorem not_mem_token {text : Text} (h : IsToken text) : ';' ∉ text ∧ '=' ∉ text :=
  ⟨fun hmem => (isTokenChar_not (h.2 _ hmem)).1 rfl,
    fun hmem => (isTokenChar_not (h.2 _ hmem)).2.1 rfl⟩

/-- A value that was taken lies inside a piece. -/
theorem not_mem_taken {value : Text} {p : Text × Text}
    (h : p ∈ taken (value.splitOn ';').tail) : ';' ∉ p.2 := by
  obtain ⟨piece, hpiece, hp⟩ := List.mem_filterMap.mp h
  have hfree : ';' ∉ piece := by
    rw [Paths.splitOn_eq] at hpiece
    exact Paths.not_mem_of_splitOn ';' value piece (List.mem_of_mem_tail hpiece)
  intro hmem
  apply hfree
  rw [← piece_eq piece, splitOnce_some hp]
  simp [hmem]

theorem token_ends {text : Text} (h : IsToken text) :
    (∀ c ∈ text.head?, isWhiteSpace c = false) ∧ ∀ c ∈ text.getLast?, isWhiteSpace c = false :=
  ⟨fun c hc => (isTokenChar_not (h.2 c (List.mem_of_mem_head? hc))).2.2.2,
    fun c hc => (isTokenChar_not (h.2 c (List.mem_of_mem_getLast? hc))).2.2.2⟩

theorem value_last {v : ParameterValue} (h : v.Valid) :
    v.text ≠ [] ∧ ∀ c ∈ v.text.getLast?, isWhiteSpace c = false := by
  cases v with
  | token text => exact ⟨h.1, (token_ends h).2⟩
  | quoted parts =>
    refine ⟨List.cons_ne_nil _ _, fun c hc => ?_⟩
    rw [ParameterValue.text, ← List.cons_append, List.getLast?_concat] at hc
    rw [← Option.some.inj hc]
    rfl

/-- A segment's parameter is the one that its piece gives. -/
theorem segment_piece {s : Segment} (h : s.Valid) :
    (leading s.text).all isBlank = true ∧ (trailing s.text).all isBlank = true ∧
      parameterOf s.text = s.parameter.map fun p => (p.name, p.value.text) := by
  have hbefore := all_isBlank h.before
  have hafter := all_isBlank h.after
  rw [Segment.text]
  cases hp : s.parameter with
  | none =>
    obtain ⟨hleading, htrim, htrailing⟩ := @trim_blank (s.before ++ s.after)
      (fun c hc => (List.mem_append.mp hc).elim (fun hc => (hbefore c hc).2)
        fun hc => (hafter c hc).2)
    rw [Option.elim_none, List.nil_append, parameterOf, hleading, htrim, htrailing,
      List.all_append, h.before, h.after]
    exact ⟨rfl, rfl, rfl⟩
  | some p =>
    obtain ⟨hname, hvalue⟩ := h.parameter p hp
    obtain ⟨hne, hlast⟩ := value_last hvalue
    obtain ⟨hleading, htrim, htrailing⟩ := @trim_of s.before p.text s.after
      (fun c hc => (hbefore c hc).2) (fun c hc => (hafter c hc).2) (by simp [Parameter.text])
      (by
        rw [Parameter.text, List.head?_append_of_ne_nil _ hname.1]
        exact (token_ends hname).1)
      (by
        rw [Parameter.text, List.getLast?_append_of_ne_nil _ (List.cons_ne_nil _ _),
          List.getLast?_cons_of_ne_nil hne]
        exact hlast)
    rw [Option.elim_some, parameterOf, hleading, htrim, htrailing, Parameter.text,
      splitOnce_of (not_mem_token hname).2]
    exact ⟨h.before, h.after, rfl⟩

theorem clean_parameter {p : Parameter} (hname : IsToken p.name) (hvalue : p.value.Valid)
    (haccepted : Accepted (p.name, p.value.text)) :
    cleanParameter (p.name, p.value.text) = true := by
  rw [cleanParameter, Bool.and_eq_true, Bool.or_eq_true]
  refine ⟨decide_eq_true hname.1, ?_⟩
  cases hv : p.value with
  | token text =>
    rw [hv] at hvalue
    exact .inl (isTokenText_iff.mpr hvalue)
  | quoted parts =>
    rw [hv] at hvalue haccepted
    refine .inr (Bool.and_eq_true_iff.mpr ⟨decide_eq_true fun hextended => ?_, ?_⟩)
    · obtain ⟨value, hdecode⟩ := haccepted.extended hextended
      exact decodeRfc5987_token hdecode rfl
    · rw [ParameterValue.text, unquoted_quoted]
      exact wellQuoted_parts hvalue

/-- A value with a derivation of the parameters that were taken is clean. -/
theorem clean_of_derivation {value : Text} {d : DispositionField} (hvalid : d.Valid)
    (htext : d.text = value)
    (htaken : taken (value.splitOn ';').tail =
      d.parameters.map fun p => (p.name, p.value.text))
    (haccepted : ∀ p ∈ taken (value.splitOn ';').tail, Accepted p) : clean value = true := by
  have hmem : ∀ s ∈ d.segments, ∀ p ∈ s.parameter,
      (p.name, p.value.text) ∈ taken (value.splitOn ';').tail := by
    intro s hs p hp
    rw [htaken]
    exact List.mem_map.mpr ⟨p, List.mem_filterMap.mpr ⟨s, hs, hp⟩, rfl⟩
  have hfirst : ';' ∉ d.before ++ (d.type ++ d.after) := by
    simp only [List.mem_append, not_or]
    exact ⟨not_mem_blank hvalid.before, (not_mem_token hvalid.type).1,
      not_mem_blank hvalid.after⟩
  have hsegments : ∀ s ∈ d.segments, ';' ∉ s.text := by
    intro s hs
    have hsvalid := hvalid.segments s hs
    have hparameter : ';' ∉ s.parameter.elim [] Parameter.text := by
      cases hp : s.parameter with
      | none => exact List.not_mem_nil
      | some p =>
        have hname := (not_mem_token (hsvalid.parameter p hp).1).1
        have hvalue := not_mem_taken (hmem s hs p hp)
        simp only [Option.elim_some, Parameter.text, List.mem_append, List.mem_cons, not_or]
        exact ⟨hname, by decide, hvalue⟩
    simp only [Segment.text, List.mem_append, not_or]
    exact ⟨not_mem_blank hsvalid.before, hparameter, not_mem_blank hsvalid.after⟩
  have hpieces : value.splitOn ';' =
      (d.before ++ (d.type ++ d.after)) :: d.segments.map Segment.text := by
    rw [← htext, Paths.splitOn_eq, d.text_eq]
    apply Paths.splitOn_joined_parts (List.cons_ne_nil _ _)
    exact List.forall_mem_cons.mpr ⟨hfirst, List.forall_mem_map.mpr hsegments⟩
  rw [clean, hpieces, List.all_cons, Bool.and_eq_true]
  constructor
  · obtain ⟨hleading, htrim, htrailing⟩ := trim_of
      (fun c hc => (all_isBlank hvalid.before c hc).2)
      (fun c hc => (all_isBlank hvalid.after c hc).2) hvalid.type.1 (token_ends hvalid.type).1
      (token_ends hvalid.type).2
    rw [cleanPiece_iff, hleading, htrailing, parameterOf, htrim, splitOnce,
      if_neg (not_mem_token hvalid.type).2]
    exact ⟨hvalid.before, hvalid.after, by simp⟩
  · rw [List.all_map, List.all_eq_true]
    intro s hs
    have hsvalid := hvalid.segments s hs
    obtain ⟨hleading, htrailing, hparameter⟩ := segment_piece hsvalid
    refine cleanPiece_iff.mpr ⟨hleading, htrailing, ?_⟩
    rw [hparameter]
    intro q hq
    obtain ⟨p, hp, rfl⟩ := Option.map_eq_some_iff.mp hq
    obtain ⟨hname, hvalue⟩ := hsvalid.parameter p hp
    exact clean_parameter hname hvalue (haccepted _ (hmem s hs p hp))

/-! ## Accepted values -/

end IntoMarkdown.Http
