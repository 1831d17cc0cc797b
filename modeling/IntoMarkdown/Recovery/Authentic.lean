import IntoMarkdown.Lib.JsonText
import IntoMarkdown.Recovery.Metadata

/-! # Authentication of an envelope

Which byte strings the two readers accept, and what becomes of a committed file
that is cut short or written on. -/

namespace IntoMarkdown.Recovery
open IntoMarkdown.Lib IntoMarkdown.Core

/-! ## The footer block -/

/-- The first occurrence of an element splits a list in one way. -/
theorem split_first {α : Type} {x : α} {a b a' b' : List α} (ha : x ∉ a) (ha' : x ∉ a')
    (h : a ++ x :: b <+: a' ++ x :: b') : a = a' := by
  induction a generalizing a' with
  | nil =>
    cases a' with
    | nil => rfl
    | cons y a' =>
      obtain ⟨rfl, -⟩ := List.cons_prefix_cons.mp h
      exact absurd List.mem_cons_self ha'
  | cons y a ih =>
    cases a' with
    | nil =>
      obtain ⟨rfl, -⟩ := List.cons_prefix_cons.mp h
      exact absurd List.mem_cons_self ha
    | cons z a' =>
      obtain ⟨rfl, htail⟩ := List.cons_prefix_cons.mp h
      rw [ih (fun hm => ha (List.mem_cons_of_mem _ hm)) (fun hm => ha' (List.mem_cons_of_mem _ hm))
        htail]

theorem not_mem_takeWhile (x : UInt8) (bytes : Bytes) : x ∉ bytes.takeWhile (· ≠ x) := by
  intro h
  simpa using List.mem_takeWhile_imp h

theorem split_newline (header : Bytes)
    (h : (header.takeWhile (· ≠ newline)).length ≠ header.length) :
    ∃ tail, header = header.takeWhile (· ≠ newline) ++ newline :: tail := by
  have hsplit := List.takeWhile_append_dropWhile (p := (· ≠ newline)) (l := header)
  cases hdrop : header.dropWhile (· ≠ newline) with
  | nil =>
    rw [hdrop, List.append_nil] at hsplit
    exact absurd (congrArg List.length hsplit) h
  | cons b tail =>
    have hb := List.head?_dropWhile_not (· ≠ newline) header
    rw [hdrop] at hb hsplit
    obtain rfl : b = newline := by simpa using hb
    exact ⟨tail, hsplit.symm⟩

theorem fixedHeaderJson_iff {header line : Bytes} : fixedHeaderJson header = .ok line ↔
    line ≠ [] ∧ newline ∉ line ∧
      ∃ n, header = line ++ newline :: List.replicate n space := by
  constructor
  · intro h
    simp only [fixedHeaderJson] at h
    split_ifs at h with h1 h2
    obtain ⟨tail, htail⟩ := split_newline header h1
    rw [Except.ok.inj h] at h2 htail
    have hdrop : header.drop (line.length + 1) = tail := by
      rw [htail, List.drop_append]
      simp
    rw [hdrop, not_or] at h2
    have hspaces : ∀ b ∈ tail, b = space := by
      intro b hb
      by_contra hne
      exact h2.2 (List.any_eq_true.mpr ⟨b, hb, by simpa using hne⟩)
    refine ⟨h2.1, Except.ok.inj h ▸ not_mem_takeWhile _ _, tail.length, ?_⟩
    rw [← List.eq_replicate_of_mem hspaces, ← htail]
  · rintro ⟨hne, hline, n, rfl⟩
    have htake : (line ++ newline :: List.replicate n space).takeWhile (· ≠ newline) = line := by
      rw [List.takeWhile_append_of_pos]
      · simp
      · intro b hb
        simp only [ne_eq, decide_eq_true_eq]
        rintro rfl
        exact hline hb
    have hlength : line.length ≠ (line ++ newline :: List.replicate n space).length := by
      simp only [List.length_append, List.length_cons]
      omega
    have hpad : (line ++ newline :: List.replicate n space).drop (line.length + 1) =
        List.replicate n space := by
      rw [List.drop_append]
      simp
    simp only [fixedHeaderJson, htake, hlength, ↓reduceIte, hne, hpad, false_or]
    simp

section Codec
variable {T : Type} {c : Codec T} {job : Commit T} {bytes : Bytes} {t : RecoveryToken}
  {p : TaskPhase} {payload : Bytes} {m : TaskCheckpoint}

theorem decodeMetadata_iff {header : Bytes} : decodeMetadata c header = .ok m ↔
    ∃ line, fixedHeaderJson header = .ok line ∧ c.decodeMetadata line = .ok m := by
  unfold decodeMetadata
  cases hline : fixedHeaderJson header with
  | error e => simp [bind, Except.bind]
  | ok line => cases hm : c.decodeMetadata line <;> simp [bind, Except.bind, hm, pure, Except.pure,
      throw, throwThe, MonadExceptOf.throw]

/-! ## What the readers accept -/

/-- The checks of `TaskCheckpoint::validate`, all of them passed. -/
structure Valid (m : TaskCheckpoint) (t : RecoveryToken) (p : TaskPhase) : Prop where
  version : m.schemaVersion = checkpointSchemaVersion
  token : m.token = t.text
  phase : m.phase = p
  stages : m.completedStages = p.stages
  input : canonicalSha256 m.inputFingerprint = true
  options : canonicalSha256 m.optionsFingerprint = true
  payload : canonicalSha256 m.payloadSha256 = true

theorem validate_iff {n : Nat} {digest : Option String} : m.validate t p n digest = .ok () ↔
    Valid m t p ∧ m.payloadBytes = n ∧ ∀ d, digest = some d → m.payloadSha256 = d := by
  unfold TaskCheckpoint.validate
  split_ifs with h1 h2 h3 h4 h5
  · exact ⟨nofun, fun h => absurd h.1.version h1⟩
  · exact ⟨nofun, fun h => absurd h.1.token h2⟩
  · exact ⟨nofun, fun h => by simp [h.1.phase, h.1.stages] at h3⟩
  · exact ⟨nofun, fun h => by simp [h.1.input, h.1.options] at h4⟩
  · refine ⟨nofun, fun h => ?_⟩
    rcases h5 with hn | hsha | hany
    · exact absurd h.2.1 hn
    · exact absurd h.1.payload hsha
    · cases digest with
      | none => simp at hany
      | some d => simp [h.2.2 d rfl] at hany
  · simp only [not_or, not_not] at h1 h2 h3 h4 h5
    refine ⟨fun _ => ⟨⟨h1, h2, h3.1, h3.2, h4.1, h4.2, h5.2.1⟩, h5.1, ?_⟩, fun _ => rfl⟩
    rintro d rfl
    simpa using h5.2.2

/-- The bytes are an envelope of the payload with this metadata. -/
structure Enveloped (c : Codec T) (bytes : Bytes) (t : RecoveryToken) (p : TaskPhase)
    (payload : Bytes) (m : TaskCheckpoint) : Prop where
  shape : ∃ line n, bytes = magic ++ (payload ++ (line ++ newline :: List.replicate n space)) ∧
    line.length + 1 + n = headerBlockBytes ∧ line ≠ [] ∧ newline ∉ line ∧
    c.decodeMetadata line = .ok m
  valid : Valid m t p
  length : m.payloadBytes = payload.length
  digest : m.payloadSha256 = hex (c.sha256 payload)

theorem splitEnvelope_body {footer part : Bytes}
    (h : (do
      let metadata ← decodeMetadata c footer
      metadata.validate t p part.length (some (hex (c.sha256 part)))
      pure (part, metadata)) = Except.ok (payload, m)) :
    payload = part ∧ decodeMetadata c footer = .ok m ∧
      m.validate t p payload.length (some (hex (c.sha256 payload))) = .ok () := by
  obtain ⟨m', hdecode, h⟩ := ok_bind h
  obtain ⟨_, hvalid, h⟩ := ok_bind h
  obtain ⟨rfl, rfl⟩ := Prod.mk.inj (Except.ok.inj h)
  exact ⟨rfl, hdecode, hvalid⟩

theorem splitEnvelope_checks (h : splitEnvelope c bytes t p = .ok (payload, m)) :
    (magic <+: bytes ∧ magic.length + headerBlockBytes ≤ bytes.length) ∧
    payload = payloadOf bytes ∧
    decodeMetadata c (bytes.drop (bytes.length - headerBlockBytes)) = .ok m ∧
    m.validate t p payload.length (some (hex (c.sha256 payload))) = .ok () := by
  unfold splitEnvelope at h
  by_cases hlong : ¬ magic <+: bytes ∨ bytes.length < magic.length + headerBlockBytes
  · rw [if_pos hlong] at h
    cases h
  rw [if_neg hlong] at h
  rw [not_or, not_not, not_lt] at hlong
  exact ⟨hlong, splitEnvelope_body h⟩

/-- The two halves of a file after its signature. -/
theorem halves_of_append {r : Bytes} {n : Nat} (h : n ≤ r.length) :
    ((magic ++ r).take ((magic ++ r).length - n)).drop magic.length =
      r.take (r.length - n) ∧
    (magic ++ r).drop ((magic ++ r).length - n) = r.drop (r.length - n) := by
  have hsub : (magic ++ r).length - n = magic.length + (r.length - n) := by
    rw [List.length_append]
    omega
  rw [hsub, List.take_length_add_append, List.drop_left, List.drop_length_add_append]
  exact ⟨rfl, rfl⟩

theorem splitEnvelope_enveloped (h : splitEnvelope c bytes t p = .ok (payload, m)) :
    Enveloped c bytes t p payload m := by
  obtain ⟨⟨⟨rest, rfl⟩, hlong⟩, hpayload, hdecode, hvalid⟩ := splitEnvelope_checks h
  obtain ⟨hok, hlength, hdigest⟩ := validate_iff.mp hvalid
  obtain ⟨line, hline, hm⟩ := decodeMetadata_iff.mp hdecode
  obtain ⟨hne, hnewline, n, hfooter⟩ := fixedHeaderJson_iff.mp hline
  rw [List.length_append] at hlong
  obtain ⟨htake, hdrop⟩ := halves_of_append (r := rest) (n := headerBlockBytes) (by omega)
  rw [payloadOf, htake] at hpayload
  rw [hdrop] at hfooter
  have hblock := congrArg List.length hfooter
  simp only [List.length_drop, List.length_append, List.length_cons, List.length_replicate] at hblock
  refine ⟨⟨line, n, ?_, by omega, hne, hnewline, hm⟩, hok, hlength, hdigest _ rfl⟩
  rw [hpayload, ← hfooter, List.take_append_drop]

theorem Enveloped.inspectFile (h : Enveloped c bytes t p payload m) :
    Recovery.inspectFile c bytes t p = .ok m := by
  obtain ⟨line, n, hbytes, hblock, hne, hnewline, hm⟩ := h.shape
  have hlength : bytes.length = magic.length + payload.length + headerBlockBytes := by
    have hsum := congrArg List.length hbytes
    simp only [List.length_append, List.length_cons, List.length_replicate] at hsum
    omega
  have hlong : ¬ bytes.length < magic.length + headerBlockBytes := by omega
  have hmagic : bytes.take magic.length = magic := by rw [hbytes, List.take_left]
  have hsize : bytes.length - (magic.length + headerBlockBytes) = payload.length := by omega
  have hfoot : bytes.length - headerBlockBytes = (magic ++ payload).length := by
    rw [List.length_append]
    omega
  have hdrop : bytes.drop (bytes.length - headerBlockBytes) =
      line ++ newline :: List.replicate n space := by
    rw [hfoot, hbytes, ← List.append_assoc, List.drop_left]
  have hdecode : decodeMetadata c (line ++ newline :: List.replicate n space) = .ok m :=
    decodeMetadata_iff.mpr ⟨line, fixedHeaderJson_iff.mpr ⟨hne, hnewline, n, rfl⟩, hm⟩
  have hvalid : m.validate t p payload.length none = .ok () :=
    validate_iff.mpr ⟨h.valid, h.length, nofun⟩
  simp only [Recovery.inspectFile, hlong, hmagic, hdrop, hdecode, hsize, ne_eq, not_true_eq_false,
    ↓reduceIte]
  show (do m.validate _ _ _ none; pure m) = _
  rw [hvalid]
  rfl

theorem inspectFile_valid (h : inspectFile c bytes t p = .ok m) :
    decodeMetadata c (bytes.drop (bytes.length - headerBlockBytes)) = .ok m ∧ Valid m t p := by
  unfold inspectFile at h
  by_cases hlong : bytes.length < magic.length + headerBlockBytes
  · rw [if_pos hlong] at h
    cases h
  rw [if_neg hlong] at h
  by_cases hmagic : bytes.take magic.length ≠ magic
  · simp only [if_pos hmagic] at h
    cases h
  simp only [if_neg hmagic] at h
  generalize bytes.length - headerBlockBytes = footer at h ⊢
  obtain ⟨m', hdecode, h⟩ := ok_bind h
  obtain ⟨_, hvalid, h⟩ := ok_bind h
  obtain rfl := Except.ok.inj h
  exact ⟨hdecode, (validate_iff.mp hvalid).1⟩

/-- One file is read under one token and one phase only. -/
theorem inspectFile_unique {m' : TaskCheckpoint} {t' : RecoveryToken} {p' : TaskPhase}
    (h : inspectFile c bytes t p = .ok m) (h' : inspectFile c bytes t' p' = .ok m') :
    t = t' ∧ p = p' := by
  obtain ⟨hdecode, hv⟩ := inspectFile_valid h
  obtain ⟨hdecode', hv'⟩ := inspectFile_valid h'
  obtain rfl := Except.ok.inj (hdecode.symm.trans hdecode')
  refine ⟨?_, hv.phase.symm.trans hv'.phase⟩
  have htext := hv.token.symm.trans hv'.token
  cases t
  cases t'
  cases htext
  rfl

end Codec

/-! ## The text of the metadata -/

/-- Neither an opening bracket nor a space. -/
def Bare (cs : List Char) : Bool := cs.all fun c => c ≠ '\x7b' && c ≠ '[' && !Json.isSpace c

/-- The text of the metadata between its first brace and its only bracket. -/
def metadataBefore (m : TaskCheckpoint) : List Char :=
  Json.printString "schemaVersion" ++ ':' :: (Json.decimal.print m.schemaVersion ++
  ',' :: (Json.printString "token" ++ ':' :: (Json.printString m.token ++
  ',' :: (Json.printString "inputFingerprint" ++ ':' :: (Json.printString m.inputFingerprint ++
  ',' :: (Json.printString "optionsFingerprint" ++ ':' :: (Json.printString m.optionsFingerprint ++
  ',' :: (Json.printString "phase" ++ ':' :: (Json.printString m.phase.fileLabel ++
  ',' :: (Json.printString "completedStages" ++ [':']))))))))))

/-- The rest of the text after the stages and a comma. -/
def metadataAfter (m : TaskCheckpoint) : List Char :=
  Json.printString "payloadBytes" ++ ':' :: (Json.decimal.print m.payloadBytes ++
  ',' :: (Json.printString "payloadSha256" ++ ':' :: (Json.printString m.payloadSha256 ++
  ['\x7d'])))

theorem print_toJson (m : TaskCheckpoint) : Json.print Json.decimal m.toJson =
    '\x7b' :: (metadataBefore m ++ '[' ::
      (Json.printItems Json.decimal true (m.completedStages.map .string) ++
        ',' :: metadataAfter m)) := by
  simp only [TaskCheckpoint.toJson, Json.print, Json.printEntries, if_true, if_false,
    Bool.false_eq_true, metadataBefore, metadataAfter, List.nil_append, List.cons_append,
    List.append_assoc]

theorem bare_append (a b : List Char) : Bare (a ++ b) = (Bare a && Bare b) := List.all_append

theorem bare_cons (c : Char) (cs : List Char) :
    Bare (c :: cs) = ((c ≠ '\x7b' && c ≠ '[' && !Json.isSpace c) && Bare cs) := rfl

theorem hexDigit_ne {c d : Char} (hc : isLowerHexDigit c = true) (hd : isLowerHexDigit d = false) :
    c ≠ d := by
  rintro rfl
  rw [hc] at hd
  cases hd

theorem escape_hexDigit {c : Char} (hc : isLowerHexDigit c = true) : Json.escape c = [c] := by
  have hlow : 48 ≤ c.toNat := by
    simp only [isLowerHexDigit, Bool.or_eq_true, Bool.and_eq_true, decide_eq_true_eq] at hc
    omega
  unfold Json.escape
  rw [if_neg (hexDigit_ne hc (by decide)), if_neg (hexDigit_ne hc (by decide)),
    if_neg (hexDigit_ne hc (by decide)), if_neg (hexDigit_ne hc (by decide)),
    if_neg (hexDigit_ne hc (by decide)), if_neg (by omega), if_neg (by omega), if_neg (by omega)]

theorem bare_hexDigits {cs : List Char} (h : cs.all isLowerHexDigit = true) : Bare cs = true := by
  rw [Bare, List.all_eq_true]
  intro c hc
  have hdigit := List.all_eq_true.mp h c hc
  simp [Json.isSpace, hexDigit_ne hdigit (d := '\x7b') (by decide),
    hexDigit_ne hdigit (d := '[') (by decide), hexDigit_ne hdigit (d := ' ') (by decide),
    hexDigit_ne hdigit (d := '\n') (by decide), hexDigit_ne hdigit (d := '\t') (by decide),
    hexDigit_ne hdigit (d := '\r') (by decide)]

theorem bare_printString {n : Nat} {s : String} (h : canonicalHex n s = true) :
    Bare (Json.printString s) = true := by
  simp only [canonicalHex, Bool.and_eq_true] at h
  have hflat : ∀ cs : List Char, cs.all isLowerHexDigit = true → cs.flatMap Json.escape = cs := by
    intro cs hcs
    induction cs with
    | nil => rfl
    | cons c cs ih =>
      rw [List.all_cons, Bool.and_eq_true] at hcs
      rw [List.flatMap_cons, escape_hexDigit hcs.1, ih hcs.2]
      rfl
  rw [Json.printString, Json.printChars, hflat _ h.2, bare_cons, bare_append, bare_hexDigits h.2]
  decide

theorem bare_digits (n : Nat) : Bare (Json.decimal.print n) = true := by
  apply bare_hexDigits
  rw [List.all_eq_true]
  intro c hc
  have h : 48 ≤ c.toNat ∧ c.toNat ≤ 57 := Char.isDigit_iff_toNat.mp (Json.decimal_digits hc)
  simp [isLowerHexDigit, h]

section Metadata
variable (token : RecoveryToken) (input options : Fingerprint) (phase : TaskPhase) (n : Nat)
  (digest : Bytes)

theorem bare_metadataBefore :
    Bare (metadataBefore (newMetadata token input options phase n digest)) = true := by
  have hlabel : Bare (Json.printString phase.fileLabel) = true := by cases phase <;> decide
  simp only [metadataBefore, newMetadata, bare_append, bare_cons, bare_digits,
    bare_printString token.canonical, bare_printString input.canonical,
    bare_printString options.canonical, hlabel]
  decide

theorem bare_metadataAfter (h : digest.length = 32) :
    Bare (metadataAfter (newMetadata token input options phase n digest)) = true := by
  simp only [metadataAfter, newMetadata, bare_append, bare_cons, bare_digits,
    bare_printString (canonicalSha256_hex h)]
  decide

theorem bare_stages :
    Bare (Json.printItems Json.decimal true (phase.stages.map .string)) = true := by
  cases phase <;> decide

end Metadata

/-! ## Files cut short and written on -/

/-- What `serde_json` does with metadata: it writes the fields compactly and in
order, and reads a struct from one JSON text only, an object or an array. -/
structure Codec.Serde {T : Type} (c : Codec T) : Prop where
  text : ∀ token input options phase n digest, digest.length = 32 →
    c.encodeMetadata (newMetadata token input options phase n digest) =
      encodeJson (newMetadata token input options phase n digest).toJson
  json : ∀ line m, c.decodeMetadata line = .ok m →
    ∃ (μ : Type) (read : List Char → Option μ) (limit : Nat) (v : Json.Value μ),
      Json.parse read limit (asciiText line) = .ok v ∧ v.IsContainer

/-- A JSON object as `serde_json` writes it, without a line feed. -/
structure CompactObject (payload : Bytes) : Prop where
  braces : ∃ inner, payload = 123 :: inner ++ [125]
  line : newline ∉ payload

section Rejected
variable {T : Type} {c : Codec T} {job : Commit T} {bytes : Bytes} {t : RecoveryToken}
  {p : TaskPhase} {payload : Bytes} {m : TaskCheckpoint}

theorem asciiText_append (a b : Bytes) : asciiText (a ++ b) = asciiText a ++ asciiText b :=
  List.map_append

/-- A committed file, with the text of its metadata. -/
theorem envelope_text (hc : c.Authentic) (hs : c.Serde) (h : job.envelope c = .ok bytes) :
    ∃ header pad, bytes =
        magic ++ (job.payloadJson c ++ (header ++ newline :: List.replicate pad space)) ∧
      header.length + 1 + pad = headerBlockBytes ∧ newline ∉ header ∧
      asciiText header = Json.print Json.decimal (job.metadata c).toJson := by
  obtain ⟨hbytes, hlength, hlt⟩ := envelope_eq h
  have hdigest := hc.digest (job.payloadJson c)
  have hheader : c.encodeMetadata (job.metadata c) = encodeJson (job.metadata c).toJson :=
    hs.text _ _ _ _ _ _ hdigest
  refine ⟨_, _, hbytes, by omega, (hc.line _ _ _ _ _ _ hlt hdigest).2, ?_⟩
  rw [hheader]
  exact asciiText_encode (printable_newMetadata _ _ _ _ _ hdigest)

/-- No strict beginning of a committed file is accepted. -/
theorem cut_rejected (hc : c.Authentic) (hs : c.Serde) (h : job.envelope c = .ok bytes)
    (hobject : CompactObject (job.payloadJson c)) {cut : Bytes} (hcut : cut <+: bytes)
    (hne : cut ≠ bytes) : splitEnvelope c cut t p ≠ .ok (payload, m) := by
  intro hsplit
  obtain ⟨header, pad, rfl, hblock, hheader, htext⟩ := envelope_text hc hs h
  obtain ⟨⟨line, n, rfl, hblock', -, hline, hm⟩, -, -, -⟩ := splitEnvelope_enveloped hsplit
  rw [List.prefix_append_right_inj] at hcut
  -- the footer window begins inside the payload
  have hshort : payload.length < (job.payloadJson c).length := by
    have hle := hcut.length_le
    have hlt : payload.length ≠ (job.payloadJson c).length := by
      intro heq
      apply hne
      rw [hcut.eq_of_length]
      simp only [List.length_append, List.length_cons, List.length_replicate]
      omega
    simp only [List.length_append, List.length_cons, List.length_replicate] at hle
    omega
  obtain ⟨rest, hrest⟩ : payload <+: job.payloadJson c :=
    List.prefix_of_prefix_length_le ((List.prefix_append _ _).trans hcut) (List.prefix_append _ _)
      hshort.le
  have hwindow : line ++ newline :: List.replicate n space <+:
      (rest ++ header) ++ newline :: List.replicate pad space := by
    rw [← hrest, List.append_assoc, List.prefix_append_right_inj] at hcut
    rwa [List.append_assoc]
  have hnone : newline ∉ rest ++ header := by
    intro hmem
    rcases List.mem_append.mp hmem with hmem | hmem
    · exact hobject.line (hrest ▸ List.mem_append_right _ hmem)
    · exact hheader hmem
  have hwhole : line = rest ++ header := split_first hline hnone hwindow
  -- so the line has the end of the payload and then the whole metadata
  obtain ⟨front, hfront⟩ : ∃ front, rest = front ++ [125] := by
    obtain ⟨inner, hinner⟩ := hobject.braces
    have hlast : rest ≠ [] := by
      rintro rfl
      rw [List.append_nil] at hrest
      rw [hrest] at hshort
      exact absurd hshort (lt_irrefl _)
    refine ⟨rest.dropLast, ?_⟩
    have hget : rest.getLast hlast = 125 := by
      have := congrArg List.getLast? (hrest.trans hinner)
      rw [List.getLast?_append_of_ne_nil _ hlast, List.getLast?_append_of_ne_nil _ (by simp),
        List.getLast?_eq_some_getLast hlast] at this
      simpa using this
    rw [← hget, List.dropLast_append_getLast]
  obtain ⟨μ, read, limit, v, hparse, -⟩ := hs.json _ _ hm
  have hcontent : ∃ after, asciiText line =
      asciiText front ++ '\x7d' :: '\x7b' :: '"' :: 's' :: after := by
    rw [hwhole, hfront, asciiText_append, asciiText_append, htext, List.append_assoc]
    exact ⟨_, rfl⟩
  obtain ⟨after, hafter⟩ := hcontent
  rw [hafter] at hparse
  exact Json.parse_close_open (by decide) (by decide) hparse

theorem count_eq_one {α : Type} [DecidableEq α] {x : α} {a b : List α} (ha : x ∉ a)
    (hb : x ∉ b) : (a ++ x :: b).count x = 1 := by
  rw [List.count_append, List.count_cons_self, List.count_eq_zero.mpr ha, List.count_eq_zero.mpr hb]

/-- Two splits of a list at an element that it has once are one. -/
theorem split_once {α : Type} [DecidableEq α] {x : α} {a b a' b' : List α} (ha : x ∉ a)
    (hb : x ∉ b) (h : a ++ x :: b = a' ++ x :: b') : a' = a ∧ b' = b := by
  have hcount := count_eq_one ha hb
  rw [h, List.count_append, List.count_cons_self] at hcount
  have ha' : x ∉ a' := List.count_eq_zero.mp (by omega)
  have hstarts : a ++ x :: b <+: a' ++ x :: b' := by rw [h]
  obtain rfl := split_first ha ha' hstarts
  exact ⟨rfl, (List.cons.inj (List.append_cancel_left h)).2.symm⟩

theorem not_mem_of_bare {cs : List Char} (h : Bare cs = true) :
    '\x7b' ∉ cs ∧ '[' ∉ cs ∧ ∀ c ∈ cs, Json.isSpace c = false := by
  rw [Bare, List.all_eq_true] at h
  refine ⟨fun hm => ?_, fun hm => ?_, fun c hc => ?_⟩
  · simpa using h _ hm
  · simpa using h _ hm
  · have hplain := h c hc
    simp only [Bool.and_eq_true, Bool.not_eq_true'] at hplain
    exact hplain.2

theorem printItems_strings {ν μ ν' μ' : Type} (N : Json.Numerals ν μ) (N' : Json.Numerals ν' μ')
    (first : Bool) (strings : List String) :
    Json.printItems N first (strings.map .string) = Json.printItems N' first (strings.map .string) := by
  induction strings generalizing first with
  | nil => rfl
  | cons s strings ih =>
    rw [List.map_cons, List.map_cons, Json.printItems, Json.printItems, ih]
    rfl

/-- The text of the metadata without its first characters is the text of no struct:
there is no brace left, and the only array has something behind it. -/
theorem metadata_suffix {μ : Type} {read : List Char → Option μ} {limit : Nat} {v : Json.Value μ}
    {first rest : List Char} (hfirst : first ≠ [])
    (hbefore : Bare (metadataBefore m) = true) (hafter : Bare (metadataAfter m) = true)
    (hstages : Bare (Json.printItems Json.decimal true (m.completedStages.map .string)) = true)
    (h : Json.print Json.decimal m.toJson = first ++ rest) (hv : v.IsContainer) :
    Json.parse read limit rest ≠ .ok v := by
  intro hparse
  obtain ⟨brace, q, rfl⟩ := List.exists_cons_of_ne_nil hfirst
  rw [print_toJson, List.cons_append] at h
  have hbody := (List.cons.inj h).2
  -- the characters that are left
  obtain ⟨hbrace, hbracket, hspace⟩ := not_mem_of_bare hbefore
  obtain ⟨hbrace1, hbracket1, hspace1⟩ := not_mem_of_bare hstages
  obtain ⟨hbrace2, hbracket2, hspace2⟩ := not_mem_of_bare hafter
  have hchars : ∀ c ∈ rest, c ≠ '\x7b' ∧ Json.isSpace c = false := by
    intro c hc
    have hmem : c ∈ q ++ rest := List.mem_append_right _ hc
    rw [← hbody] at hmem
    simp only [List.mem_append, List.mem_cons] at hmem
    rcases hmem with hm | rfl | hm | rfl | hm
    · exact ⟨fun he => hbrace (he ▸ hm), hspace c hm⟩
    · decide
    · exact ⟨fun he => hbrace1 (he ▸ hm), hspace1 c hm⟩
    · decide
    · exact ⟨fun he => hbrace2 (he ▸ hm), hspace2 c hm⟩
  obtain ⟨c, cs, hhead, hc⟩ := Json.parse_head hparse hv
  cases rest with
  | nil => cases hhead
  | cons d rest =>
    obtain ⟨hd, hds⟩ := hchars d List.mem_cons_self
    rw [Json.skipSpace_cons hds] at hhead
    obtain ⟨rfl, rfl⟩ := List.cons.inj hhead
    rcases hc with rfl | rfl
    · have htail : '[' ∉ Json.printItems Json.decimal true (m.completedStages.map .string) ++
          ',' :: metadataAfter m := by
        simp [hbracket1, hbracket2]
      obtain ⟨-, rfl⟩ := split_once hbracket htail hbody
      have hprint : '[' :: (Json.printItems Json.decimal true (m.completedStages.map .string) ++
          ',' :: metadataAfter m) =
          Json.print (Json.noNumbers read) (.array (m.completedStages.map .string)) ++
            ',' :: metadataAfter m := by
        rw [Json.print, printItems_strings Json.decimal (Json.noNumbers read)]
        rfl
      rw [hprint] at hparse
      exact Json.parse_trailing read limit _ (by decide) (by decide) v hparse
    · exact hd rfl

/-- A committed file that is written on is accepted only if a line feed is among
the new bytes, that is, with a metadata line of its own. -/
theorem extension_rejected (hc : c.Authentic) (hs : c.Serde) (h : job.envelope c = .ok bytes)
    {tail : Bytes} (hne : tail ≠ []) (htail : newline ∉ tail) :
    splitEnvelope c (bytes ++ tail) t p ≠ .ok (payload, m) := by
  intro hsplit
  obtain ⟨header, pad, rfl, hblock, hheader, htext⟩ := envelope_text hc hs h
  obtain ⟨⟨line, n, hshape, hblock', -, hline, hm⟩, -, -, -⟩ := splitEnvelope_enveloped hsplit
  have hcommon : job.payloadJson c ++ (header ++ newline :: (List.replicate pad space ++ tail)) =
      payload ++ (line ++ newline :: List.replicate n space) := by
    simp only [List.append_assoc, List.cons_append] at hshape
    exact List.append_cancel_left hshape
  have hpos : 0 < tail.length := List.length_pos_iff.mpr hne
  have hlong : (job.payloadJson c).length < payload.length := by
    have hlength := congrArg List.length hcommon
    simp only [List.length_append, List.length_cons, List.length_replicate] at hlength
    omega
  have hbegin : job.payloadJson c <+: payload ++ (line ++ newline :: List.replicate n space) := by
    rw [← hcommon]
    exact List.prefix_append _ _
  obtain ⟨extra, rfl⟩ : job.payloadJson c <+: payload :=
    List.prefix_of_prefix_length_le hbegin (List.prefix_append _ _) hlong.le
  have hextra : extra ≠ [] := by
    rintro rfl
    rw [List.append_nil] at hlong
    exact absurd hlong (lt_irrefl _)
  rw [List.append_assoc] at hcommon
  have hwindow := List.append_cancel_left hcommon
  rw [← List.append_assoc] at hwindow
  have hspaces : newline ∉ List.replicate pad space ++ tail := by
    intro hmem
    rcases List.mem_append.mp hmem with hmem | hmem
    · exact absurd (List.eq_of_mem_replicate hmem) (by decide)
    · exact htail hmem
  obtain ⟨hwhole, -⟩ := split_once hheader hspaces hwindow
  obtain ⟨μ, read, limit, v, hparse, hv⟩ := hs.json _ _ hm
  have hfirst : asciiText extra ≠ [] := by simpa [asciiText] using hextra
  have hcontent : Json.print Json.decimal (job.metadata c).toJson =
      asciiText extra ++ asciiText line := by
    rw [← htext, ← hwhole, asciiText_append]
  exact metadata_suffix hfirst (bare_metadataBefore _ _ _ _ _ _)
    (bare_metadataAfter _ _ _ _ _ _ (hc.digest _)) (bare_stages _) hcontent hv hparse

end Rejected

/-! ## A codec for payloads that are any bytes -/

/-- Checkpoints of one phase whose payload is written as it is. -/
def rawCodec (phase : TaskPhase) (sha256 : Bytes → Bytes) : Codec Bytes where
  phase _ := phase
  encodePayload := id
  decodePayload := .ok
  encodeMetadata m := encodeJson m.toJson
  decodeMetadata bytes := (decodeJson bytes).bind TaskCheckpoint.fromJson
  sha256 := sha256

section Raw
variable {phase : TaskPhase} {sha256 : Bytes → Bytes}

theorem rawCodec_authentic (h : ∀ bytes, (sha256 bytes).length = 32) :
    (rawCodec phase sha256).Authentic :=
  ⟨fun _ _ _ _ _ _ hn hd => decode_newMetadata _ _ _ _ hn hd,
    fun _ _ _ _ _ _ _ hd => line_newMetadata _ _ _ _ _ hd, h⟩

theorem rawCodec_serde : (rawCodec phase sha256).Serde where
  text _ _ _ _ _ _ _ := rfl
  json line m h := by
    cases hdecode : decodeJson line with
    | error e => simp [rawCodec, hdecode, Except.bind] at h
    | ok v =>
      refine ⟨_, Json.decimal.read, defaultJsonDepth, v, ?_, ?_⟩
      · unfold decodeJson at hdecode
        split at hdecode
        · obtain rfl := Except.ok.inj hdecode
          assumption
        · cases hdecode
        · cases hdecode
      · cases v with
        | array items => trivial
        | object entries => trivial
        | null => simp [rawCodec, hdecode, Except.bind, TaskCheckpoint.fromJson, Json.Value.get?, asNat, bind] at h
        | bool b => simp [rawCodec, hdecode, Except.bind, TaskCheckpoint.fromJson, Json.Value.get?, asNat, bind] at h
        | number n => simp [rawCodec, hdecode, Except.bind, TaskCheckpoint.fromJson, Json.Value.get?, asNat, bind] at h
        | string s => simp [rawCodec, hdecode, Except.bind, TaskCheckpoint.fromJson, Json.Value.get?, asNat, bind] at h

theorem rawCodec_envelope (phase : TaskPhase) (hsha : ∀ bytes, (sha256 bytes).length = 32) (job : Commit Bytes)
    (h : magic.length + job.payload.length + headerBlockBytes < Memory.u64Modulus) :
    job.envelope (rawCodec phase sha256) = .ok (magic ++ (job.payload ++
      headerBlock (encodeJson (job.metadata (rawCodec phase sha256)).toJson))) := by
  have hheader : (encodeJson (job.metadata (rawCodec phase sha256)).toJson).length <
      headerBlockBytes := by
    unfold encodeJson
    rw [List.length_map]
    exact length_newMetadata _ _ _ _ (by
      show job.payload.length < Memory.u64Modulus
      omega) (hsha _)
  have hfits : ¬ Memory.u64Modulus ≤ magic.length +
      (job.payloadJson (rawCodec phase sha256)).length + headerBlockBytes := by
    show ¬ Memory.u64Modulus ≤ magic.length + job.payload.length + headerBlockBytes
    omega
  have hsmall : ¬ headerBlockBytes ≤ ((rawCodec phase sha256).encodeMetadata
      (job.metadata (rawCodec phase sha256))).length := by
    show ¬ headerBlockBytes ≤ (encodeJson (job.metadata (rawCodec phase sha256)).toJson).length
    omega
  simp only [Commit.envelope, if_neg hfits, if_neg hsmall]
  rfl

/-- A file whose payload is followed by any block is accepted with a footer that
describes both. -/
theorem rawCodec_extension (phase : TaskPhase) (hsha : ∀ bytes, (sha256 bytes).length = 32) (job : Commit Bytes)
    (block : Bytes)
    (h : magic.length + (job.payload ++ block).length + headerBlockBytes < Memory.u64Modulus) :
    ∃ tail, tail ≠ [] ∧ ∃ r, splitEnvelope (rawCodec phase sha256)
      (magic ++ (job.payload ++ block) ++ tail) job.token phase = .ok r := by
  have henvelope := rawCodec_envelope phase hsha
    { job with payload := job.payload ++ block } h
  have hread := splitEnvelope_envelope (rawCodec_authentic hsha) henvelope
  rw [← List.append_assoc magic] at hread
  exact ⟨_, List.append_ne_nil_of_right_ne_nil _ (List.cons_ne_nil _ _), _, hread⟩

end Raw

/-! ## An extension that is accepted -/

def committedPayload : Bytes := asciiBytes "\x7b\"phase\":\"converted\"\x7d"

def committedToken : RecoveryToken := ⟨"00112233445566778899aabbccddeeff", by decide⟩

def emptyFingerprint : Fingerprint :=
  ⟨"0000000000000000000000000000000000000000000000000000000000000000", by decide⟩

/-- The SHA-256 digest of the payload. -/
def committedDigest : Bytes := [
  247, 122, 204, 84, 237, 68, 40, 6, 245, 3, 198, 76, 207, 209, 68, 233, 139, 32, 129, 253,
  126, 62, 205, 51, 202, 96, 196, 33, 43, 77, 5, 98]

/-- The footer that is committed with the payload. -/
def committedFooter : Bytes :=
  headerBlock (encodeJson (newMetadata committedToken emptyFingerprint emptyFingerprint .converted
    committedPayload.length committedDigest).toJson)

/-- The SHA-256 digest of the payload and its footer. -/
def extendedDigest : Bytes := [
  40, 160, 137, 86, 231, 33, 22, 233, 8, 107, 141, 212, 211, 66, 214, 148, 48, 112, 121, 176,
  13, 100, 116, 26, 120, 65, 172, 146, 5, 93, 22, 31]

def committedSha256 (bytes : Bytes) : Bytes :=
  if bytes = committedPayload then committedDigest
  else if bytes = committedPayload ++ committedFooter then extendedDigest
  else List.replicate 32 0

def committedCodec : Codec Bytes := rawCodec .converted committedSha256

def committedJob (payload : Bytes) : Commit Bytes where
  token := committedToken
  input := emptyFingerprint
  options := emptyFingerprint
  payload := payload
  nonce := "fedcba9876543210fedcba9876543210"
  sizes := []

theorem committedSha256_length (bytes : Bytes) : (committedSha256 bytes).length = 32 := by
  unfold committedSha256
  split_ifs <;> rfl

theorem committedSha256_payload : committedSha256 committedPayload = committedDigest := if_pos rfl

theorem committedCodec_authentic : committedCodec.Authentic :=
  rawCodec_authentic committedSha256_length

theorem committedPayload_object : CompactObject committedPayload where
  braces := ⟨asciiBytes "\"phase\":\"converted\"", by decide⟩
  line := by decide

theorem length_committedFooter : committedFooter.length = headerBlockBytes := by
  apply length_headerBlock
  unfold encodeJson
  rw [List.length_map]
  exact length_newMetadata _ _ _ _ (by decide) rfl

theorem committed_envelope : (committedJob committedPayload).envelope committedCodec =
    .ok (magic ++ (committedPayload ++ committedFooter)) := by
  have hfooter : (committedJob committedPayload).metadata committedCodec =
      newMetadata committedToken emptyFingerprint emptyFingerprint .converted
        committedPayload.length committedDigest := by
    rw [← committedSha256_payload]
    rfl
  have henvelope := rawCodec_envelope .converted committedSha256_length
    (committedJob committedPayload) (by decide)
  rw [committedFooter, ← hfooter]
  exact henvelope

end IntoMarkdown.Recovery
