import IntoMarkdown.Lib.Json
import IntoMarkdown.Recovery.Commit

/-! # The metadata's JSON

`TaskCheckpoint` as `serde_json` writes it, its round trip, and a codec for
checkpoints whose payload is the name of their phase. -/

namespace IntoMarkdown.Recovery
open IntoMarkdown.Lib IntoMarkdown.Core

def TaskPhase.fromLabel (label : String) : Except String TaskPhase :=
  if label = "media" then .ok .media
  else if label = "converted" then .ok .converted
  else if label = "succeeded" then .ok .succeeded
  else .error s!"unknown variant `{label}`"

def TaskCheckpoint.toJson (m : TaskCheckpoint) : Json.Value Nat :=
  .object [
    ("schemaVersion", .number m.schemaVersion),
    ("token", .string m.token),
    ("inputFingerprint", .string m.inputFingerprint),
    ("optionsFingerprint", .string m.optionsFingerprint),
    ("phase", .string m.phase.fileLabel),
    ("completedStages", .array (m.completedStages.map .string)),
    ("payloadBytes", .number m.payloadBytes),
    ("payloadSha256", .string m.payloadSha256)]

def asNat (bound : Nat) : Option (Json.Value Nat) → Except String Nat
  | some (.number n) => if n < bound then .ok n else .error "invalid value"
  | some _ => .error "invalid type"
  | none => .error "missing field"

def asString : Option (Json.Value Nat) → Except String String
  | some (.string s) => .ok s
  | some _ => .error "invalid type"
  | none => .error "missing field"

def asStrings : Option (Json.Value Nat) → Except String (List String)
  | some (.array items) => items.mapM fun v => asString (some v)
  | some _ => .error "invalid type"
  | none => .error "missing field"

def TaskCheckpoint.fromJson (v : Json.Value Nat) : Except String TaskCheckpoint := do
  let schemaVersion ← asNat (2 ^ 32) (v.get? "schemaVersion")
  let token ← asString (v.get? "token")
  let inputFingerprint ← asString (v.get? "inputFingerprint")
  let optionsFingerprint ← asString (v.get? "optionsFingerprint")
  let phase ← asString (v.get? "phase")
  let phase ← TaskPhase.fromLabel phase
  let completedStages ← asStrings (v.get? "completedStages")
  let payloadBytes ← asNat Memory.u64Modulus (v.get? "payloadBytes")
  let payloadSha256 ← asString (v.get? "payloadSha256")
  return TaskCheckpoint.mk schemaVersion token inputFingerprint optionsFingerprint phase
    completedStages payloadBytes payloadSha256

def asciiText (bytes : Bytes) : List Char := bytes.map fun b => Char.ofNat b.toNat

def encodeJson (v : Json.Value Nat) : Bytes :=
  (Json.print Json.decimal v).map fun c => UInt8.ofNat c.toNat

/-- The nesting that `serde_json` reads by default. -/
def defaultJsonDepth : Nat := 127

def decodeJson (bytes : Bytes) : Except String (Json.Value Nat) :=
  match Json.parse Json.decimal.read defaultJsonDepth (asciiText bytes) with
  | .ok v => .ok v
  | .error .recursionLimit => .error "recursion limit exceeded"
  | .error .malformed => .error "invalid JSON"

/-! ## Reading the metadata back -/

/-- A text without control characters, all in ASCII. -/
def Printable (cs : List Char) : Prop := ∀ c ∈ cs, 32 ≤ c.toNat ∧ c.toNat < 128

instance (cs : List Char) : Decidable (Printable cs) :=
  decidable_of_iff (cs.all fun c => 32 ≤ c.toNat && c.toNat < 128) (by simp [Printable])

theorem printable_append {xs ys : List Char} :
    Printable (xs ++ ys) ↔ Printable xs ∧ Printable ys := by
  simp only [Printable, List.forall_mem_append]

theorem printable_escape {c : Char} (h : 32 ≤ c.toNat ∧ c.toNat < 128) :
    Printable (Json.escape c) := by
  intro d hd
  rcases Json.escape_cases c with ⟨he, -⟩ | ⟨e, he, -, hs⟩ | ⟨-, hlow⟩
  · rw [he, List.mem_singleton] at hd
    rw [hd]
    exact h
  · have hlong : Json.simpleEscape e ≠ none := by simp [hs]
    have he' : e ∈ ['"', '\\', '/', 'b', 'f', 'n', 'r', 't'] := by
      by_contra hmem
      simp only [List.mem_cons, List.not_mem_nil, or_false, not_or] at hmem
      simp [Json.simpleEscape, hmem] at hlong
    rw [he, List.mem_cons, List.mem_singleton] at hd
    rcases hd with rfl | rfl
    · decide
    · fin_cases he' <;> decide
  · omega

theorem printable_printString {s : String} (h : Printable s.toList) :
    Printable (Json.printString s) := by
  have hquote : Printable ['"'] := by
    intro c hc
    rw [List.mem_singleton] at hc
    rw [hc]
    decide
  show Printable (['"'] ++ (s.toList.flatMap Json.escape ++ ['"']))
  rw [printable_append, printable_append]
  refine ⟨hquote, ?_, hquote⟩
  intro d hd
  obtain ⟨c, hc, hcd⟩ := List.mem_flatMap.mp hd
  exact printable_escape (h c hc) d hcd

theorem printable_digits (n : Nat) : Printable (Json.decimal.print n) := by
  intro c hc
  have h : 48 ≤ c.toNat ∧ c.toNat ≤ 57 := Char.isDigit_iff_toNat.mp (Json.decimal_digits hc)
  omega

theorem printable_canonicalHex {n : Nat} {s : String} (h : canonicalHex n s = true) :
    Printable s.toList := by
  intro c hc
  simp only [canonicalHex, Bool.and_eq_true, List.all_eq_true] at h
  have hdigit := h.2 c hc
  simp only [isLowerHexDigit, Bool.or_eq_true, Bool.and_eq_true, decide_eq_true_eq] at hdigit
  omega

theorem asciiText_encode {cs : List Char} (h : Printable cs) :
    asciiText (cs.map fun c => UInt8.ofNat c.toNat) = cs := by
  unfold asciiText
  rw [List.map_map]
  conv_rhs => rw [← List.map_id cs]
  apply List.map_congr_left
  intro c hc
  have hlt := (h c hc).2
  have hbyte : (UInt8.ofNat c.toNat).toNat = c.toNat := by
    rw [UInt8.toNat_ofNat']
    omega
  simp only [Function.comp, hbyte, Char.ofNat_toNat, id]

theorem decodeJson_encodeJson {v : Json.Value Nat} (hp : Printable (Json.print Json.decimal v))
    (hd : v.depth ≤ defaultJsonDepth) : decodeJson (encodeJson v) = .ok v := by
  have hparse := Json.parse_print Json.decimal_lawful defaultJsonDepth v
  rw [if_pos hd] at hparse
  unfold decodeJson encodeJson
  rw [asciiText_encode hp, hparse]
  show Except.ok (v.map id) = _
  rw [Json.Value.map_id]

theorem asStrings_map (stages : List String) :
    asStrings (some (.array (stages.map .string))) = .ok stages := by
  show (stages.map Json.Value.string).mapM (fun v => asString (some v)) = _
  induction stages with
  | nil => rfl
  | cons stage stages ih =>
    rw [List.map_cons, List.mapM_cons, ih]
    rfl

theorem fromLabel_fileLabel (phase : TaskPhase) :
    TaskPhase.fromLabel phase.fileLabel = .ok phase := by
  cases phase <;> decide

theorem fromJson_toJson {m : TaskCheckpoint} (hs : m.schemaVersion < 2 ^ 32)
    (hn : m.payloadBytes < Memory.u64Modulus) : TaskCheckpoint.fromJson m.toJson = .ok m := by
  have hversion : asNat (2 ^ 32) (m.toJson.get? "schemaVersion") = .ok m.schemaVersion := by
    simpa [TaskCheckpoint.toJson, Json.Value.get?, asNat] using hs
  have hbytes : asNat Memory.u64Modulus (m.toJson.get? "payloadBytes") = .ok m.payloadBytes := by
    simp [TaskCheckpoint.toJson, Json.Value.get?, asNat, hn]
  have hstages : asStrings (m.toJson.get? "completedStages") = .ok m.completedStages := by
    rw [← asStrings_map m.completedStages]
    simp [TaskCheckpoint.toJson, Json.Value.get?]
  unfold TaskCheckpoint.fromJson
  rw [hversion, hbytes, hstages]
  simp [TaskCheckpoint.toJson, Json.Value.get?, asString, bind, Except.bind, fromLabel_fileLabel]
  rfl

theorem printable_cons {c : Char} {cs : List Char} :
    Printable (c :: cs) ↔ (32 ≤ c.toNat ∧ c.toNat < 128) ∧ Printable cs := by
  simp only [Printable, List.forall_mem_cons]

theorem printable_nil : Printable [] := by
  intro c hc
  cases hc

theorem printable_metadata {m : TaskCheckpoint} (htoken : Printable m.token.toList)
    (hinput : Printable m.inputFingerprint.toList)
    (hoptions : Printable m.optionsFingerprint.toList)
    (hstages : ∀ stage ∈ m.completedStages, Printable stage.toList)
    (hdigest : Printable m.payloadSha256.toList) :
    Printable (Json.print Json.decimal m.toJson) := by
  have hitems (first : Bool) (stages : List String) (h : ∀ stage ∈ stages, Printable stage.toList) :
      Printable (Json.printItems Json.decimal first (stages.map .string)) := by
    induction stages generalizing first with
    | nil => simp [Json.printItems, printable_cons, printable_nil]
    | cons stage stages ih =>
      have hstage := printable_printString (h stage List.mem_cons_self)
      have hrest := ih false fun s hs => h s (List.mem_cons_of_mem _ hs)
      cases first <;>
        simp [Json.printItems, Json.print, printable_append, printable_cons, hstage, hrest]
  have hphase : Printable (Json.printString m.phase.fileLabel) := by
    apply printable_printString
    cases m.phase <;> simp [TaskPhase.fileLabel, printable_cons, printable_nil]
  simp only [TaskCheckpoint.toJson, Json.print, Json.printEntries, if_true,
    printable_append, printable_cons, printable_nil, printable_digits,
    printable_printString htoken, printable_printString hinput, printable_printString hoptions,
    printable_printString hdigest, hphase, hitems true _ hstages]
  decide +kernel

/-! ## A codec -/

/-- A payload that holds no more than its phase. -/
def payloadJson (phase : TaskPhase) : Json.Value Nat :=
  .object [("phase", .string phase.fileLabel)]

def readPayload (bytes : Bytes) : Except String TaskPhase := do
  let v ← decodeJson bytes
  let label ← asString (v.get? "phase")
  TaskPhase.fromLabel label

/-- The codec of these payloads; the digests are a table, zero elsewhere. -/
def phaseCodec (digests : TaskPhase → Bytes) : Codec TaskPhase where
  phase := id
  encodePayload phase := encodeJson (payloadJson phase)
  decodePayload := readPayload
  encodeMetadata m := encodeJson m.toJson
  decodeMetadata bytes := (decodeJson bytes).bind TaskCheckpoint.fromJson
  sha256 bytes :=
    if bytes = encodeJson (payloadJson .media) then digests .media
    else if bytes = encodeJson (payloadJson .converted) then digests .converted
    else if bytes = encodeJson (payloadJson .succeeded) then digests .succeeded
    else List.replicate 32 0

theorem depth_metadata (m : TaskCheckpoint) : m.toJson.depth ≤ defaultJsonDepth := by
  have hstages : Json.Value.depthItems (m.completedStages.map (Json.Value.string : _ → Json.Value Nat)) = 0 := by
    induction m.completedStages with
    | nil => rfl
    | cons stage stages ih => simpa [Json.Value.depthItems, Json.Value.depth] using ih
  simp [TaskCheckpoint.toJson, Json.Value.depth, Json.Value.depthEntries, hstages,
    defaultJsonDepth]

theorem printable_newMetadata (token : RecoveryToken) (input options : Fingerprint)
    (phase : TaskPhase) (n : Nat) {digest : Bytes} (h : digest.length = 32) :
    Printable (Json.print Json.decimal (newMetadata token input options phase n digest).toJson) := by
  apply printable_metadata
  · exact printable_canonicalHex token.canonical
  · exact printable_canonicalHex input.canonical
  · exact printable_canonicalHex options.canonical
  · intro stage hstage
    have hlabels : ∀ label ∈ ["media", "converted", "rendered", "succeeded"],
        Printable label.toList := by
      intro label hlabel
      fin_cases hlabel <;> decide
    apply hlabels
    cases phase <;> simp_all [newMetadata, TaskPhase.stages]
  · exact printable_canonicalHex (canonicalSha256_hex h)

section NewMetadata
variable (token : RecoveryToken) (input options : Fingerprint) (phase : TaskPhase)

theorem decode_newMetadata {n : Nat} {digest : Bytes} (hn : n < Memory.u64Modulus)
    (h : digest.length = 32) :
    (decodeJson (encodeJson (newMetadata token input options phase n digest).toJson)).bind
      TaskCheckpoint.fromJson = .ok (newMetadata token input options phase n digest) := by
  have hprint := printable_newMetadata token input options phase n h
  rw [decodeJson_encodeJson hprint (depth_metadata _)]
  exact fromJson_toJson (by simp [newMetadata, checkpointSchemaVersion]) hn

theorem line_newMetadata (n : Nat) {digest : Bytes} (h : digest.length = 32) :
    encodeJson (newMetadata token input options phase n digest).toJson ≠ [] ∧
      newline ∉ encodeJson (newMetadata token input options phase n digest).toJson := by
  have hprint := printable_newMetadata token input options phase n h
  refine ⟨by simp [encodeJson, TaskCheckpoint.toJson, Json.print], ?_⟩
  intro hmem
  obtain ⟨c, hc, hbyte⟩ := List.mem_map.mp hmem
  have hrange := hprint c hc
  have hvalue := congrArg UInt8.toNat hbyte
  rw [UInt8.toNat_ofNat'] at hvalue
  have hnewline : newline.toNat = 10 := rfl
  omega

end NewMetadata

theorem phaseCodec_lawful {digests : TaskPhase → Bytes} (h : ∀ phase, (digests phase).length = 32) :
    (phaseCodec digests).Lawful where
  payload phase := by
    have hprint : Printable (Json.print Json.decimal (payloadJson phase)) := by
      cases phase <;> decide +kernel
    have hdepth : (payloadJson phase).depth ≤ defaultJsonDepth := by
      cases phase <;> decide
    show readPayload (encodeJson (payloadJson phase)) = .ok phase
    unfold readPayload
    rw [decodeJson_encodeJson hprint hdepth]
    cases phase <;> rfl
  walk phase := by
    show ∃ stats, preflightJson (encodeJson (payloadJson phase)) = .ok stats
    cases phase
    · exact ⟨(3, 12), by decide +kernel⟩
    · exact ⟨(3, 16), by decide +kernel⟩
    · exact ⟨(3, 16), by decide +kernel⟩
  metadata _ _ _ _ _ _ hn hdigest := decode_newMetadata _ _ _ _ hn hdigest
  line _ _ _ _ _ _ _ hdigest := line_newMetadata _ _ _ _ _ hdigest
  digest bytes := by
    simp only [phaseCodec]
    split_ifs
    · exact h .media
    · exact h .converted
    · exact h .succeeded
    · exact List.length_replicate

/-! ## The header block holds the metadata -/

theorem length_escape (c : Char) : (Json.escape c).length ≤ 6 := by
  rcases Json.escape_cases c with ⟨he, -⟩ | ⟨e, he, -⟩ | ⟨he, -⟩ <;> simp [he]

theorem length_printString (s : String) :
    (Json.printString s).length ≤ 6 * s.toList.length + 2 := by
  have hchars : ∀ cs : List Char, (cs.flatMap Json.escape).length ≤ 6 * cs.length := by
    intro cs
    induction cs with
    | nil => simp
    | cons c cs ih =>
      have := length_escape c
      simp only [List.flatMap_cons, List.length_append, List.length_cons]
      omega
  have := hchars s.toList
  simp only [Json.printString, Json.printChars, List.length_cons, List.length_append,
    List.length_nil]
  omega

theorem length_of_canonicalHex {n : Nat} {s : String} (h : canonicalHex n s = true) :
    s.toList.length = n := by
  simp only [canonicalHex, Bool.and_eq_true, decide_eq_true_eq] at h
  exact h.1

theorem length_printPhase (phase : TaskPhase) :
    (Json.printString phase.fileLabel).length ≤ 11 ∧
      (Json.printItems Json.decimal true (phase.stages.map .string)).length ≤ 36 := by
  cases phase <;> decide

theorem length_newMetadata (token : RecoveryToken) (input options : Fingerprint)
    (phase : TaskPhase) {n : Nat} {digest : Bytes} (hn : n < Memory.u64Modulus)
    (h : digest.length = 32) :
    (Json.print Json.decimal (newMetadata token input options phase n digest).toJson).length <
      headerBlockBytes := by
  have htoken := length_printString token.text
  have hinput := length_printString input.text
  have hoptions := length_printString options.text
  have hdigest := length_printString (hex digest)
  rw [length_of_canonicalHex token.canonical] at htoken
  rw [length_of_canonicalHex input.canonical] at hinput
  rw [length_of_canonicalHex options.canonical] at hoptions
  rw [length_of_canonicalHex (canonicalSha256_hex h)] at hdigest
  have hdigits : (Json.decimal.print n).length ≤ 20 :=
    (Nat.length_toDigits_le_iff (by decide) (by decide)).mpr (by
      unfold Memory.u64Modulus at hn
      omega)
  have hversion : (Json.decimal.print checkpointSchemaVersion).length = 1 := by decide
  have hphase := length_printPhase phase
  have hkeys : (Json.printString "schemaVersion").length = 15 ∧
      (Json.printString "token").length = 7 ∧
      (Json.printString "inputFingerprint").length = 18 ∧
      (Json.printString "optionsFingerprint").length = 20 ∧
      (Json.printString "phase").length = 7 ∧
      (Json.printString "completedStages").length = 17 ∧
      (Json.printString "payloadBytes").length = 14 ∧
      (Json.printString "payloadSha256").length = 15 := by decide
  simp only [newMetadata, TaskCheckpoint.toJson, Json.print, Json.printEntries, if_true,
    Bool.false_eq_true, if_false, List.length_append, List.length_cons, List.length_nil, hkeys,
    hversion, headerBlockBytes]
  unfold tokenBytes at htoken
  omega

theorem phaseCodec_envelope (digests : TaskPhase → Bytes)
    (h : ∀ phase, (digests phase).length = 32) (job : Commit TaskPhase) :
    ∃ bytes, job.envelope (phaseCodec digests) = .ok bytes := by
  have hpayload : ∀ phase, (encodeJson (payloadJson phase)).length ≤ 21 := by
    intro phase
    cases phase <;> decide
  have hlength : (job.payloadJson (phaseCodec digests)).length ≤ 21 := hpayload job.payload
  have hmodulus : Memory.u64Modulus = 18446744073709551616 := by decide
  have hheader : ((phaseCodec digests).encodeMetadata (job.metadata (phaseCodec digests))).length <
      headerBlockBytes := by
    show (encodeJson _).length < _
    unfold encodeJson
    rw [List.length_map]
    exact length_newMetadata _ _ _ _ (by omega) ((phaseCodec_lawful h).digest _)
  have hmagic : magic.length = 28 := by decide
  have hfits : ¬ Memory.u64Modulus ≤
      magic.length + (job.payloadJson (phaseCodec digests)).length + headerBlockBytes := by
    rw [hmodulus, hmagic]
    unfold headerBlockBytes
    omega
  have hsmall : ¬ headerBlockBytes ≤
      ((phaseCodec digests).encodeMetadata (job.metadata (phaseCodec digests))).length := by
    omega
  simp only [Commit.envelope, if_neg hfits, if_neg hsmall]
  exact ⟨_, rfl⟩

end IntoMarkdown.Recovery
