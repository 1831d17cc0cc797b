import IntoMarkdown.Recovery.Store

/-! # What a commit does

Names do not clash, an envelope is read back as it was written, and a commit
that is cut off anywhere has added one file under known names. -/

namespace IntoMarkdown.Recovery
open IntoMarkdown.Core

/-! ## Names -/

def Hidden (name : String) : Prop := name.toList.head? = some '.'

theorem last_append (a : String) {b : String} {c : Char} (h : b.toList.getLast? = some c) :
    (a ++ b).toList.getLast? = some c := by
  simp only [String.toList_append, List.getLast?_append, h, Option.some_or]

theorem token_head (token : RecoveryToken) :
    ∃ c rest, token.text.toList = c :: rest ∧ isLowerHexDigit c = true := by
  have h := token.canonical
  simp only [canonicalHex, tokenBytes, Bool.and_eq_true, List.all_eq_true] at h
  cases ht : token.text.toList with
  | nil => simp [ht] at h
  | cons c rest => exact ⟨c, rest, rfl, h.2 c (by simp [ht])⟩

theorem token_length (token : RecoveryToken) : token.text.toList.length = 32 := by
  have h := token.canonical
  simp only [canonicalHex, tokenBytes, Bool.and_eq_true] at h
  exact of_decide_eq_true h.1

theorem not_hidden_token (token : RecoveryToken) (rest : String) :
    ¬ Hidden (token.text ++ rest) := by
  obtain ⟨c, cs, ht, hc⟩ := token_head token
  intro h
  simp only [Hidden, String.toList_append, ht, List.cons_append, List.head?_cons,
    Option.some.injEq] at h
  subst h
  exact absurd hc (by decide)

theorem not_hidden_phaseName (token : RecoveryToken) (phase : TaskPhase) :
    ¬ Hidden (phaseName token phase) := by
  simp only [phaseName, String.append_assoc]
  exact not_hidden_token token _

theorem not_hidden_lockName (token : RecoveryToken) : ¬ Hidden (lockName token) :=
  not_hidden_token token ".lock"

theorem not_hidden_of_mem {token : RecoveryToken} {name : String} (h : name ∈ purgeNames token) :
    ¬ Hidden name := by
  simp only [purgeNames, List.mem_cons, List.not_mem_nil, or_false] at h
  rcases h with rfl | rfl | rfl | rfl
  · exact not_hidden_phaseName token _
  · exact not_hidden_phaseName token _
  · exact not_hidden_phaseName token _
  · exact not_hidden_lockName token

theorem hidden_temporaryName (token : RecoveryToken) (nonce : String) :
    Hidden (temporaryName token nonce) := by
  simp [Hidden, temporaryName]

theorem hidden_purgeQuarantineName (source : String) : Hidden (purgeQuarantineName source) := by
  simp [Hidden, purgeQuarantineName]

theorem phaseName_ne_temporaryName (t t' : RecoveryToken) (p : TaskPhase) (nonce : String) :
    phaseName t p ≠ temporaryName t' nonce := by
  intro h
  exact not_hidden_phaseName t p (h ▸ hidden_temporaryName t' nonce)

theorem temporaryName_ne_purgeQuarantineName (token : RecoveryToken) (nonce source : String) :
    temporaryName token nonce ≠ purgeQuarantineName source := by
  intro h
  have hl := congrArg (fun n => n.toList.getLast?) h
  simp only [temporaryName, purgeQuarantineName] at hl
  rw [last_append _ (c := 'p') rfl, last_append _ (c := 'h') rfl] at hl
  exact absurd hl (by decide)

theorem phaseName_inj {t t' : RecoveryToken} {p p' : TaskPhase}
    (h : phaseName t p = phaseName t' p') : t = t' ∧ p = p' := by
  have hl := congrArg String.toList h
  simp only [phaseName, String.append_assoc, String.toList_append] at hl
  obtain ⟨ht, hp⟩ := List.append_inj hl (by rw [token_length, token_length])
  constructor
  · cases t
    cases t'
    congr
    exact String.toList_inj.mp ht
  · cases p <;> cases p' <;> first | rfl | (simp [TaskPhase.fileLabel] at hp)

theorem phaseName_ne_lockName (t t' : RecoveryToken) (p : TaskPhase) :
    phaseName t p ≠ lockName t' := by
  intro h
  have hl := congrArg (fun n => n.toList.getLast?) h
  simp only [phaseName, lockName] at hl
  rw [last_append _ (c := 't') rfl, last_append _ (c := 'k') rfl] at hl
  exact absurd hl (by decide)

theorem purgeQuarantineName_inj {a b : String} (h : purgeQuarantineName a = purgeQuarantineName b) :
    a = b := by
  have hl := congrArg String.toList h
  apply String.toList_inj.mp
  simpa [purgeQuarantineName] using hl

/-! ## An envelope is read back -/

theorem isLowerHexDigit_digitChar {n : Nat} (h : n < 16) : isLowerHexDigit (Nat.digitChar n) := by
  decide +revert

theorem canonicalSha256_hex {digest : Bytes} (h : digest.length = 32) :
    canonicalSha256 (hex digest) = true := by
  have hlength : ∀ bytes : Bytes, (bytes.flatMap fun b =>
      [Nat.digitChar (b.toNat / 16), Nat.digitChar (b.toNat % 16)]).length = 2 * bytes.length := by
    intro bytes
    induction bytes with
    | nil => rfl
    | cons b bytes ih =>
      simp only [List.flatMap_cons, List.length_append, ih, List.length_cons, List.length_nil]
      omega
  simp only [canonicalSha256, canonicalHex, hex, String.toList_ofList, hlength, h,
    Bool.and_eq_true, List.all_eq_true, List.mem_flatMap]
  refine ⟨by decide, ?_⟩
  rintro x ⟨b, -, hx⟩
  have hb := b.toNat_lt
  simp only [List.mem_cons, List.not_mem_nil, or_false] at hx
  rcases hx with rfl | rfl
  · exact isLowerHexDigit_digitChar (by omega)
  · exact isLowerHexDigit_digitChar (by omega)

theorem length_headerBlock {header : Bytes} (h : header.length < headerBlockBytes) :
    (headerBlock header).length = headerBlockBytes := by
  simp only [headerBlock, List.length_append, List.length_cons, List.length_replicate]
  omega

theorem fixedHeaderJson_headerBlock {header : Bytes} (hne : header ≠ []) (hline : newline ∉ header) :
    fixedHeaderJson (headerBlock header) = .ok header := by
  have htake : (headerBlock header).takeWhile (· ≠ newline) = header := by
    rw [headerBlock, List.takeWhile_append_of_pos]
    · simp
    · intro b hb
      simp only [ne_eq, decide_not, Bool.not_eq_eq_eq_not, Bool.not_true, decide_eq_false_iff_not]
      rintro rfl
      exact hline hb
  have hlength : header.length ≠ (headerBlock header).length := by
    simp only [headerBlock, List.length_append, List.length_cons]
    omega
  have hpad : (headerBlock header).drop (header.length + 1) =
      List.replicate (headerBlockBytes - (header.length + 1)) space := by
    rw [headerBlock, List.drop_append]
    simp
  simp only [fixedHeaderJson, htake, hlength, ↓reduceIte, hne, hpad, false_or]
  simp

section Codec
variable {T : Type} {c : Codec T} {job : Commit T} {bytes : Bytes}

/-- The laws that the metadata of an envelope needs; the payload is any bytes. -/
structure Codec.Authentic {T : Type} (c : Codec T) : Prop where
  metadata : ∀ token input options phase n digest, n < Memory.u64Modulus → digest.length = 32 →
    c.decodeMetadata (c.encodeMetadata (newMetadata token input options phase n digest)) =
      .ok (newMetadata token input options phase n digest)
  line : ∀ token input options phase n digest, n < Memory.u64Modulus → digest.length = 32 →
    c.encodeMetadata (newMetadata token input options phase n digest) ≠ [] ∧
      newline ∉ c.encodeMetadata (newMetadata token input options phase n digest)
  digest : ∀ bytes, (c.sha256 bytes).length = 32

theorem Codec.Lawful.authentic (hc : c.Lawful) : c.Authentic := ⟨hc.metadata, hc.line, hc.digest⟩

theorem envelope_eq (h : job.envelope c = .ok bytes) :
    bytes = magic ++ (job.payloadJson c ++ headerBlock (c.encodeMetadata (job.metadata c))) ∧
      (c.encodeMetadata (job.metadata c)).length < headerBlockBytes ∧
      (job.payloadJson c).length < Memory.u64Modulus := by
  simp only [Commit.envelope] at h
  split at h
  · cases h
  · split at h
    · cases h
    · obtain rfl := Except.ok.inj h
      exact ⟨rfl, by omega, by omega⟩

theorem decodeMetadata_headerBlock (hc : c.Authentic) (h : job.envelope c = .ok bytes) :
    decodeMetadata c (headerBlock (c.encodeMetadata (job.metadata c))) =
      .ok (job.metadata c) := by
  obtain ⟨-, -, hlt⟩ := envelope_eq h
  obtain ⟨hne, hline⟩ := hc.line job.token job.input job.options (job.phase c)
    (job.payloadJson c).length _ hlt (hc.digest (job.payloadJson c))
  have hread := hc.metadata job.token job.input job.options (job.phase c)
    (job.payloadJson c).length _ hlt (hc.digest (job.payloadJson c))
  simp only [decodeMetadata, Commit.metadata, fixedHeaderJson_headerBlock hne hline, bind,
    Except.bind, hread, pure, Except.pure]

theorem validate_metadata (hc : c.Authentic) (job : Commit T) {digest : Option String}
    (hd : ∀ d, digest = some d → d = hex (c.sha256 (job.payloadJson c))) :
    (job.metadata c).validate job.token (job.phase c) (job.payloadJson c).length digest = .ok () := by
  have hsha := canonicalSha256_hex (hc.digest (job.payloadJson c))
  have hany : ¬ digest.any fun d => (job.metadata c).payloadSha256 ≠ d := by
    cases hdig : digest with
    | none => simp
    | some d => simp [Commit.metadata, newMetadata, hd d hdig]
  simp only [TaskCheckpoint.validate]
  rw [if_neg, if_neg, if_neg, if_neg, if_neg]
  · simp only [not_or]
    exact ⟨by simp [Commit.metadata, newMetadata], by simpa [Commit.metadata, newMetadata] using hsha,
      hany⟩
  · simp [Commit.metadata, newMetadata, job.input.canonical, job.options.canonical]
  · simp [Commit.metadata, newMetadata]
  · simp [Commit.metadata, newMetadata]
  · simp [Commit.metadata, newMetadata]

/-- The parts of an envelope, as the readers cut it. -/
theorem envelope_parts (h : job.envelope c = .ok bytes) :
    bytes.take magic.length = magic ∧
    bytes.length = magic.length + (job.payloadJson c).length + headerBlockBytes ∧
    (bytes.take (bytes.length - headerBlockBytes)).drop magic.length = job.payloadJson c ∧
    bytes.drop (bytes.length - headerBlockBytes) =
      headerBlock (c.encodeMetadata (job.metadata c)) := by
  obtain ⟨rfl, hlt, -⟩ := envelope_eq h
  have hblock := length_headerBlock hlt
  have hlength : (magic ++ (job.payloadJson c ++
      headerBlock (c.encodeMetadata (job.metadata c)))).length =
      magic.length + (job.payloadJson c).length + headerBlockBytes := by
    simp only [List.length_append, hblock]
    omega
  have hfooter : magic.length + (job.payloadJson c).length + headerBlockBytes - headerBlockBytes =
      (magic ++ job.payloadJson c).length := by
    simp only [List.length_append]
    omega
  refine ⟨List.take_left, hlength, ?_, ?_⟩
  · rw [hlength, hfooter, ← List.append_assoc, List.take_left, List.drop_left]
  · rw [hlength, hfooter, ← List.append_assoc, List.drop_left]

theorem inspectFile_envelope (hc : c.Authentic) (h : job.envelope c = .ok bytes) :
    inspectFile c bytes job.token (job.phase c) = .ok (job.metadata c) := by
  obtain ⟨hmagic, hlength, -, hdrop⟩ := envelope_parts h
  have hsize : bytes.length - (magic.length + headerBlockBytes) = (job.payloadJson c).length := by
    omega
  have hlong : ¬ bytes.length < magic.length + headerBlockBytes := by omega
  have hvalid := validate_metadata hc job (fun d (hd : none = some d) => by cases hd)
  simp only [inspectFile, hlong, hmagic, hdrop, decodeMetadata_headerBlock hc h, hsize, ne_eq,
    not_true_eq_false, ↓reduceIte]
  show (do (job.metadata c).validate _ _ _ none; pure (job.metadata c)) = _
  rw [hvalid]
  rfl

theorem splitEnvelope_envelope (hc : c.Authentic) (h : job.envelope c = .ok bytes) :
    splitEnvelope c bytes job.token (job.phase c) = .ok (job.payloadJson c, job.metadata c) := by
  obtain ⟨hmagic, hlength, hpayload, hdrop⟩ := envelope_parts h
  have hlong : ¬ bytes.length < magic.length + headerBlockBytes := by omega
  have hstarts : magic <+: bytes := by
    rw [← hmagic]
    exact List.take_prefix _ _
  have hvalid := validate_metadata hc job
    fun d (hd : some (hex (c.sha256 (job.payloadJson c))) = some d) => (Option.some.inj hd).symm
  simp only [splitEnvelope, hlong, hstarts, hpayload, hdrop, decodeMetadata_headerBlock hc h,
    not_true_eq_false, or_self, ↓reduceIte]
  show (do (job.metadata c).validate _ _ _ _; pure (_, job.metadata c)) = _
  rw [hvalid]
  rfl

/-- The context has room for `n` more bytes. -/
def Room (context : Memory.State) (n : Nat) : Prop :=
  context.memoryBytes + n ≤ context.limits.maxMemoryBytes

theorem reserveMemory_ok {context : Memory.State} {n : Nat} (h : Room context n) :
    reserveMemory context n = .ok { context with memoryBytes := context.memoryBytes + n } := by
  have hlt := context.limits.memory_lt
  have hfits : context.counter .memory + n < Memory.u64Modulus ∧
      context.counter .memory + n ≤ context.limits.maxMemoryBytes :=
    ⟨lt_of_le_of_lt h hlt, h⟩
  simp only [reserveMemory, Memory.checkedCharge, hfits, and_self, ↓reduceIte]
  rfl

/-- A committed checkpoint loads wherever there is room for it. -/
theorem loadFile_envelope (hc : c.Lawful) (h : job.envelope c = .ok bytes)
    {context : Memory.State} (hroom : Room context (loadCharge bytes)) :
    loadFile c context bytes job.token (job.phase c) = .ok (job.metadata c, job.payload) := by
  obtain ⟨-, -, hpayload, -⟩ := envelope_parts h
  obtain ⟨⟨values, stringBytes⟩, hwalk⟩ := hc.walk job.payload
  have hlt := context.limits.memory_lt
  have hcharge : loadCharge bytes =
      bytes.length + (values * jsonValueAllocationBytes + stringBytes) := by
    rw [loadCharge, payloadOf, hpayload, Commit.payloadJson, hwalk, walkCharge]
  rw [hcharge] at hroom
  unfold Room at hroom
  have hfits : ¬ Memory.u64Modulus ≤ values * jsonValueAllocationBytes := by omega
  -- the three charges, one after the other
  have hfile := reserveMemory_ok (show Room context bytes.length by unfold Room; omega)
  have hvalues := reserveMemory_ok
    (show Room { context with memoryBytes := context.memoryBytes + bytes.length }
      (values * jsonValueAllocationBytes) by simp only [Room]; omega)
  have hstrings := reserveMemory_ok
    (show Room { context with memoryBytes :=
      context.memoryBytes + bytes.length + values * jsonValueAllocationBytes } stringBytes by
        simp only [Room]; omega)
  simp only [loadFile, bind, Except.bind, hfile, splitEnvelope_envelope hc.authentic h, Commit.payloadJson,
    hwalk, hfits, ↓reduceIte, pure, Except.pure, hvalues, hstrings, hc.payload]

end Codec

/-! ## The steps of a commit -/

/-- `d'` is `d` with one more file, which has these names. -/
structure Added (d d' : Files) (names : List String) (bytes : Bytes) : Prop where
  inodes : d'.inodes = d.inodes ++ [bytes]
  lookup : ∀ n, d'.lookup n = if n ∈ names then some d.inodes.length else d.lookup n

/-- Every name refers to a file. -/
def Known (d : Files) : Prop := ∀ n i, d.lookup n = some i → i < d.inodes.length

theorem run_append {a b : List Step} {s s' : Session} (h : run a s = (s', .ok ())) :
    run (a ++ b) s = run b s' := by
  induction a generalizing s with
  | nil =>
    obtain ⟨rfl, -⟩ := Prod.mk.inj h
    rfl
  | cons step a ih =>
    simp only [List.cons_append, run] at h ⊢
    cases hs : step.apply s with
    | error e => simp [hs] at h
    | ok t =>
      simp only [hs] at h
      exact ih h

theorem flatten_pieces (sizes : List Nat) (bytes : Bytes) : (pieces sizes bytes).flatten = bytes := by
  induction sizes generalizing bytes with
  | nil => simp [pieces]
  | cons n sizes ih => simp [pieces, ih]

/-- Every write extends the new file. -/
theorem run_writes {d : Files} {names : List String} (ps : List Bytes) {b : Bytes} {s : Session}
    (hfile : s.file = some d.inodes.length) (hs : Added d s.directory names b) :
    ∃ s', run (ps.map Step.write) s = (s', .ok ()) ∧ Added d s'.directory names (b ++ ps.flatten) := by
  induction ps generalizing b s with
  | nil => exact ⟨s, rfl, by simpa using hs⟩
  | cons p ps ih =>
    have hwrite : Added d (s.directory.write d.inodes.length (· ++ p)) names (b ++ p) := by
      constructor
      · exact Directory.inodes_write_last hs.inodes _
      · exact hs.lookup
    obtain ⟨s', hrun, hadded⟩ := ih
      (s := { s with directory := s.directory.write d.inodes.length (· ++ p) }) hfile hwrite
    refine ⟨s', ?_, by simpa using hadded⟩
    simpa [run, Step.apply, hfile] using hrun

theorem run_staged {d : Files} {temporary : String} (h : d.lookup temporary = none)
    (ps : List Bytes) : ∃ s, run (.create temporary :: ps.map Step.write) { directory := d } =
      (s, .ok ()) ∧ Added d s.directory [temporary] ps.flatten := by
  have hcreate : Step.apply { directory := d } (.create temporary) =
      .ok ⟨⟨d.names.insert temporary d.inodes.length, d.inodes ++ [[]]⟩, some d.inodes.length⟩ := by
    simp [Step.apply, createRegular, Directory.create, h, Except.mapError, bind, Except.bind, pure,
      Except.pure]
  simp only [run, hcreate]
  apply run_writes ps (b := []) rfl
  constructor
  · rfl
  · intro n
    simp [Directory.lookup_def]

theorem apply_sync (s : Session) :
    Step.apply s .sync = .ok s ∧ Step.apply s .syncFile = .ok s := ⟨rfl, rfl⟩

section Tail
variable {d : Files} {s : Session} {temporary target : String} {bytes : Bytes}

theorem apply_rename (target : String) (hd : Known d) (htemp : d.lookup temporary = none)
    (hs : Added d s.directory [temporary] bytes) :
    ∃ s', Step.apply s (.rename temporary target) = .ok s' ∧
      Added d s'.directory [target] bytes := by
  have hnew : s.directory.lookup temporary = some d.inodes.length := by simp [hs.lookup]
  by_cases heq : target = temporary
  · subst heq
    exact ⟨s, by simp [Step.apply, renameReplace, Directory.rename, hnew, Except.mapError, bind,
      Except.bind, pure, Except.pure], hs⟩
  · have hother : s.directory.lookup target ≠ some d.inodes.length := by
      intro h
      rw [hs.lookup, if_neg (by simpa using heq)] at h
      exact absurd (hd _ _ h) (lt_irrefl _)
    refine ⟨{ s with directory := { s.directory with
      names := (s.directory.names.erase temporary).insert target d.inodes.length } }, ?_, hs.inodes,
      fun n => ?_⟩
    · simp [Step.apply, renameReplace, Directory.rename, hnew, hother, Except.mapError, bind,
        Except.bind, pure, Except.pure]
    · simp only [Directory.lookup_mk_insert, OrderedMap.lookup_erase, Directory.lookup_def,
        hs.lookup, List.mem_singleton]
      split
      · rfl
      · split
        · rename_i h
          rw [h, htemp]
        · rfl

theorem apply_link (hs : Added d s.directory [temporary] bytes)
    (htarget : d.lookup target = none) (hne : target ≠ temporary) :
    ∃ s', Step.apply s (.link temporary target) = .ok s' ∧
      Added d s'.directory [temporary, target] bytes := by
  have hnew : s.directory.lookup temporary = some d.inodes.length := by simp [hs.lookup]
  have hfree : s.directory.lookup target = none := by simp [hs.lookup, hne, htarget]
  refine ⟨{ s with directory := { s.directory with
    names := s.directory.names.insert target d.inodes.length } }, ?_, hs.inodes, fun n => ?_⟩
  · simp [Step.apply, linkNoReplace, Directory.link, hnew, hfree, Except.mapError, bind,
      Except.bind, pure, Except.pure]
  · simp only [Directory.lookup_mk_insert, Directory.lookup_def, hs.lookup, List.mem_cons,
      List.not_mem_nil, or_false]
    by_cases h : n = target <;> simp [h]

theorem apply_unlink (htemp : d.lookup temporary = none)
    (hs : Added d s.directory [temporary, target] bytes) (hne : target ≠ temporary) :
    ∃ s', Step.apply s (.unlink temporary) = .ok s' ∧ Added d s'.directory [target] bytes := by
  have hnew : s.directory.lookup temporary = some d.inodes.length := by simp [hs.lookup]
  obtain ⟨d', hd', hinodes, hlookup⟩ := Directory.unlink_ok hnew
  refine ⟨{ s with directory := d' }, ?_, hinodes.trans hs.inodes, fun n => ?_⟩
  · simp [Step.apply, unlink, hd']
  · simp only [hlookup, hs.lookup, List.mem_cons, List.not_mem_nil, or_false]
    by_cases h : n = temporary
    · simp [h, htemp, hne.symm]
    · simp [h]

end Tail

section Cut
variable {T : Type} {c : Codec T} {job : Commit T} {bytes : Bytes} {d : Files}

theorem target_ne_temporary : job.target c ≠ job.temporary :=
  phaseName_ne_temporaryName _ _ _ _

/-- Where a commit may be cut off: before its first step, while the temporary
file is there, between link and unlink, or when only the target is left. -/
inductive CutShape (c : Codec T) (job : Commit T) (bytes : Bytes) (d : Files) (k : Nat)
    (d' : Files) : Prop where
  | before (start : k = 0) (same : d' = d)
  | staged (unclean : ¬ CleanCut c job k) (written : Bytes)
      (added : Added d d' [job.temporary] written)
  | linked (unclean : ¬ CleanCut c job k) (link : job.replace c = false)
      (added : Added d d' [job.temporary, job.target c] bytes)
  | published (clean : CleanCut c job k) (added : Added d d' [job.target c] bytes)

/-- The commit finds its two names as it needs them. -/
structure Startable (c : Codec T) (d : Files) (job : Commit T) : Prop where
  known : Known d
  temporary : d.lookup job.temporary = none
  target : job.replace c = true ∨ d.lookup (job.target c) = none

theorem run_publish (hd : Startable c d job) {s : Session}
    (hs : Added d s.directory [job.temporary] bytes) (j : Nat) :
    ∃ s', run ((Step.syncFile :: publishSteps job.temporary (job.target c) (job.replace c) ++
        [Step.sync]).take j) s = (s', .ok ()) ∧
      (if job.replace c then
        if j ≤ 1 then Added d s'.directory [job.temporary] bytes
        else Added d s'.directory [job.target c] bytes
      else if j ≤ 1 then Added d s'.directory [job.temporary] bytes
        else if j ≤ 3 then Added d s'.directory [job.temporary, job.target c] bytes
        else Added d s'.directory [job.target c] bytes) := by
  cases hr : job.replace c with
  | true =>
    obtain ⟨s1, h1, hs1⟩ := apply_rename (job.target c) hd.known hd.temporary hs
    match j with
    | 0 => exact ⟨s, rfl, by simpa using hs⟩
    | 1 => exact ⟨s, rfl, by simpa using hs⟩
    | j + 2 =>
      refine ⟨s1, ?_, by simpa using hs1⟩
      cases j <;> simp [publishSteps, run, h1, apply_sync]
  | false =>
    have htarget : d.lookup (job.target c) = none := by simpa [hr] using hd.target
    obtain ⟨s1, h1, hs1⟩ := apply_link hs htarget target_ne_temporary
    obtain ⟨s2, h2, hs2⟩ := apply_unlink hd.temporary hs1 target_ne_temporary
    match j with
    | 0 => exact ⟨s, rfl, by simpa using hs⟩
    | 1 => exact ⟨s, rfl, by simpa using hs⟩
    | 2 => exact ⟨s1, by simp [publishSteps, run, h1, apply_sync], by simpa using hs1⟩
    | 3 => exact ⟨s1, by simp [publishSteps, run, h1, apply_sync], by simpa using hs1⟩
    | j + 4 =>
      refine ⟨s2, ?_, by simpa using hs2⟩
      cases j <;> simp [publishSteps, run, h1, h2, apply_sync]

theorem steps_eq (hb : job.envelope c = .ok bytes) :
    job.steps c = (Step.create job.temporary :: (pieces job.sizes bytes).map Step.write) ++
      (Step.syncFile :: publishSteps job.temporary (job.target c) (job.replace c) ++ [Step.sync]) := by
  unfold Commit.steps
  rw [hb]
  simp only [List.append_assoc, List.cons_append]

theorem cleanCut_iff (hb : job.envelope c = .ok bytes) (k : Nat) :
    CleanCut c job k ↔ k = 0 ∨
      (pieces job.sizes bytes).length + 1 + (if job.replace c then 2 else 4) ≤ k := by
  simp only [CleanCut, steps_eq hb, hb, Except.isOk, Except.toBool, true_and]
  cases job.replace c <;> simp [publishSteps]

theorem run_cut (hb : job.envelope c = .ok bytes) (hd : Startable c d job) (k : Nat) :
    ∃ s, run ((job.steps c).take k) { directory := d } = (s, .ok ()) ∧
      CutShape c job bytes d k s.directory := by
  have hclean := cleanCut_iff hb k
  cases k with
  | zero => exact ⟨_, rfl, .before rfl rfl⟩
  | succ j =>
    by_cases hj : j ≤ (pieces job.sizes bytes).length
    · -- the writes have not all been made
      have htake : (job.steps c).take (j + 1) =
          Step.create job.temporary :: ((pieces job.sizes bytes).take j).map Step.write := by
        rw [steps_eq hb, List.cons_append, List.take_succ_cons, List.take_append_of_le_length]
        · rw [List.map_take]
        · simpa using hj
      obtain ⟨s, hrun, hs⟩ := run_staged hd.temporary ((pieces job.sizes bytes).take j)
      have htail : 2 ≤ if job.replace c then 2 else 4 := by split <;> omega
      refine ⟨s, by rw [htake, hrun], .staged ?_ _ hs⟩
      rw [hclean]
      omega
    · obtain ⟨s, hrun, hs⟩ := run_staged hd.temporary (pieces job.sizes bytes)
      rw [flatten_pieces] at hs
      obtain ⟨i, rfl⟩ := Nat.exists_eq_add_of_le (Nat.le_of_not_le hj)
      obtain ⟨s', hrun', hs'⟩ := run_publish hd hs i
      have htake : (job.steps c).take ((pieces job.sizes bytes).length + i + 1) =
          (Step.create job.temporary :: (pieces job.sizes bytes).map Step.write) ++
          (Step.syncFile :: publishSteps job.temporary (job.target c) (job.replace c) ++
            [Step.sync]).take i := by
        have hrest : (pieces job.sizes bytes).length + i + 1 -
            (Step.create job.temporary :: (pieces job.sizes bytes).map Step.write).length = i := by
          simp only [List.length_cons, List.length_map]
          omega
        rw [steps_eq hb, List.take_append, hrest, List.take_of_length_le]
        simp only [List.length_cons, List.length_map]
        omega
      refine ⟨s', by rw [htake, run_append hrun, hrun'], ?_⟩
      split at hs'
      · rename_i hr
        simp only [hr, ↓reduceIte] at hclean
        split at hs'
        · exact .staged (by rw [hclean]; omega) _ hs'
        · exact .published (by rw [hclean]; omega) hs'
      · rename_i hr
        simp only [hr, Bool.false_eq_true, ↓reduceIte] at hclean
        split at hs'
        · exact .staged (by rw [hclean]; omega) _ hs'
        · split at hs'
          · exact .linked (by rw [hclean]; omega) (by simpa using hr) hs'
          · exact .published (by rw [hclean]; omega) hs'

theorem cutOff_shape (hb : job.envelope c = .ok bytes) (hd : Startable c d job)
    (hcheck : commitCheck c d job = .ok ()) (k : Nat) :
    CutShape c job bytes d k (cutOff c d job k) := by
  obtain ⟨s, hrun, hs⟩ := run_cut hb hd k
  simpa [cutOff, hcheck, hrun] using hs

/-- A commit that links, cut off right after the link, leaves both names. -/
theorem cutOff_linked (hb : job.envelope c = .ok bytes) (hd : Startable c d job)
    (hcheck : commitCheck c d job = .ok ()) (hr : job.replace c = false) :
    Added d (cutOff c d job ((pieces job.sizes bytes).length + 3))
      [job.temporary, job.target c] bytes := by
  obtain ⟨s, hrun, hs⟩ := run_staged hd.temporary (pieces job.sizes bytes)
  rw [flatten_pieces] at hs
  obtain ⟨s', hrun', hs'⟩ := run_publish hd hs 2
  have hlinked : Added d s'.directory [job.temporary, job.target c] bytes := by simpa [hr] using hs'
  have htake : (job.steps c).take ((pieces job.sizes bytes).length + 3) =
      (Step.create job.temporary :: (pieces job.sizes bytes).map Step.write) ++
      (Step.syncFile :: publishSteps job.temporary (job.target c) (job.replace c) ++
        [Step.sync]).take 2 := by
    rw [steps_eq hb, List.take_append, List.take_of_length_le] <;> simp
  simp only [cutOff, hcheck]
  rw [htake, run_append hrun, hrun']
  exact hlinked

/-- A commit whose envelope does not fit has left a file without a name. -/
theorem commitInner_error {e : ConversionError} (he : job.envelope c = .error e)
    (hd : Startable c d job) (hcheck : commitCheck c d job = .ok ()) :
    ∃ written, Added d (commitInner c d job).1 [] written := by
  have hsteps : job.steps c = Step.create job.temporary ::
      (pieces job.sizes (magic ++ job.payloadJson c)).map Step.write := by
    unfold Commit.steps
    rw [he]
  obtain ⟨s, hrun, hs⟩ := run_staged hd.temporary (pieces job.sizes (magic ++ job.payloadJson c))
  have hnew : s.directory.lookup job.temporary = some d.inodes.length := by simp [hs.lookup]
  obtain ⟨d', hd', hinodes, hlookup⟩ := Directory.unlink_ok hnew
  have hcommit : (commitInner c d job).1 = d' := by
    simp [commitInner, hcheck, hsteps, hrun, he, unlink, hd']
  rw [hcommit]
  refine ⟨_, hinodes.trans hs.inodes, fun n => ?_⟩
  rw [hlookup, hs.lookup]
  by_cases hn : n = job.temporary
  · simp [hn, hd.temporary]
  · simp [hn]

/-- A commit that runs to its end has added the checkpoint. -/
theorem commitInner_ok (hb : job.envelope c = .ok bytes) (hd : Startable c d job)
    (hcheck : commitCheck c d job = .ok ()) :
    ∃ d', commitInner c d job = (d', .ok ()) ∧ Added d d' [job.target c] bytes := by
  obtain ⟨s, hrun, hs⟩ := run_cut hb hd (job.steps c).length
  rw [List.take_length] at hrun
  refine ⟨s.directory, by simp [commitInner, hcheck, hrun, hb], ?_⟩
  have hclean : CleanCut c job (job.steps c).length :=
    Or.inr ⟨by rw [hb]; rfl, Nat.le_succ _⟩
  cases hs with
  | before start =>
    rw [steps_eq hb] at start
    cases start
  | staged unclean => exact absurd hclean unclean
  | linked unclean => exact absurd hclean unclean
  | published _ added => exact added

end Cut

end IntoMarkdown.Recovery
