import IntoMarkdown.Transaction.Session

/-! # The log's JSON

The payloads that `serde_json` writes for the records of the log, and runs of a
writer with such a log. -/

namespace IntoMarkdown.Transaction
open IntoMarkdown.Lib Json Transition

/-! ## Records -/

def StageResume.schema : Schema StageResume where
  write resume := .object [
    ("configFingerprint", Schema.string.write resume.configFingerprint),
    ("sourceFingerprint", Schema.string.write resume.sourceFingerprint),
    ("chunkSequence", Schema.uint64.write resume.chunkSequence),
    ("durableLen", Schema.uint64.write resume.durableLen),
    ("contentSha256", Schema.string.write resume.contentSha256)]
  read v := do
    let configFingerprint ← v.member "configFingerprint" Schema.string
    let sourceFingerprint ← v.memberOr "sourceFingerprint" Schema.string ""
    let chunkSequence ← v.member "chunkSequence" Schema.uint64
    let durableLen ← v.member "durableLen" Schema.uint64
    let contentSha256 ← v.member "contentSha256" Schema.string
    return ⟨configFingerprint, sourceFingerprint, chunkSequence, durableLen, contentSha256⟩
  depth := 1
  read_write resume := by
    rw [Value.member_write (s := Schema.string) (a := resume.configFingerprint) rfl,
      Value.memberOr_write (s := Schema.string) (a := resume.sourceFingerprint) rfl,
      Value.member_write (s := Schema.uint64) (a := resume.chunkSequence) rfl,
      Value.member_write (s := Schema.uint64) (a := resume.durableLen) rfl,
      Value.member_write (s := Schema.string) (a := resume.contentSha256) rfl]
    rfl
  depth_write resume := by simp [Value.depth, Value.depthEntries, Schema.string, Schema.uint64]
  write_ne_null _ := nofun

/-- The members of a record, its kind first. -/
def JournalRecord.write : JournalRecord → Value Nat
  | .directoryIntent paths => .object [
    ("kind", .string "directoryIntent"),
    ("paths", JournalPath.schema.list.write paths)]
  | .directoriesCreated directories => .object [
    ("kind", .string "directoriesCreated"),
    ("directories", CreatedDirectory.schema.list.write directories)]
  | .targetAdded parent entry => .object [
    ("kind", .string "targetAdded"),
    ("parent", FileIdentity.schema.writeOption parent),
    ("entry", JournalEntry.schema.write entry)]
  | .stageChunk index resume => .object [
    ("kind", .string "stageChunk"),
    ("index", Schema.uint64.write index),
    ("resume", StageResume.schema.write resume)]
  | .stageSealed index size contentSha256 stagedIdentity => .object [
    ("kind", .string "stageSealed"),
    ("index", Schema.uint64.write index),
    ("size", Schema.uint64.write size),
    ("content_sha256", Schema.string.write contentSha256),
    ("staged_identity", FileIdentity.schema.write stagedIdentity)]

def JournalRecord.read (v : Value Nat) : Option JournalRecord := do
  let kind ← v.member "kind" Schema.string
  if kind = "directoryIntent" then
    return .directoryIntent (← v.member "paths" JournalPath.schema.list)
  else if kind = "directoriesCreated" then
    return .directoriesCreated (← v.member "directories" CreatedDirectory.schema.list)
  else if kind = "targetAdded" then
    return .targetAdded (← v.optional "parent" FileIdentity.schema)
      (← v.member "entry" JournalEntry.schema)
  else if kind = "stageChunk" then
    return .stageChunk (← v.member "index" Schema.uint64) (← v.member "resume" StageResume.schema)
  else if kind = "stageSealed" then
    return .stageSealed (← v.member "index" Schema.uint64) (← v.member "size" Schema.uint64)
      (← v.member "content_sha256" Schema.string)
      (← v.member "staged_identity" FileIdentity.schema)
  else none

theorem JournalRecord.read_write (record : JournalRecord) : read record.write = some record := by
  unfold read
  cases record with
  | directoryIntent paths =>
    rw [Value.member_write (s := Schema.string) (a := "directoryIntent") rfl,
      Value.member_write (s := JournalPath.schema.list) (a := paths) rfl]
    rfl
  | directoriesCreated directories =>
    rw [Value.member_write (s := Schema.string) (a := "directoriesCreated") rfl,
      Value.member_write (s := CreatedDirectory.schema.list) (a := directories) rfl]
    rfl
  | targetAdded parent entry =>
    rw [Value.member_write (s := Schema.string) (a := "targetAdded") rfl,
      Value.optional_write (s := FileIdentity.schema) (a := parent) rfl,
      Value.member_write (s := JournalEntry.schema) (a := entry) rfl]
    rfl
  | stageChunk index resume =>
    rw [Value.member_write (s := Schema.string) (a := "stageChunk") rfl,
      Value.member_write (s := Schema.uint64) (a := index) rfl,
      Value.member_write (s := StageResume.schema) (a := resume) rfl]
    rfl
  | stageSealed index size contentSha256 stagedIdentity =>
    rw [Value.member_write (s := Schema.string) (a := "stageSealed") rfl,
      Value.member_write (s := Schema.uint64) (a := index) rfl,
      Value.member_write (s := Schema.uint64) (a := size) rfl,
      Value.member_write (s := Schema.string) (a := contentSha256) rfl,
      Value.member_write (s := FileIdentity.schema) (a := stagedIdentity) rfl]
    rfl

theorem JournalRecord.depth_write (record : JournalRecord) : record.write.depth ≤ 5 := by
  cases record with
  | directoryIntent paths =>
    apply Value.depth_object
    have hpaths := JournalPath.schema.list.depth_write paths
    simp only [List.forall_mem_cons]
    exact ⟨Nat.zero_le _, hpaths.trans (by decide), List.forall_mem_nil _⟩
  | directoriesCreated directories =>
    apply Value.depth_object
    have hdirectories := CreatedDirectory.schema.list.depth_write directories
    simp only [List.forall_mem_cons]
    exact ⟨Nat.zero_le _, hdirectories.trans (by decide), List.forall_mem_nil _⟩
  | targetAdded parent entry =>
    apply Value.depth_object
    have hparent := FileIdentity.schema.depth_writeOption parent
    have hentry := JournalEntry.schema.depth_write entry
    simp only [List.forall_mem_cons]
    exact ⟨Nat.zero_le _, hparent.trans (by decide), hentry.trans (by decide), List.forall_mem_nil _⟩
  | stageChunk index resume =>
    apply Value.depth_object
    have hresume := StageResume.schema.depth_write resume
    simp only [List.forall_mem_cons]
    exact ⟨Nat.zero_le _, Nat.zero_le _, hresume.trans (by decide), List.forall_mem_nil _⟩
  | stageSealed index size contentSha256 stagedIdentity =>
    apply Value.depth_object
    have hidentity := FileIdentity.schema.depth_write stagedIdentity
    simp only [List.forall_mem_cons]
    exact ⟨Nat.zero_le _, Nat.zero_le _, Nat.zero_le _, Nat.zero_le _,
      hidentity.trans (by decide), List.forall_mem_nil _⟩

def JournalRecord.schema : Schema JournalRecord where
  write := JournalRecord.write
  read := JournalRecord.read
  depth := 5
  read_write := JournalRecord.read_write
  depth_write := JournalRecord.depth_write
  write_ne_null record := by cases record <;> nofun

/-- `JournalRecordEnvelope`. -/
def envelopeSchema : Schema (UInt64 × JournalRecord) where
  write e := .object [
    ("sequence", Schema.uint64.write e.1),
    ("record", JournalRecord.schema.write e.2)]
  read v := do
    let sequence ← v.member "sequence" Schema.uint64
    let record ← v.member "record" JournalRecord.schema
    return (sequence, record)
  depth := 6
  read_write e := by
    rw [Value.member_write (s := Schema.uint64) (a := e.1) rfl,
      Value.member_write (s := JournalRecord.schema) (a := e.2) rfl]
    rfl
  depth_write e := by
    apply Value.depth_object
    have hrecord := JournalRecord.schema.depth_write e.2
    simp only [List.forall_mem_cons]
    exact ⟨Nat.zero_le _, hrecord, List.forall_mem_nil _⟩
  write_ne_null _ := nofun

/-- The records as `serde_json` writes and reads them, under a digest. -/
def recordFormat (digest : Bytes → Bytes) : RecordFormat where
  encode sequence record := write decimal (envelopeSchema.write (sequence, record))
  decode bytes := (readJson bytes).bind envelopeSchema.read
  digest := digest

theorem recordFormat_lawful {digest : Bytes → Bytes} (h : ∀ bytes, (digest bytes).length = 32) :
    (recordFormat digest).Lawful where
  decode_encode sequence record := by
    simp only [recordFormat, readJson_write envelopeSchema (sequence, record) (by decide),
      Option.bind_some]
    exact envelopeSchema.read_write _
  length_digest := h

/-! ## A frame behind a torn frame -/

def sampleRecord : JournalRecord := .directoryIntent [⟨"unixBytes", [98]⟩]

def samplePayload : Bytes := Utf8.encode
  ("\x7b\"sequence\":1,\"record\":\x7b\"kind\":\"directoryIntent\",\"paths\":[" ++
    "\x7b\"encoding\":\"unixBytes\",\"units\":[98]\x7d]\x7d\x7d").toList

/-- The SHA-256 digest of the payload. -/
def sampleDigest : Bytes := [
  173, 159, 88, 57, 0, 134, 44, 25, 138, 12, 20, 31, 107, 174, 215, 16, 160, 218, 234, 199, 149,
  166, 127, 69, 181, 96, 254, 145, 108, 16, 168, 117]

def sampleSha256 (bytes : Bytes) : Bytes :=
  if bytes = samplePayload then sampleDigest else List.replicate 32 0

def sampleFormat : RecordFormat := recordFormat sampleSha256

theorem sampleFormat_lawful : sampleFormat.Lawful :=
  recordFormat_lawful fun bytes => by
    unfold sampleSha256
    by_cases h : bytes = samplePayload
    · rw [if_pos h]
      rfl
    · rw [if_neg h, List.length_replicate]

def sampleFrame : Bytes :=
  journalRecordMagic ++ (toLeBytes samplePayload.length ++ (sampleDigest ++ samplePayload))

/-- A journal that is persisted, an append that fails after one byte, and one that
completes. -/
def tornLog : List SessionAction := [
  .persist sampleJournal .completed,
  .append sampleRecord (.torn 1),
  .append sampleRecord .completed]

theorem tornLog_exec :
    (exec (Session.step jsonFormat sampleFormat samplePlace sampleNonce) Session.start tornLog).map
      (fun s => (s.writer.last, s.writer.slots, s.log)) =
        some (some storedJournal, storedSlots, some (73 :: sampleFrame)) := by
  decide +kernel

/-- The frame behind the torn one is not found. -/
theorem tornLog_replay {j : Journal} (hj : j.parentIdentities.Nodup) :
    replayJournalRecords sampleFormat (some (73 :: sampleFrame)) j =
      .error (recoveryError "journal record magic is invalid") := by
  have hlength : ¬ maxJournalBytes < (73 :: sampleFrame).length := by decide +kernel
  have hshort : ¬ (73 :: sampleFrame).length < journalRecordHeaderBytes := by decide +kernel
  have hmagic : ((73 :: sampleFrame).take journalRecordHeaderBytes).take 8 ≠
      journalRecordMagic := by decide +kernel
  rw [replayJournalRecords, if_neg hlength, if_neg (not_not.mpr hj), replayFrames, if_neg hshort,
    if_pos hmagic]
  rfl

theorem torn_frame_rejected : ∃ as s,
    exec (Session.step jsonFormat sampleFormat samplePlace sampleNonce) Session.start as = some s ∧
      ¬ s.Reproduces jsonFormat sampleFormat samplePlace sampleNonce := by
  obtain ⟨s, hs, htorn⟩ := Option.map_eq_some_iff.mp tornLog_exec
  obtain ⟨hlast, hrest⟩ := Prod.mk.inj htorn
  obtain ⟨hslots, hlog⟩ := Prod.mk.inj hrest
  refine ⟨tornLog, s, hs, ?_⟩
  intro hreproduces
  obtain ⟨c, j, hc, -, -, hj⟩ := hreproduces _ hlast
  have hnodup : c.parentIdentities.Nodup := validateJournal_nodup (loadSlots_accepted hc)
  unfold loadJournal at hj
  rw [hc, hlog] at hj
  simp only [bind, Except.bind, tornLog_replay hnodup] at hj
  cases hj

/-! ## A run that is replayed -/

/-- A journal that is persisted, a record, and the loss of the end of its frame. -/
def cutLog : List SessionAction := [
  .persist sampleJournal .completed,
  .append sampleRecord .completed,
  .truncate 100]

theorem storedSlots_newest :
    loadSlots jsonFormat samplePlace sampleNonce storedSlots = .ok storedJournal :=
  loadSlots_newest jsonFormat_lawful storedSlots_shows (b := none) ⟨rfl, rfl⟩ nofun

theorem storedJournal_accepts : (reproduced storedJournal [sampleRecord]).toOption.any
    (fun j => validateJournal samplePlace j = .ok ()) = true := by
  decide +kernel

theorem persisted_exec :
    (Session.step jsonFormat sampleFormat samplePlace sampleNonce Session.start
      (.persist sampleJournal .completed)).map
        (fun s => (s.writer.slots, s.logBytes, s.log, s.records)) =
          some (storedSlots, 0, none, []) := by
  decide +kernel

theorem replay_reproduces_cut : ∃ s,
    exec (Session.step jsonFormat sampleFormat samplePlace sampleNonce) Session.start cutLog =
      some s ∧ s.Reproduces jsonFormat sampleFormat samplePlace sampleNonce := by
  have hrun : (exec (Session.step jsonFormat sampleFormat samplePlace sampleNonce) Session.start
      cutLog).isSome = true := by
    decide +kernel
  obtain ⟨s, hs⟩ := Option.isSome_iff_exists.mp hrun
  refine ⟨s, hs, replay_reproduces jsonFormat_lawful sampleFormat_lawful hs ⟨?_, ?_⟩⟩
  · intro c generation hc
    cases hc
  · intro t ht
    have hpersisted := persisted_exec
    rw [ht] at hpersisted
    simp only [Option.map_some, Option.some.injEq, Prod.mk.injEq] at hpersisted
    obtain ⟨hslots, hbytes, hlog, hrecords⟩ := hpersisted
    refine ⟨.inr ⟨?_, ?_⟩, fun _ _ => ⟨trivial, fun _ _ => trivial⟩⟩
    · rw [Session.file, hlog, hbytes]
      rfl
    · rintro - c hc
      rw [hslots, storedSlots_newest, Except.ok.injEq] at hc
      subst hc
      rw [hrecords, List.nil_append]
      have haccepts := storedJournal_accepts
      cases hj : reproduced storedJournal [sampleRecord] with
      | error e =>
        rw [hj] at haccepts
        cases haccepts
      | ok j =>
        rw [hj] at haccepts
        exact ⟨j, rfl, of_decide_eq_true haccepts⟩

end IntoMarkdown.Transaction
