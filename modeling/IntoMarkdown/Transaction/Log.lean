import IntoMarkdown.Lib.OrderedMap
import IntoMarkdown.Transaction.Slots

/-! # The journal log

The records that `append_journal_record_handle` frames and appends, and how
`replay_journal_records` applies them to the journal of the newest slot. -/

namespace IntoMarkdown.Transaction

/-! ## Frames -/

def journalRecordMagic : Bytes := [73, 77, 68, 74, 82, 78, 76, 49]
def journalRecordHeaderBytes : Nat := 48

/-- `u64::to_le_bytes`. -/
def toLeBytes (n : Nat) : Bytes := (List.range 8).map fun i => UInt8.ofNat (n / 256 ^ i)

/-- `u64::from_le_bytes`. -/
def fromLeBytes (bytes : Bytes) : Nat := bytes.foldr (fun b n => b.toNat + 256 * n) 0

/-- `serde_json` over the envelope of a record, and SHA-256. -/
structure RecordFormat where
  encode : UInt64 → JournalRecord → Bytes
  decode : Bytes → Option (UInt64 × JournalRecord)
  digest : Bytes → Bytes

structure RecordFormat.Lawful (f : RecordFormat) : Prop where
  decode_encode : ∀ sequence record, f.decode (f.encode sequence record) = some (sequence, record)
  length_digest : ∀ bytes, (f.digest bytes).length = 32

def RecordFormat.frame (f : RecordFormat) (payload : Bytes) : Bytes :=
  journalRecordMagic ++ (toLeBytes payload.length ++ (f.digest payload ++ payload))

/-! ## Appending -/

/-- How an append ends: with the whole frame, with an error before the log's file
is touched, or with an error or a crash after some bytes of the frame. -/
inductive AppendOutcome where
  | completed
  | refused
  | torn (count : Nat)
  deriving DecidableEq, Repr

/-- `append_journal_record_handle`: the log's sequence and size in memory, and its file. -/
def appendRecord (f : RecordFormat) (logSequence : UInt64) (logBytes : Nat) (log : Option Bytes)
    (record : JournalRecord) (outcome : AppendOutcome) : Option (UInt64 × Nat × Option Bytes) :=
  match outcome with
  | .refused => some (logSequence, logBytes, log)
  | outcome =>
    match checkedSucc logSequence with
    | none => none
    | some sequence =>
      let payload := f.encode sequence record
      let nextLogBytes := logBytes + (journalRecordHeaderBytes + payload.length)
      if maxJournalBytes < payload.length ∨ maxJournalBytes < nextLogBytes then none
      else
        let file := log.getD []
        match outcome with
        | .torn count =>
          if count < (f.frame payload).length then
            some (logSequence, logBytes, some (file ++ (f.frame payload).take count))
          else none
        | _ => some (sequence, nextLogBytes, some (file ++ f.frame payload))

/-! ## Applying a record -/

/-- The journal with what the replay keeps beside it: the parents that it has seen,
and the stages that can be resumed. -/
structure Replayed where
  journal : Journal
  parentIndex : List FileIdentity
  resumableStages : OrderedMap Nat StageResume

def resumeChunkBytes : UInt64 := 1024 * 1024

def saturatingAdd (a b : UInt64) : UInt64 :=
  if a.toNat + b.toNat < 2 ^ 64 then a + b else UInt64.ofNat (2 ^ 64 - 1)

def validDigest (value : String) : Bool :=
  value.toList.length = 64 && value.toList.all isHexDigit

def StageResume.follows (resume previous : StageResume) : Bool :=
  resume.chunkSequence = saturatingAdd previous.chunkSequence 1 &&
    resume.durableLen = saturatingAdd previous.durableLen resumeChunkBytes &&
    resume.configFingerprint = previous.configFingerprint &&
    resume.sourceFingerprint = previous.sourceFingerprint

def StageResume.wellFormed (resume : StageResume) : Bool :=
  validDigest resume.contentSha256 && validDigest resume.configFingerprint &&
    (resume.sourceFingerprint = "" || validDigest resume.sourceFingerprint)

/-- `apply_journal_record`. -/
def Replayed.apply (r : Replayed) (record : JournalRecord) : Except CliError Replayed :=
  let j := r.journal
  if j.phase ≠ .staging then
    .error (recoveryError "journal record follows a non-staging checkpoint")
  else match record with
  | .directoryIntent paths =>
    if j.pendingDirectories ≠ [] then
      .error (recoveryError "journal contains overlapping directory intents")
    else .ok { r with journal := { j with pendingDirectories := paths } }
  | .directoriesCreated directories =>
    if j.pendingDirectories ≠ directories.map (·.path) then
      .error (recoveryError "created directories do not match their intent")
    else .ok { r with journal := { j with
      createdDirectories := j.createdDirectories ++ directories
      pendingDirectories := [] } }
  | .targetAdded parent entry =>
    if maxJournalEntries ≤ j.entries.length then
      .error (recoveryError "journal record target count exceeds its limit")
    else match parent with
    | none => .ok { r with journal := { j with entries := j.entries ++ [entry] } }
    | some parent =>
      if r.parentIndex.contains parent then
        .error (recoveryError "journal repeats a physical parent identity")
      else .ok { r with
        journal := { j with
          parentIdentities := j.parentIdentities ++ [parent]
          entries := j.entries ++ [entry] }
        parentIndex := parent :: r.parentIndex }
  | .stageChunk index resume =>
    match j.entries[index.toNat]? with
    | none => .error (recoveryError "stage chunk has no journal target")
    | some entry =>
      if entry.stagedIdentity.isSome ∨ entry.contentSha256 ≠ "" then
        .error (recoveryError "stage chunk follows a sealed stage")
      else if !resume.wellFormed then
        .error (recoveryError "stage chunk resume metadata is malformed")
      else
        let stages := r.resumableStages.insert index.toNat resume
        match r.resumableStages.lookup index.toNat with
        | some previous =>
          if resume.follows previous then .ok { r with resumableStages := stages }
          else .error (recoveryError "stage chunk resume sequence is not contiguous")
        | none =>
          if resume.chunkSequence ≠ 1 ∨ resume.durableLen ≠ resumeChunkBytes then
            .error (recoveryError "stage chunk resume sequence does not start at one")
          else .ok { r with resumableStages := stages }
  | .stageSealed index size contentSha256 stagedIdentity =>
    match j.entries[index.toNat]? with
    | none => .error (recoveryError "sealed stage has no journal target")
    | some entry =>
      if entry.stagedIdentity.isSome ∨ entry.contentSha256 ≠ "" then
        .error (recoveryError "journal stage was sealed more than once")
      else
        let entry := { entry with
          size := size
          contentSha256 := contentSha256
          stagedIdentity := some stagedIdentity }
        .ok { r with
          journal := { j with entries := j.entries.set index.toNat entry }
          resumableStages := r.resumableStages.erase index.toNat }

/-- Apply a record that the journal does not cover yet. -/
def Replayed.take (r : Replayed) (sequence : UInt64) (record : JournalRecord) :
    Except CliError Replayed :=
  if r.journal.logSequence < sequence then do
    let r ← r.apply record
    return { r with journal := { r.journal with logSequence := sequence } }
  else .ok r

/-! ## Replaying -/

/-- The loop over the frames of the log. A frame whose bytes are not all there
ends it. -/
def replayFrames (f : RecordFormat) :
    Nat → Bytes → UInt64 → Replayed → Except CliError Replayed
  | 0, _, _, r => .ok r
  | fuel + 1, bytes, expected, r =>
    if bytes.length < journalRecordHeaderBytes then .ok r
    else
      let header := bytes.take journalRecordHeaderBytes
      let rest := bytes.drop journalRecordHeaderBytes
      if header.take 8 ≠ journalRecordMagic then
        .error (recoveryError "journal record magic is invalid")
      else
        let length := fromLeBytes ((header.drop 8).take 8)
        if rest.length < length then .ok r
        else if f.digest (rest.take length) ≠ header.drop 16 then
          .error (recoveryError "journal record digest is invalid")
        else match f.decode (rest.take length) with
        | none => .error (recoveryError "journal record payload is malformed")
        | some (sequence, record) =>
          if sequence ≠ expected then
            .error (recoveryError "journal record sequence is not contiguous")
          else do
            let r ← r.take sequence record
            match checkedSucc expected with
            | none => .error (recoveryError "journal record sequence overflowed")
            | some expected => replayFrames f fuel (rest.drop length) expected r

/-- `replay_journal_records`. -/
def replayJournalRecords (f : RecordFormat) (log : Option Bytes) (journal : Journal) :
    Except CliError Journal :=
  match log with
  | none => .ok journal
  | some bytes =>
    if maxJournalBytes < bytes.length then
      .error (recoveryError "journal log exceeds its byte limit")
    else if ¬ journal.parentIdentities.Nodup then
      .error (recoveryError "journal contains duplicate physical parent identities")
    else do
      let r ← replayFrames f (bytes.length + 1) bytes 1
        ⟨journal, journal.parentIdentities, .empty⟩
      return r.journal

end IntoMarkdown.Transaction
