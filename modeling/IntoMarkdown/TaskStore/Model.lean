import IntoMarkdown.Lib.JsonSchema
import IntoMarkdown.Lib.OrderedMap
import IntoMarkdown.Recovery.Envelope

/-! # Tasks and their rows

The records that callers see, the checks that they have to pass, and the rows of
the tables, with the constraints that the schema puts on them. -/

namespace IntoMarkdown.TaskStore
open Lib Json Recovery

abbrev Bytes := List UInt8

/-! ## Errors and limits -/

inductive TaskStoreError where
  | unsafePath (detail : String)
  | corrupt (detail : String)
  | limit (detail : String)
  | conflict (detail : String)
  | busyTimeout
  | cancelled
  | io (detail : String)
  deriving DecidableEq, Repr

def maxDiagnostics : Nat := 64
def i64Max : Int := 2 ^ 63 - 1
def maxArtifactBytes : Nat := 2 ^ 63 - 1
def maxJsonBytes : Nat := 16 * 1024
def maxTasks : Nat := 100000
def idBytes : Nat := 16
def maxProgress : Nat := 1000000

/-- Fail with the error where the condition holds. -/
def reject (bad : Prop) [Decidable bad] (error : TaskStoreError) : Except TaskStoreError Unit :=
  if bad then .error error else .ok ()

def requireHex (value : String) (bytes : Nat) (label : String) : Except TaskStoreError Unit :=
  reject (¬ canonicalHex (bytes * 2) value) (.limit s!"{label} is not canonical")

/-! ## Identifiers and states -/

structure TaskId where
  text : String
  canonical : canonicalHex (idBytes * 2) text = true
  deriving DecidableEq

theorem TaskId.text_injective : Function.Injective TaskId.text := by
  rintro ⟨a, ha⟩ ⟨b, hb⟩ h
  cases h
  rfl

instance : LinearOrder TaskId := LinearOrder.lift' TaskId.text TaskId.text_injective

inductive TaskStatus where
  | pending | running | converted | succeeded | failed | interrupted | cancelled
  deriving DecidableEq, Repr

def TaskStatus.asDb : TaskStatus → String
  | .pending => "pending"
  | .running => "running"
  | .converted => "converted"
  | .succeeded => "succeeded"
  | .failed => "failed"
  | .interrupted => "interrupted"
  | .cancelled => "cancelled"

def TaskStatus.parse (value : String) : Except TaskStoreError TaskStatus :=
  if value = "pending" then .ok .pending
  else if value = "running" then .ok .running
  else if value = "converted" then .ok .converted
  else if value = "succeeded" then .ok .succeeded
  else if value = "failed" then .ok .failed
  else if value = "interrupted" then .ok .interrupted
  else if value = "cancelled" then .ok .cancelled
  else .error (.corrupt "task contains an unknown status")

@[simp] theorem TaskStatus.parse_asDb (status : TaskStatus) : parse status.asDb = .ok status := by
  cases status <;> decide

theorem TaskStatus.asDb_injective : Function.Injective TaskStatus.asDb := by
  intro a b h
  have hparse := congrArg parse h
  rw [parse_asDb, parse_asDb] at hparse
  exact Except.ok.inj hparse

def TaskStatus.mayTransition : TaskStatus → TaskStatus → Bool
  | .pending, .running | .pending, .failed | .pending, .cancelled | .pending, .interrupted => true
  | .running, .converted | .running, .failed | .running, .cancelled
  | .running, .interrupted => true
  | .converted, .succeeded | .converted, .failed | .converted, .cancelled
  | .converted, .interrupted => true
  | _, _ => false

/-- `IN ('succeeded','failed','interrupted','cancelled')`. -/
def isTerminal (status : String) : Bool :=
  ["succeeded", "failed", "interrupted", "cancelled"].contains status

/-- Executing or about to: `IN ('pending','running','converted')`. -/
def isActive (status : String) : Bool := ["pending", "running", "converted"].contains status

/-! ## Configuration -/

inductive OutputFormat where
  | markdown
  deriving DecidableEq, Repr

structure ConfigurationSnapshot where
  schemaVersion : UInt32
  outputFormat : OutputFormat
  ocrEnabled : Bool
  preserveLayout : Bool
  deriving DecidableEq, Repr

def OutputFormat.schema : Schema OutputFormat where
  write
    | .markdown => .string "markdown"
  read
    | .string text => if text = "markdown" then some .markdown else none
    | _ => none
  depth := 0
  read_write
    | .markdown => rfl
  depth_write
    | .markdown => Nat.le_refl _
  write_ne_null
    | .markdown => nofun

/-- `deny_unknown_fields`. -/
def onlyKeys (keys : List String) : Value Nat → Bool
  | .object entries => entries.all fun e => keys.contains e.1
  | _ => false

def ConfigurationSnapshot.keys : List String :=
  ["schemaVersion", "outputFormat", "ocrEnabled", "preserveLayout"]

def ConfigurationSnapshot.schema : Schema ConfigurationSnapshot where
  write c := .object [
    ("schemaVersion", Schema.uint32.write c.schemaVersion),
    ("outputFormat", OutputFormat.schema.write c.outputFormat),
    ("ocrEnabled", Schema.bool.write c.ocrEnabled),
    ("preserveLayout", Schema.bool.write c.preserveLayout)]
  read v :=
    if onlyKeys keys v then do
      let schemaVersion ← v.member "schemaVersion" Schema.uint32
      let outputFormat ← v.member "outputFormat" OutputFormat.schema
      let ocrEnabled ← v.member "ocrEnabled" Schema.bool
      let preserveLayout ← v.member "preserveLayout" Schema.bool
      return ⟨schemaVersion, outputFormat, ocrEnabled, preserveLayout⟩
    else none
  depth := 1
  read_write c := by
    have honly : onlyKeys keys (.object [
        ("schemaVersion", Schema.uint32.write c.schemaVersion),
        ("outputFormat", OutputFormat.schema.write c.outputFormat),
        ("ocrEnabled", Schema.bool.write c.ocrEnabled),
        ("preserveLayout", Schema.bool.write c.preserveLayout)]) = true := by
      simp only [onlyKeys, List.all_cons, List.all_nil]
      decide
    rw [if_pos honly,
      Value.member_write (s := Schema.uint32) (a := c.schemaVersion) rfl,
      Value.member_write (s := OutputFormat.schema) (a := c.outputFormat) rfl,
      Value.member_write (s := Schema.bool) (a := c.ocrEnabled) rfl,
      Value.member_write (s := Schema.bool) (a := c.preserveLayout) rfl]
    rfl
  depth_write c := by
    apply Value.depth_object
    simp only [List.forall_mem_cons]
    exact ⟨Nat.zero_le _, OutputFormat.schema.depth_write _, Nat.zero_le _, Nat.zero_le _,
      List.forall_mem_nil _⟩
  write_ne_null _ := nofun

def validateConfiguration (c : ConfigurationSnapshot) : Except TaskStoreError Unit :=
  reject (c.schemaVersion ≠ 1) (.limit "configuration schema version is unsupported")

/-- The nesting that `serde_json` follows. -/
def nestingLimit : Nat := 127

def boundedJson (c : ConfigurationSnapshot) : Except TaskStoreError Bytes :=
  let text := write decimal (ConfigurationSnapshot.schema.write c)
  if maxJsonBytes < text.length then .error (.limit "configuration or input JSON is oversized")
  else .ok text

def decodeBounded (text : Bytes) : Except TaskStoreError ConfigurationSnapshot :=
  if maxJsonBytes < text.length then .error (.corrupt "persisted configuration JSON is oversized")
  else match (readBytes decimal.read nestingLimit text).bind ConfigurationSnapshot.schema.read with
  | none => .error (.corrupt "persisted configuration JSON is invalid")
  | some c => .ok c

/-- A configuration that was written is read back. -/
theorem decodeBounded_boundedJson {c : ConfigurationSnapshot} {text : Bytes}
    (h : boundedJson c = .ok text) : text.length ≤ maxJsonBytes ∧ decodeBounded text = .ok c := by
  unfold boundedJson at h
  dsimp only at h
  by_cases hlong : maxJsonBytes < (write decimal (ConfigurationSnapshot.schema.write c)).length
  · rw [if_pos hlong] at h
    cases h
  · rw [if_neg hlong] at h
    cases h
    refine ⟨by omega, ?_⟩
    rw [decodeBounded, if_neg hlong, Schema.readBytes_write _ _ (by decide), Option.bind_some,
      ConfigurationSnapshot.schema.read_write]

/-! ## Inputs, diagnostics and artifacts -/

structure InputReference where
  schemaVersion : UInt32
  inputFingerprint : String
  optionsFingerprint : String
  byteLen : UInt64
  recoveryToken : String
  deriving DecidableEq, Repr

def validateInput (input : InputReference) : Except TaskStoreError Unit := do
  reject (input.schemaVersion ≠ 1) (.limit "input reference schema version is unsupported")
  requireHex input.inputFingerprint 32 "input fingerprint"
  requireHex input.optionsFingerprint 32 "options fingerprint"
  reject (i64Max < input.byteLen.toNat) (.limit "input byte length exceeds SQLite integer range")
  requireHex input.recoveryToken 16 "recovery token"

inductive DiagnosticCode where
  | recoveryCheckpointMissing
  | recoveryCheckpointInvalid
  | recoveryCheckpointIncompatible
  | conversionFailed
  | cancelled
  deriving DecidableEq, Repr

def DiagnosticCode.asDb : DiagnosticCode → String
  | .recoveryCheckpointMissing => "recoveryCheckpointMissing"
  | .recoveryCheckpointInvalid => "recoveryCheckpointInvalid"
  | .recoveryCheckpointIncompatible => "recoveryCheckpointIncompatible"
  | .conversionFailed => "conversionFailed"
  | .cancelled => "cancelled"

def DiagnosticCode.parse (value : String) : Except TaskStoreError DiagnosticCode :=
  if value = "recoveryCheckpointMissing" then .ok .recoveryCheckpointMissing
  else if value = "recoveryCheckpointInvalid" then .ok .recoveryCheckpointInvalid
  else if value = "recoveryCheckpointIncompatible" then .ok .recoveryCheckpointIncompatible
  else if value = "conversionFailed" then .ok .conversionFailed
  else if value = "cancelled" then .ok .cancelled
  else .error (.corrupt "task contains an unknown diagnostic")

@[simp] theorem DiagnosticCode.parse_asDb (code : DiagnosticCode) :
    parse code.asDb = .ok code := by
  cases code <;> decide

inductive ArtifactKind where
  | markdown | documentIr | diagnostics | asset | bundle
  deriving DecidableEq, Repr

def ArtifactKind.asDb : ArtifactKind → String
  | .markdown => "markdown"
  | .documentIr => "documentIr"
  | .diagnostics => "diagnostics"
  | .asset => "asset"
  | .bundle => "bundle"

def ArtifactKind.parse (value : String) : Except TaskStoreError ArtifactKind :=
  if value = "markdown" then .ok .markdown
  else if value = "documentIr" then .ok .documentIr
  else if value = "diagnostics" then .ok .diagnostics
  else if value = "asset" then .ok .asset
  else if value = "bundle" then .ok .bundle
  else .error (.corrupt "task contains an unknown artifact kind")

@[simp] theorem ArtifactKind.parse_asDb (kind : ArtifactKind) : parse kind.asDb = .ok kind := by
  cases kind <;> decide

structure ArtifactReference where
  storageKey : String
  kind : ArtifactKind
  byteLen : UInt64
  sha256 : String
  assetId : Option String
  filename : Option String
  mediaType : Option String
  deriving DecidableEq, Repr

/-- `char::is_control`. -/
def isControl (c : Char) : Bool := c.toNat < 32 || (127 ≤ c.toNat && c.toNat < 160)

def isAsciiWhitespace (c : Char) : Bool :=
  c = ' ' || c = '\t' || c = '\n' || c.toNat = 12 || c = '\r'

def ArtifactReference.metadata (artifact : ArtifactReference) : List (Option String) :=
  [artifact.assetId, artifact.filename, artifact.mediaType]

def validateArtifact (artifact : ArtifactReference) : Except TaskStoreError Unit := do
  requireHex artifact.storageKey 16 "artifact storage key"
  reject (i64Max < artifact.byteLen.toNat)
    (.limit "artifact byte length exceeds SQLite integer range")
  requireHex artifact.sha256 32 "artifact SHA-256"
  if artifact.kind = .asset then do
    reject (artifact.metadata.any (·.isNone) ∨ artifact.metadata.reduceOption.any fun value =>
        value.isEmpty || 255 < value.utf8ByteSize || value.toList.any isControl)
      (.limit "asset metadata must be complete and bounded")
    let filename := artifact.filename.getD ""
    let mediaType := artifact.mediaType.getD ""
    reject (filename = "." ∨ filename = ".." ∨ filename.toList.contains '/' ∨
        filename.toList.contains '\\' ∨ ¬ mediaType.toList.all (·.toNat < 128) ∨
        ¬ mediaType.toList.contains '/' ∨
        mediaType.toList.any fun c => c.isUpper || isAsciiWhitespace c)
      (.limit "asset filename or media type is not canonical")
  else
    reject (artifact.metadata.any (·.isSome))
      (.conflict "non-asset artifact cannot contain asset metadata")

/-- Assets of the oldest schemas have no metadata. -/
def validateLoadedArtifact (artifact : ArtifactReference) : Except TaskStoreError Unit :=
  if artifact.kind = .asset ∧ artifact.metadata.all (·.isNone) then do
    requireHex artifact.storageKey 16 "artifact storage key"
    reject (i64Max < artifact.byteLen.toNat)
      (.corrupt "legacy artifact byte length exceeds SQLite integer range")
    requireHex artifact.sha256 32 "artifact SHA-256"
  else validateArtifact artifact

/-! ## Requests and records -/

structure NewTask where
  input : InputReference
  configuration : ConfigurationSnapshot
  deriving DecidableEq, Repr

structure TaskTransition where
  expected : TaskStatus
  next : TaskStatus
  progressMillionths : UInt32
  diagnostics : List DiagnosticCode
  artifacts : List ArtifactReference
  deriving DecidableEq, Repr

def validateTransition (t : TaskTransition) : Except TaskStoreError Unit := do
  reject (maxProgress < t.progressMillionths.toNat) (.limit "progress exceeds 1000000 millionths")
  reject (maxDiagnostics < t.diagnostics.length) (.limit "transition child row count exceeded")
  reject (t.next = .succeeded ∧ t.progressMillionths.toNat ≠ maxProgress)
    (.conflict "succeeded tasks require complete progress")
  reject ((t.next = .failed ∨ t.next = .interrupted ∨ t.next = .cancelled) ∧ t.artifacts ≠ [])
    (.conflict "failed, interrupted, and cancelled transitions cannot add artifacts")
  t.artifacts.forM validateArtifact

structure TaskRecord where
  id : TaskId
  createdAt : Int
  updatedAt : Int
  status : TaskStatus
  progressMillionths : UInt32
  input : InputReference
  configuration : ConfigurationSnapshot
  diagnostics : List DiagnosticCode
  artifacts : List ArtifactReference
  artifactGeneration : UInt64
  pinned : Bool
  deriving DecidableEq

/-! ## Rows -/

/-- The columns of a task beside its key. -/
structure TaskRow where
  createdAt : Int
  updatedAt : Int
  completedAt : Option Int
  status : String
  progress : Int
  inputFingerprint : String
  optionsFingerprint : String
  recoveryToken : String
  inputBytes : Int
  configJson : Bytes
  artifactGeneration : Int
  pinned : Int
  deriving DecidableEq, Repr

structure ArtifactRow where
  kind : String
  byteLen : Int
  sha256 : String
  assetId : Option String
  filename : Option String
  mediaType : Option String
  deriving DecidableEq, Repr

/-- A task with the rows that refer to it: the codes by their ordinals, and the
artifacts by their storage keys. They go when the task goes. -/
structure Task where
  row : TaskRow
  diagnostics : OrderedMap Int String
  artifacts : OrderedMap String ArtifactRow

/-- The table of tasks, by their identifiers. -/
abbrev Database := OrderedMap TaskId Task

/-- The constraints of the table of tasks; a number beyond 64 bits does not go
into a column of a strict table. -/
def TaskRow.check (row : TaskRow) : Bool :=
  0 ≤ row.createdAt && row.createdAt ≤ row.updatedAt && row.updatedAt ≤ i64Max &&
  row.completedAt.all (row.createdAt ≤ ·) &&
  (isActive row.status || isTerminal row.status) &&
  0 ≤ row.progress && row.progress ≤ maxProgress &&
  (row.status ≠ "succeeded" || row.progress = maxProgress) &&
  canonicalHex 64 row.inputFingerprint && canonicalHex 64 row.optionsFingerprint &&
  canonicalHex 32 row.recoveryToken && 0 ≤ row.inputBytes &&
  row.configJson.length ≤ maxJsonBytes && 0 ≤ row.artifactGeneration &&
  (row.pinned = 0 || row.pinned = 1)

def constraintError : TaskStoreError := .io "constraint failed"

/-- `UPDATE tasks`. -/
def Task.update (task : Task) (row : TaskRow) : Except TaskStoreError Task :=
  if row.check then .ok { task with row := row } else .error constraintError

/-- `INSERT INTO diagnostics`, under the next ordinal. -/
def Task.insertDiagnostic (task : Task) (code : DiagnosticCode) : Except TaskStoreError Task :=
  let ordinal : Int := task.diagnostics.entries.length
  if ordinal ≤ 63 ∧ task.diagnostics.lookup ordinal = none then
    .ok { task with diagnostics := task.diagnostics.insert ordinal code.asDb }
  else .error constraintError

def ArtifactReference.row (artifact : ArtifactReference) : ArtifactRow :=
  ⟨artifact.kind.asDb, artifact.byteLen.toNat, artifact.sha256, artifact.assetId,
    artifact.filename, artifact.mediaType⟩

/-- `INSERT INTO artifacts`, with the trigger that guards the failed tasks. -/
def Task.insertArtifact (task : Task) (artifact : ArtifactReference) :
    Except TaskStoreError Task :=
  if ["failed", "interrupted", "cancelled"].contains task.row.status then
    .error (.io "terminal artifact")
  else if canonicalHex 32 artifact.storageKey ∧ canonicalHex 64 artifact.sha256 ∧
      task.artifacts.lookup artifact.storageKey = none then
    .ok { task with artifacts := task.artifacts.insert artifact.storageKey artifact.row }
  else .error constraintError

end IntoMarkdown.TaskStore
