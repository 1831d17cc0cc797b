import IntoMarkdown.TaskStore.Model

/-! # Operations

What each operation does inside its transaction, and the queries with which a
task is read. A transaction that fails leaves the tables as they are. -/

namespace IntoMarkdown.TaskStore
open Lib Json Recovery

/-! ## Numbers -/

/-- `utc_now_ms`; the clock is in milliseconds since the epoch. -/
def utcNowMs (clock : Int) : Except TaskStoreError Int :=
  if clock < 0 then .error (.io "system clock precedes the Unix epoch")
  else if i64Max < clock then .error (.io "system clock cannot be represented")
  else .ok clock

/-- `saturating_add(1)`. -/
def saturatingSucc (n : Int) : Int := if n < i64Max then n + 1 else i64Max

def u64Modulus : Nat := 2 ^ 64

/-- The sum of lengths, where it fits into 64 bits. -/
def checkedTotal (artifacts : List ArtifactReference) : Except TaskStoreError Nat :=
  artifacts.foldlM (fun total artifact =>
    if total + artifact.byteLen.toNat < u64Modulus then .ok (total + artifact.byteLen.toNat)
    else .error (.limit "artifact byte length total overflowed")) 0

def Task.totalBytes (task : Task) : Int := (task.artifacts.entries.map fun e => e.2.byteLen).sum

/-- `validate_artifact_budget`. A sum beyond 64 bits fails in the query. -/
def validateArtifactBudget (task : Task) (additions : List ArtifactReference) :
    Except TaskStoreError Unit := do
  reject (i64Max < task.totalBytes) (.io "integer overflow")
  reject (task.totalBytes < 0) (.corrupt "negative artifact byte total")
  let added ← checkedTotal additions
  reject (maxArtifactBytes < task.totalBytes.toNat + added)
    (.limit "artifact size exceeds storage range")

/-- The row of the task, for an operation that cannot do without. -/
def findTask (db : Database) (id : TaskId) : Except TaskStoreError Task :=
  match db.lookup id with
  | none => .error (.conflict "task does not exist")
  | some task => .ok task

/-! ## Creating -/

def NewTask.row (task : NewTask) (now : Int) (configJson : Bytes) : TaskRow where
  createdAt := now
  updatedAt := now
  completedAt := none
  status := "pending"
  progress := 0
  inputFingerprint := task.input.inputFingerprint
  optionsFingerprint := task.input.optionsFingerprint
  recoveryToken := task.input.recoveryToken
  inputBytes := task.input.byteLen.toNat
  configJson := configJson
  artifactGeneration := 0
  pinned := 0

def tokenExists (db : Database) (token : String) : Bool :=
  db.entries.any fun e => e.2.row.recoveryToken = token

/-- `create`: the first of the random identifiers that no constraint refuses. -/
def create (db : Database) (task : NewTask) (clock : Int) (candidates : List TaskId) :
    Except TaskStoreError (Database × TaskId) := do
  validateInput task.input
  validateConfiguration task.configuration
  let now ← utcNowMs clock
  let configJson ← boundedJson task.configuration
  reject (maxTasks ≤ db.entries.length) (.limit "task count reached 100000")
  reject (tokenExists db task.input.recoveryToken)
    (.conflict "recovery token is already bound to another task")
  let row := task.row now configJson
  match (candidates.take 8).find? fun id => row.check && (db.lookup id).isNone with
  | none => .error (.conflict "task id collision budget exhausted")
  | some id => return (db.insert id ⟨row, .empty, .empty⟩, id)

/-! ## Changing -/

/-- `CASE WHEN ?1 IN (..) THEN ?3 ELSE completed_at_ms END`. -/
def TaskRow.completed (row : TaskRow) (next : TaskStatus) (updated : Int) : Option Int :=
  if isTerminal next.asDb then some updated else row.completedAt

/-- `transition`. The guards of its update repeat what has been read before. -/
def transition (db : Database) (id : TaskId) (t : TaskTransition) (clock : Int) :
    Except TaskStoreError Database := do
  validateTransition t
  let now ← utcNowMs clock
  let task ← findTask db id
  let current ← TaskStatus.parse task.row.status
  reject (current ≠ t.expected ∨ ¬ current.mayTransition t.next)
    (.conflict "task state transition was rejected")
  reject (t.progressMillionths.toNat < task.row.progress)
    (.conflict "task progress cannot decrease")
  reject (maxDiagnostics < task.diagnostics.entries.length + t.diagnostics.length)
    (.limit "task child row count exceeded")
  validateArtifactBudget task t.artifacts
  let updated := max now (saturatingSucc task.row.updatedAt)
  let task ← task.update { task.row with
    status := t.next.asDb
    progress := t.progressMillionths.toNat
    updatedAt := updated
    completedAt := task.row.completed t.next updated }
  let task ← t.diagnostics.foldlM Task.insertDiagnostic task
  let task ← t.artifacts.foldlM (fun task artifact => do
    validateArtifact artifact
    task.insertArtifact artifact) task
  return db.insert id task

/-- `set_pinned`; the sum of the largest integer and one is no integer. -/
def setPinned (db : Database) (id : TaskId) (pinned : Bool) (clock : Int) :
    Except TaskStoreError Database := do
  let now ← utcNowMs clock
  let task ← findTask db id
  let task ← task.update { task.row with
    pinned := if pinned then 1 else 0
    updatedAt := max now (task.row.updatedAt + 1) }
  return db.insert id task

/-- `requeue_terminal`. -/
def requeueTerminal (db : Database) (id : TaskId) (clock : Int) :
    Except TaskStoreError Database := do
  let now ← utcNowMs clock
  let task ← findTask db id
  let status ← TaskStatus.parse task.row.status
  reject (¬ (status = .failed ∨ status = .interrupted ∨ status = .cancelled) ∨
      task.artifacts.entries ≠ [])
    (.conflict "only terminal tasks without artifacts can be requeued")
  let task ← { task with diagnostics := .empty }.update { task.row with
    status := "pending"
    progress := 0
    completedAt := none
    updatedAt := max now (task.row.updatedAt + 1) }
  return db.insert id task

/-- `delete_terminal`. -/
def deleteTerminal (db : Database) (id : TaskId) (allowPinned : Bool) :
    Except TaskStoreError Database := do
  let task ← findTask db id
  let status ← TaskStatus.parse task.row.status
  reject (¬ (status = .succeeded ∨ status = .failed ∨ status = .interrupted ∨ status = .cancelled))
    (.conflict "active task cannot be deleted")
  reject (task.row.pinned = 1 ∧ ¬ allowPinned)
    (.conflict "pinned task cannot be retained automatically")
  return db.erase id

/-- `replace_succeeded_artifacts`. -/
def replaceSucceededArtifacts (db : Database) (id : TaskId) (expectedGeneration : UInt64)
    (artifacts : List ArtifactReference) (clock : Int) : Except TaskStoreError Database := do
  reject (artifacts = []) (.limit "replacement artifacts must not be empty")
  reject (i64Max < expectedGeneration.toNat) (.limit "artifact generation exceeds SQLite range")
  artifacts.forM validateArtifact
  let total ← checkedTotal artifacts
  reject (maxArtifactBytes < total) (.limit "artifact size exceeds storage range")
  let now ← utcNowMs clock
  let task ← findTask db id
  let status ← TaskStatus.parse task.row.status
  reject (status ≠ .succeeded ∨ task.row.artifactGeneration ≠ expectedGeneration.toNat)
    (.conflict "artifact generation compare-and-set was rejected")
  reject (i64Max ≤ task.row.artifactGeneration) (.limit "artifact generation overflowed")
  let task ← artifacts.foldlM Task.insertArtifact { task with artifacts := .empty }
  let task ← task.update { task.row with
    artifactGeneration := task.row.artifactGeneration + 1
    updatedAt := max now (saturatingSucc task.row.updatedAt) }
  return db.insert id task

/-! ## Reconciling -/

/-- `reconcile_transition`; nothing where the task is not what it was. -/
def reconcileTransition (db : Database) (id : TaskId) (expected next : TaskStatus)
    (minimumProgress : UInt32) (diagnostic : Option DiagnosticCode) (clock : Int) :
    Except TaskStoreError (Option Database) :=
  if ¬ isActive expected.asDb then .ok none
  else match db.lookup id with
  | none => .ok none
  | some task => do
    let current ← TaskStatus.parse task.row.status
    if current ≠ expected then return none
    let now ← utcNowMs clock
    let updated := max now (saturatingSucc task.row.updatedAt)
    let task ← task.update { task.row with
      status := next.asDb
      progress := max task.row.progress minimumProgress.toNat
      updatedAt := updated
      completedAt := task.row.completed next updated }
    let task ← diagnostic.toList.foldlM Task.insertDiagnostic task
    return some (db.insert id task)

structure Candidate where
  id : TaskId
  status : TaskStatus
  recoveryToken : String

def candidateOf (id : TaskId) (task : Task) : Except TaskStoreError Candidate := do
  reject (¬ canonicalHex 32 task.row.recoveryToken) (.corrupt "task recovery token is invalid")
  let status ← TaskStatus.parse task.row.status
  return ⟨id, status, task.row.recoveryToken⟩

/-- `nonterminal_candidates`, of which no more than a hundred are read. -/
def nonterminalCandidates (db : Database) (after : Option TaskId) (highWater : TaskId) :
    Except TaskStoreError (List Candidate) :=
  ((db.entries.filter fun e => after.all (· < e.1) && e.1 ≤ highWater &&
    isActive e.2.row.status).take 100).mapM fun e => candidateOf e.1 e.2

def maxId (db : Database) : Option TaskId := db.entries.getLast?.map (·.1)

/-- `fingerprints_match`, a comparison in constant time. -/
def fingerprintsMatch (expected actual : String) : Bool :=
  expected.utf8ByteSize = actual.utf8ByteSize &&
    (expected.toUTF8.toList.zip actual.toUTF8.toList).foldl
      (fun difference p => difference ||| (p.1 ^^^ p.2)) 0 = 0

/-- What `RecoveryStore::inspect` finds. -/
inductive Inspection where
  | found (phase : TaskPhase) (inputFingerprint optionsFingerprint : String)
  | missing
  | invalid
  | unavailable
  deriving DecidableEq, Repr

inductive ReconcileOutcome where
  | resumable | converted | interrupted | failed
  deriving DecidableEq, Repr

structure Decision where
  next : TaskStatus
  progress : UInt32
  diagnostic : Option DiagnosticCode
  outcome : ReconcileOutcome
  deriving DecidableEq, Repr

/-- The choice in `reconcile` between the checkpoints that can be found. -/
def decideReconcile (status : TaskStatus) (record : TaskRecord) :
    Inspection → Except TaskStoreError Decision
  | .found phase inputFingerprint optionsFingerprint =>
    if ¬ fingerprintsMatch record.input.inputFingerprint inputFingerprint ∨
        ¬ fingerprintsMatch record.input.optionsFingerprint optionsFingerprint then
      .ok ⟨.failed, 0, some .recoveryCheckpointIncompatible, .failed⟩
    else match phase with
    | .succeeded | .converted => .ok ⟨.converted, 900000, none, .converted⟩
    | .media => .ok ⟨status, record.progressMillionths, none, .resumable⟩
  | .missing => .ok ⟨.interrupted, 0, some .recoveryCheckpointMissing, .interrupted⟩
  | .invalid => .ok ⟨.failed, 0, some .recoveryCheckpointInvalid, .failed⟩
  | .unavailable => .error (.io "recovery store inspection is temporarily unavailable")

/-! ## Reading -/

/-- What the first query of `get_record` reads. -/
structure BaseRecord where
  id : TaskId
  row : TaskRow
  status : TaskStatus
  input : InputReference
  configuration : ConfigurationSnapshot

def TaskRow.input (row : TaskRow) : InputReference :=
  ⟨1, row.inputFingerprint, row.optionsFingerprint, UInt64.ofNat row.inputBytes.toNat,
    row.recoveryToken⟩

/-- The columns of the task, and the checks before its other rows are read. -/
def readBase (id : TaskId) (row : TaskRow) : Except TaskStoreError BaseRecord := do
  reject (row.createdAt < 0 ∨ row.updatedAt < row.createdAt ∨
      ¬ (0 ≤ row.progress ∧ row.progress ≤ maxProgress))
    (.corrupt "task timestamps or progress are invalid")
  let status ← TaskStatus.parse row.status
  reject (status = .succeeded ∧ row.progress ≠ maxProgress)
    (.corrupt "succeeded task does not have complete progress")
  reject (row.inputBytes < 0) (.corrupt "task input byte length is invalid")
  validateInput row.input
  let configuration ← decodeBounded row.configJson
  validateConfiguration configuration
  return ⟨id, row, status, row.input, configuration⟩

/-- The checks after the other rows are read. -/
def BaseRecord.assemble (base : BaseRecord) (diagnostics : List DiagnosticCode)
    (artifacts : List ArtifactReference) : Except TaskStoreError TaskRecord := do
  reject (base.row.artifactGeneration < 0) (.corrupt "artifact generation is invalid")
  reject (base.row.pinned ≠ 0 ∧ base.row.pinned ≠ 1) (.corrupt "task pinned marker is invalid")
  return {
    id := base.id
    createdAt := base.row.createdAt
    updatedAt := base.row.updatedAt
    status := base.status
    progressMillionths := UInt32.ofNat base.row.progress.toNat
    input := base.input
    configuration := base.configuration
    diagnostics := diagnostics
    artifacts := artifacts
    artifactGeneration := UInt64.ofNat base.row.artifactGeneration.toNat
    pinned := base.row.pinned = 1 }

/-- `load_diagnostics`. -/
def loadDiagnostics (db : Database) (id : TaskId) : Except TaskStoreError (List DiagnosticCode) :=
  match db.lookup id with
  | none => .ok []
  | some task => do
    let values ← (task.diagnostics.entries.take 65).mapM fun e => DiagnosticCode.parse e.2
    reject (maxDiagnostics < values.length) (.corrupt "task contains too many diagnostics")
    return values

def loadArtifact (storageKey : String) (row : ArtifactRow) :
    Except TaskStoreError ArtifactReference := do
  reject (row.byteLen < 0) (.corrupt "artifact byte length is invalid")
  let kind ← ArtifactKind.parse row.kind
  let artifact : ArtifactReference := ⟨storageKey, kind, UInt64.ofNat row.byteLen.toNat,
    row.sha256, row.assetId, row.filename, row.mediaType⟩
  validateLoadedArtifact artifact
  return artifact

/-- `load_artifacts`. -/
def loadArtifacts (db : Database) (id : TaskId) :
    Except TaskStoreError (List ArtifactReference) :=
  match db.lookup id with
  | none => .ok []
  | some task => do
    let loaded ← task.artifacts.entries.foldlM (fun (loaded : List ArtifactReference × Nat) e => do
      let artifact ← loadArtifact e.1 e.2
      let total := loaded.2 + artifact.byteLen.toNat
      reject (u64Modulus ≤ total) (.corrupt "artifact byte total overflowed")
      reject (maxArtifactBytes < total) (.corrupt "artifact size exceeds storage range")
      return (loaded.1 ++ [artifact], total)) ([], 0)
    return loaded.1

end IntoMarkdown.TaskStore
