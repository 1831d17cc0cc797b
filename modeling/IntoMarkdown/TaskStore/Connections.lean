import IntoMarkdown.Lib.Transition
import IntoMarkdown.TaskStore.Operations

/-! # Connections

Any number of connections to one store. A call runs up to the end of its
transaction in one step; what it reads before and after are steps of their own,
between which other connections may take theirs. -/

namespace IntoMarkdown.TaskStore
open Transition

/-! ## Calls and what becomes of them -/

inductive Operation where
  | create (task : NewTask)
  | get (id : TaskId)
  | transition (id : TaskId) (t : TaskTransition)
  | setPinned (id : TaskId) (pinned : Bool)
  | requeueTerminal (id : TaskId)
  | deleteTerminal (id : TaskId) (allowPinned : Bool)
  | replaceSucceededArtifacts (id : TaskId) (expectedGeneration : UInt64)
      (artifacts : List ArtifactReference)
  | reconcile
  deriving DecidableEq

structure ReconcileSummary where
  resumable : Nat
  converted : Nat
  interrupted : Nat
  failed : Nat
  deriving DecidableEq, Repr

def ReconcileSummary.count (s : ReconcileSummary) : ReconcileOutcome → ReconcileSummary
  | .resumable => { s with resumable := s.resumable + 1 }
  | .converted => { s with converted := s.converted + 1 }
  | .interrupted => { s with interrupted := s.interrupted + 1 }
  | .failed => { s with failed := s.failed + 1 }

inductive Reply where
  | found (record : Option TaskRecord)
  | task (record : TaskRecord)
  | unit
  | summary (summary : ReconcileSummary)

/-- What stops a call from outside the tables. -/
inductive Interruption where
  | cancelled
  | busyTimeout
  | unsafePath (detail : String)
  | io (detail : String)
  deriving DecidableEq, Repr

def Interruption.error : Interruption → TaskStoreError
  | .cancelled => .cancelled
  | .busyTimeout => .busyTimeout
  | .unsafePath detail => .unsafePath detail
  | .io detail => .io detail

/-- What a step finds around it: the clock, the random identifiers, the recovery
store, and whether it is interrupted. -/
structure Environment where
  clock : Int
  candidates : List TaskId
  inspection : Inspection
  interruption : Option Interruption

/-! ## Reading a task -/

/-- The query of `get_record` that comes next. -/
inductive ReadStage where
  | base (id : TaskId)
  | diagnostics (base : BaseRecord)
  | artifacts (base : BaseRecord) (diagnostics : List DiagnosticCode)

/-- One query; it leads to the next one, or to the result. -/
def readStep (db : Database) : ReadStage → Except TaskStoreError (ReadStage ⊕ Option TaskRecord)
  | .base id =>
    match db.lookup id with
    | none => .ok (.inr none)
    | some task => do
      let base ← readBase id task.row
      return .inl (.diagnostics base)
  | .diagnostics base => do
    let diagnostics ← loadDiagnostics db base.id
    return .inl (.artifacts base diagnostics)
  | .artifacts base diagnostics => do
    let artifacts ← loadArtifacts db base.id
    let record ← base.assemble diagnostics artifacts
    return .inr (some record)

/-! ## Stages of a call -/

/-- The state of a `reconcile`: the tasks of the batch that are still to be done,
the one that is being done first. -/
structure Pass where
  highWater : TaskId
  cursor : Option TaskId
  queue : List Candidate
  summary : ReconcileSummary

inductive PassStage where
  | batch
  | reading (read : ReadStage)
  | inspect (record : TaskRecord)

inductive Stage where
  | reading (read : ReadStage)
  | verify
  | passing (pass : Pass) (stage : PassStage)
  | returned (result : Except TaskStoreError Reply)

/-- `changed` are the tasks that the call's transactions have changed. -/
structure Conn where
  operation : Operation
  changed : List TaskId
  stage : Stage

def Conn.isReturned (conn : Conn) : Bool :=
  match conn.stage with
  | .returned _ => true
  | _ => false

/-- The end of a call whose task has been read. -/
def Operation.reply (found : Option TaskRecord) : Operation → Except TaskStoreError Reply
  | .get _ => .ok (.found found)
  | .create _ => (found.map Reply.task).elim (.error (.corrupt "created task disappeared")) .ok
  | .requeueTerminal _ =>
    (found.map Reply.task).elim (.error (.corrupt "requeued task disappeared")) .ok
  | _ => (found.map Reply.task).elim (.error (.corrupt "updated task disappeared")) .ok

/-- A call whose transaction is over: after a commit `stage` comes next. -/
def committed (db : Database) (id : TaskId) (stage : Stage) :
    Except TaskStoreError Database → Database × List TaskId × Stage
  | .error e => (db, [], .returned (.error e))
  | .ok db' => (db', [id], stage)

/-- The first step of a call. -/
def startCall (operation : Operation) (e : Environment) (db : Database) :
    Database × List TaskId × Stage :=
  match e.interruption with
  | some interruption => (db, [], .returned (.error interruption.error))
  | none =>
    match operation with
    | .create task =>
      match create db task e.clock e.candidates with
      | .error error => (db, [], .returned (.error error))
      | .ok (db', id) => (db', [id], .reading (.base id))
    | .get id => (db, [], .reading (.base id))
    | .transition id t => committed db id (.reading (.base id)) (transition db id t e.clock)
    | .setPinned id pinned => committed db id .verify (setPinned db id pinned e.clock)
    | .requeueTerminal id =>
      committed db id (.reading (.base id)) (requeueTerminal db id e.clock)
    | .deleteTerminal id allowPinned =>
      committed db id (.returned (.ok .unit)) (deleteTerminal db id allowPinned)
    | .replaceSucceededArtifacts id expectedGeneration artifacts =>
      committed db id (.reading (.base id))
        (replaceSucceededArtifacts db id expectedGeneration artifacts e.clock)
    | .reconcile =>
      match maxId db with
      | none => (db, [], .returned (.ok (.summary ⟨0, 0, 0, 0⟩)))
      | some highWater => (db, [], .passing ⟨highWater, none, [], ⟨0, 0, 0, 0⟩⟩ .batch)

/-- The rest of the batch, or the next one. -/
def Pass.next (pass : Pass) : Stage :=
  match pass.queue.tail with
  | [] => .passing { pass with queue := [] } .batch
  | candidate :: rest =>
    .passing { pass with queue := candidate :: rest } (.reading (.base candidate.id))

/-- A task of the batch has been read. -/
def Pass.found (pass : Pass) (candidate : Candidate) : Option TaskRecord → Stage
  | none => .returned (.error (.corrupt "reconcile task disappeared"))
  | some record =>
    if record.status ≠ candidate.status then pass.next
    else if ¬ Recovery.canonicalHex 32 candidate.recoveryToken then
      .returned (.error (.corrupt "task recovery token is invalid"))
    else .passing pass (.inspect record)

/-- A step of `reconcile`. -/
def Pass.step (pass : Pass) (stage : PassStage) (changed : List TaskId) (e : Environment)
    (db : Database) : Database × List TaskId × Stage :=
  match stage with
  | .batch =>
    match nonterminalCandidates db pass.cursor pass.highWater with
    | .error error => (db, changed, .returned (.error error))
    | .ok [] => (db, changed, .returned (.ok (.summary pass.summary)))
    | .ok (first :: rest) =>
      (db, changed, .passing
        { pass with
          cursor := some ((first :: rest).getLast (List.cons_ne_nil _ _)).id
          queue := first :: rest }
        (.reading (.base first.id)))
  | .reading read =>
    match readStep db read, pass.queue with
    | .error error, _ => (db, changed, .returned (.error error))
    | .ok (.inl read), _ => (db, changed, .passing pass (.reading read))
    | .ok (.inr _), [] => (db, changed, .passing pass .batch)
    | .ok (.inr found), candidate :: _ => (db, changed, pass.found candidate found)
  | .inspect record =>
    match pass.queue with
    | [] => (db, changed, .passing pass .batch)
    | candidate :: _ =>
      match decideReconcile candidate.status record e.inspection with
      | .error error => (db, changed, .returned (.error error))
      | .ok d =>
        match reconcileTransition db candidate.id candidate.status d.next d.progress d.diagnostic
          e.clock with
        | .error error => (db, changed, .returned (.error error))
        | .ok none => (db, changed, pass.next)
        | .ok (some db') =>
          (db', changed ++ [candidate.id],
            { pass with summary := pass.summary.count d.outcome }.next)

/-- The next step of a call. -/
def Conn.resume (conn : Conn) (e : Environment) (db : Database) :
    Database × List TaskId × Stage :=
  match e.interruption with
  | some interruption => (db, conn.changed, .returned (.error interruption.error))
  | none =>
    match conn.stage with
    | .reading read =>
      match readStep db read with
      | .error error => (db, conn.changed, .returned (.error error))
      | .ok (.inl read) => (db, conn.changed, .reading read)
      | .ok (.inr found) => (db, conn.changed, .returned (conn.operation.reply found))
    | .verify => (db, conn.changed, .returned (.ok .unit))
    | .passing pass stage => pass.step stage conn.changed e db
    | .returned result => (db, conn.changed, .returned result)

/-! ## The store and its connections -/

structure Store where
  db : Database
  conns : Nat → Option Conn

/-- An empty store. -/
def Store.start : Store := ⟨.empty, fun _ => none⟩

inductive Action where
  | call (conn : Nat) (operation : Operation) (e : Environment)
  | resume (conn : Nat) (e : Environment)

def Action.conn : Action → Nat
  | .call conn _ _ | .resume conn _ => conn

def Store.set (s : Store) (conn : Nat) (operation : Operation)
    (r : Database × List TaskId × Stage) : Store :=
  ⟨r.1, Function.update s.conns conn (some ⟨operation, r.2.1, r.2.2⟩)⟩

/-- A connection makes one call at a time. -/
def Store.step (s : Store) : Action → Option Store
  | .call conn operation e =>
    if (s.conns conn).all Conn.isReturned then
      some (s.set conn operation (startCall operation e s.db))
    else none
  | .resume conn e =>
    match s.conns conn with
    | none => none
    | some c => if c.isReturned then none else some (s.set conn c.operation (c.resume e s.db))

end IntoMarkdown.TaskStore
