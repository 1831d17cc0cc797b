import IntoMarkdown.TaskStore.Reading

/-! # Runs of a store

What holds in every state that any number of connections can bring a store to,
and what a step may do to the tasks. -/

namespace IntoMarkdown.TaskStore
open Lib Json Recovery Transition

/-! ## What a run keeps to -/

/-- The tasks that the transactions of the connection's call have changed. -/
def Store.changedBy (s : Store) (conn : Nat) : List TaskId :=
  ((s.conns conn).map Conn.changed).getD []

/-- The tasks that the transaction of the step has changed. -/
def Store.newlyChanged (s s' : Store) : Action → List TaskId
  | .call conn _ _ => s'.changedBy conn
  | .resume conn _ => (s'.changedBy conn).drop (s.changedBy conn).length

def Operation.requeues : Operation → TaskId → Prop
  | .requeueTerminal id, id' => id = id'
  | _, _ => False

def Operation.replaces : Operation → TaskId → Prop
  | .replaceSucceededArtifacts id _ _, id' => id = id'
  | _, _ => False

def Action.requeues : Action → TaskId → Prop
  | .call _ operation _ => operation.requeues
  | .resume _ _ => fun _ => False

def Action.replaces : Action → TaskId → Prop
  | .call _ operation _ => operation.replaces
  | .resume _ _ => fun _ => False

/-- The state of a store: its tasks are good and do not share tokens, no read of a
task reports corruption, and a call that has failed has changed nothing. -/
structure Store.Good (s : Store) : Prop where
  task : ∀ id task, s.db.lookup id = some task → task.Good
  token : ∀ id id' task task', s.db.lookup id = some task → s.db.lookup id' = some task' →
    task.row.recoveryToken = task'.row.recoveryToken → id = id'
  reads : ∀ c conn id error detail, s.conns c = some conn → conn.operation = .get id →
    conn.stage = .returned (.error error) → error ≠ .corrupt detail
  failed : ∀ c conn error, s.conns c = some conn → conn.stage = .returned (.error error) →
    conn.changed = []

/-- What a step does to the tasks that are there before and after it. -/
structure Store.Evolves (s : Store) (a : Action) (s' : Store) : Prop where
  same : ∀ id, id ∉ s.newlyChanged s' a → s'.db.lookup id = s.db.lookup id
  updated : ∀ id old new, s.db.lookup id = some old → s'.db.lookup id = some new →
    id ∈ s.newlyChanged s' a → old.row.updatedAt < new.row.updatedAt
  created : ∀ id old new, s.db.lookup id = some old → s'.db.lookup id = some new →
    new.row.createdAt = old.row.createdAt
  progress : ∀ id old new, s.db.lookup id = some old → s'.db.lookup id = some new →
    ¬ a.requeues id → old.row.progress ≤ new.row.progress
  terminal : ∀ id old new, s.db.lookup id = some old → s'.db.lookup id = some new →
    isTerminal old.row.status = true → new.row.status ≠ old.row.status →
      a.requeues id ∧ old.row.status ≠ "succeeded"
  generation : ∀ id old new, s.db.lookup id = some old → s'.db.lookup id = some new →
    new.row.artifactGeneration = old.row.artifactGeneration ∨
      a.replaces id ∧ new.row.artifactGeneration = old.row.artifactGeneration + 1

/-! ## Conditions on a step -/

/-- The time of the task's last update is not the last one there is. -/
def Advances (db : Database) (id : TaskId) : Prop :=
  ∀ task, db.lookup id = some task → task.row.updatedAt < i64Max

/-- A call that has changed a task is not interrupted, finds the task that it reads
back, and finds what it needs to reconcile the next one. -/
def Conn.Continues (conn : Conn) (e : Environment) (db : Database) : Prop :=
  e.interruption = none ∧
    match conn.stage with
    | .reading (.base id) | .passing _ (.reading (.base id)) => (db.lookup id).isSome = true
    | .passing pass (.inspect record) =>
      e.inspection ≠ .unavailable ∧ 0 ≤ e.clock ∧ e.clock ≤ i64Max ∧
        ∀ candidate ∈ pass.queue.head?, ∀ task d, db.lookup candidate.id = some task →
          decideReconcile candidate.status record e.inspection = .ok d → d.diagnostic.isSome →
            task.diagnostics.entries.length < maxDiagnostics
    | _ => True

/-- The step does not change a task that was last updated at the last time there
is, and does not fail after its call has changed a task. -/
def Store.Sound (s : Store) : Action → Prop
  | .call _ (.transition id _) _ | .call _ (.replaceSucceededArtifacts id _ _) _ =>
    Advances s.db id
  | .call _ _ _ => True
  | .resume c e => ∀ conn, s.conns c = some conn →
    (∀ pass record, conn.stage = .passing pass (.inspect record) →
      ∀ candidate ∈ pass.queue.head?, Advances s.db candidate.id) ∧
    (conn.changed ≠ [] → conn.Continues e s.db)

/-! ## Effects -/

/-- What one step does to the tables: nothing, or it creates, deletes or updates
one task. -/
def Effect (requeues replaces : TaskId → Prop) (db : Database) (changed : List TaskId)
    (db' : Database) : Prop :=
  (changed = [] ∧ db' = db) ∨
    ∃ id, changed = [id] ∧ ((∃ new, db.lookup id = none ∧ db' = db.insert id new) ∨
      db' = db.erase id ∨ Updates (requeues id) (replaces id) db id db')

/-- What is known of a call between its steps. -/
def Stage.Inv : Stage → Prop
  | .reading read => read.Inv
  | .passing pass stage =>
    (∀ c ∈ pass.queue, canonicalHex 32 c.recoveryToken = true ∧ isActive c.status.asDb = true) ∧
      match stage with
      | .batch => True
      | .reading read => read.Inv ∧ pass.queue ≠ []
      | .inspect record => record.progressMillionths.toNat ≤ maxProgress ∧ pass.queue ≠ []
  | _ => True

structure Conn.Inv (conn : Conn) : Prop where
  stage : conn.stage.Inv
  reads : ∀ id, conn.operation = .get id → (∃ read, conn.stage = .reading read) ∨
    ∃ result, conn.stage = .returned result ∧ ∀ detail, result ≠ .error (.corrupt detail)

structure Store.Inv (s : Store) : Prop where
  db : s.db.Inv
  conns : ∀ c conn, s.conns c = some conn → conn.Inv

theorem store_inv_start : Store.start.Inv where
  db := ⟨fun _ _ h => (by cases h), fun _ _ _ _ h => (by cases h)⟩
  conns := fun _ _ h => by cases h

/-- What a step of a call leads to. -/
structure Spec (requeues replaces : TaskId → Prop) (operation : Operation)
    (before : List TaskId) (db : Database) (r : Database × List TaskId × Stage) : Prop where
  effect : ∃ more, r.2.1 = before ++ more ∧ Effect requeues replaces db more r.1 ∧
    ∀ error, r.2.2 = .returned (.error error) → more = []
  db : r.1.Inv
  conn : Conn.Inv ⟨operation, r.2.1, r.2.2⟩

variable {requeues replaces : TaskId → Prop}

/-- A step that leaves the tables as they are. -/
theorem Spec.quiet {operation : Operation} {before : List TaskId} {db : Database} {stage : Stage}
    (hinv : db.Inv) (hconn : Conn.Inv ⟨operation, before, stage⟩) :
    Spec requeues replaces operation before db (db, before, stage) :=
  ⟨⟨[], (List.append_nil _).symm, .inl ⟨rfl, rfl⟩, fun _ _ => rfl⟩, hinv, hconn⟩

theorem Conn.Inv.other {operation : Operation} {changed : List TaskId} {stage : Stage}
    (hstage : stage.Inv) (hget : ∀ id, operation ≠ .get id) :
    Conn.Inv ⟨operation, changed, stage⟩ :=
  ⟨hstage, fun id h => absurd h (hget id)⟩

theorem Interruption.error_ne (interruption : Interruption) (detail : String) :
    interruption.error ≠ .corrupt detail := by
  cases interruption <;> rintro ⟨⟩

theorem Conn.Inv.interrupted {operation : Operation} {changed : List TaskId}
    (interruption : Interruption) :
    Conn.Inv ⟨operation, changed, .returned (.error interruption.error)⟩ := by
  refine ⟨trivial, fun _ _ => .inr ⟨_, rfl, fun detail h => ?_⟩⟩
  exact interruption.error_ne detail (Except.error.inj h)

/-- A call whose transaction is over. -/
theorem committed_spec {operation : Operation} {db : Database} {id : TaskId} {stage : Stage}
    {x : Except TaskStoreError Database} (hinv : db.Inv) (hget : ∀ id, operation ≠ .get id)
    (hstage : stage.Inv) (hok : ∀ error, stage ≠ .returned (.error error))
    (h : ∀ db', x = .ok db' → db'.Inv ∧
      (db' = db.erase id ∨ Updates (requeues id) (replaces id) db id db')) :
    Spec requeues replaces operation [] db (committed db id stage x) := by
  cases x with
  | error error => exact Spec.quiet hinv (Conn.Inv.other trivial hget)
  | ok db' =>
    obtain ⟨hinv', hupdates⟩ := h db' rfl
    refine ⟨⟨[id], rfl, .inr ⟨id, rfl, .inr hupdates⟩, fun error herror => ?_⟩, hinv',
      Conn.Inv.other hstage hget⟩
    exact absurd herror (hok error)

theorem startCall_spec {db : Database} (hinv : db.Inv) (operation : Operation) (e : Environment) :
    Spec operation.requeues operation.replaces operation [] db (startCall operation e db) := by
  unfold startCall
  cases e.interruption with
  | some interruption => exact Spec.quiet hinv (Conn.Inv.interrupted interruption)
  | none =>
    dsimp only
    cases operation with
    | create task =>
      dsimp only
      cases hcreate : create db task e.clock e.candidates with
      | error error => exact Spec.quiet hinv (Conn.Inv.other trivial (fun _ h => by cases h))
      | ok r =>
        obtain ⟨new, hnone, hdb, -, -⟩ := create_creates hcreate
        exact ⟨⟨[r.2], rfl, .inr ⟨r.2, rfl, .inl ⟨new, hnone, hdb⟩⟩, fun _ h => by cases h⟩,
          create_inv hinv hcreate, Conn.Inv.other trivial (fun _ h => by cases h)⟩
    | get id => exact Spec.quiet hinv ⟨trivial, fun _ _ => .inl ⟨_, rfl⟩⟩
    | transition id t =>
      refine committed_spec hinv (fun _ h => by cases h) trivial (fun _ h => by cases h) ?_
      intro db' h
      have hupdates := transition_updates hinv h
      exact ⟨hupdates.inv hinv, .inr hupdates⟩
    | setPinned id pinned =>
      refine committed_spec hinv (fun _ h => by cases h) trivial (fun _ h => by cases h) ?_
      intro db' h
      have hupdates := setPinned_updates hinv h
      exact ⟨hupdates.inv hinv, .inr hupdates⟩
    | requeueTerminal id =>
      refine committed_spec hinv (fun _ h => by cases h) trivial (fun _ h => by cases h) ?_
      intro db' h
      have hupdates := requeueTerminal_updates hinv h
      refine ⟨hupdates.inv hinv, .inr ?_⟩
      rwa [show Operation.requeues (.requeueTerminal id) id = True from eq_self id]
    | deleteTerminal id allowPinned =>
      refine committed_spec hinv (fun _ h => by cases h) trivial (fun _ h => by cases h) ?_
      intro db' h
      exact ⟨deleteTerminal_inv hinv h, .inl (deleteTerminal_erases h)⟩
    | replaceSucceededArtifacts id expectedGeneration artifacts =>
      refine committed_spec hinv (fun _ h => by cases h) trivial (fun _ h => by cases h) ?_
      intro db' h
      have hupdates := replaceSucceededArtifacts_updates hinv h
      refine ⟨hupdates.inv hinv, .inr ?_⟩
      rwa [show Operation.replaces (.replaceSucceededArtifacts id expectedGeneration artifacts) id =
        True from eq_self id]
    | reconcile =>
      dsimp only
      cases maxId db with
      | none => exact Spec.quiet hinv (Conn.Inv.other trivial (fun _ h => by cases h))
      | some highWater =>
        refine Spec.quiet hinv (Conn.Inv.other ⟨?_, trivial⟩ (fun _ h => by cases h))
        exact List.forall_mem_nil _

/-! ## Steps of a reconciliation -/

/-- Candidates whose tokens were checked when they were read. -/
def Pass.Checked (pass : Pass) : Prop :=
  ∀ c ∈ pass.queue, canonicalHex 32 c.recoveryToken = true ∧ isActive c.status.asDb = true

theorem Pass.next_inv {pass : Pass} (h : pass.Checked) :
    pass.next.Inv ∧ ∀ error, pass.next ≠ .returned (.error error) := by
  unfold Pass.next
  cases htail : pass.queue.tail with
  | nil => exact ⟨⟨List.forall_mem_nil _, trivial⟩, fun _ h => by cases h⟩
  | cons candidate rest =>
    refine ⟨⟨?_, trivial, List.cons_ne_nil _ _⟩, fun _ h => by cases h⟩
    intro c hc
    exact h c (List.mem_of_mem_tail (htail ▸ hc))

theorem Pass.found_inv {pass : Pass} (h : pass.Checked) {candidate : Candidate}
    (hmem : candidate ∈ pass.queue) {found : Option TaskRecord}
    (hprogress : ∀ record, found = some record → record.progressMillionths.toNat ≤ maxProgress) :
    (pass.found candidate found).Inv ∧
      (found.isSome = true → ∀ error, pass.found candidate found ≠ .returned (.error error)) := by
  unfold Pass.found
  cases found with
  | none => exact ⟨trivial, fun hsome => by cases hsome⟩
  | some record =>
    dsimp only
    by_cases hstatus : record.status ≠ candidate.status
    · rw [if_pos hstatus]
      exact ⟨(Pass.next_inv h).1, fun _ => (Pass.next_inv h).2⟩
    · rw [if_neg hstatus, if_neg (not_not.mpr (h candidate hmem).1)]
      exact ⟨⟨h, hprogress record rfl, List.ne_nil_of_mem hmem⟩, fun _ _ h => by cases h⟩

theorem Pass.step_spec {operation : Operation} {changed : List TaskId} {db : Database}
    (hinv : db.Inv) (hget : ∀ id, operation ≠ .get id) {pass : Pass} {stage : PassStage}
    (hstage : (Stage.passing pass stage).Inv) (e : Environment) :
    Spec (fun _ => False) (fun _ => False) operation changed db
      (pass.step stage changed e db) := by
  obtain ⟨hchecked, hstage⟩ := hstage
  have hquiet : ∀ stage : Stage, stage.Inv →
      Spec (fun _ => False) (fun _ => False) operation changed db (db, changed, stage) :=
    fun stage h => Spec.quiet hinv (Conn.Inv.other h hget)
  unfold Pass.step
  cases stage with
  | batch =>
    dsimp only
    obtain ⟨candidates, hcandidates, hgood⟩ := nonterminalCandidates_ok hinv pass.cursor pass.highWater
    rw [hcandidates]
    cases candidates with
    | nil => exact hquiet _ trivial
    | cons first rest => exact hquiet _ ⟨hgood, trivial, List.cons_ne_nil _ _⟩
  | reading read =>
    dsimp only
    obtain ⟨hread, hne⟩ := hstage
    obtain ⟨r, hr, hnext, hprogress⟩ := readStep_ok hinv hread
    rw [hr]
    cases r with
    | inl next => exact hquiet _ ⟨hchecked, hnext next rfl, hne⟩
    | inr found =>
      cases hqueue : pass.queue with
      | nil => exact hquiet _ ⟨hchecked, trivial⟩
      | cons candidate rest =>
        exact hquiet _ (Pass.found_inv hchecked (hqueue ▸ List.mem_cons_self ..)
          fun record h => hprogress record (h ▸ rfl)).1
  | inspect record =>
    dsimp only
    cases hqueue : pass.queue with
    | nil => exact hquiet _ ⟨hchecked, trivial⟩
    | cons candidate rest =>
      dsimp only
      cases hdecide : decideReconcile candidate.status record e.inspection with
      | error error => exact hquiet _ trivial
      | ok d =>
        dsimp only
        cases hreconcile : reconcileTransition db candidate.id candidate.status d.next d.progress
            d.diagnostic e.clock with
        | error error => exact hquiet _ trivial
        | ok r =>
          cases r with
          | none => exact hquiet _ (Pass.next_inv hchecked).1
          | some db' =>
            have hupdates := reconcileTransition_updates hinv hreconcile
            have hnext := @Pass.next_inv { pass with
              queue := candidate :: rest
              summary := pass.summary.count d.outcome } fun c hc => hchecked c (hqueue ▸ hc)
            exact ⟨⟨[candidate.id], rfl, .inr ⟨_, rfl, .inr (.inr hupdates)⟩,
              fun error herror => absurd herror (hnext.2 error)⟩, hupdates.inv hinv,
              Conn.Inv.other hnext.1 hget⟩

theorem resume_spec {db : Database} (hinv : db.Inv) {conn : Conn} (hconn : conn.Inv)
    (e : Environment) :
    Spec (fun _ => False) (fun _ => False) conn.operation conn.changed db (conn.resume e db) := by
  obtain ⟨operation, changed, stage⟩ := conn
  unfold Conn.resume
  cases e.interruption with
  | some interruption => exact Spec.quiet hinv (Conn.Inv.interrupted interruption)
  | none =>
    dsimp only
    cases stage with
    | reading read =>
      dsimp only
      obtain ⟨r, hr, hnext, -⟩ := readStep_ok hinv hconn.stage
      rw [hr]
      cases r with
      | inl next => exact Spec.quiet hinv ⟨hnext next rfl, fun _ _ => .inl ⟨next, rfl⟩⟩
      | inr found =>
        refine Spec.quiet hinv ⟨trivial, fun id hid => .inr ⟨_, rfl, fun detail h => ?_⟩⟩
        obtain rfl : operation = .get id := hid
        cases h
    | verify =>
      refine Spec.quiet hinv ⟨trivial, fun id hid => ?_⟩
      rcases hconn.reads id hid with ⟨read, h⟩ | ⟨result, h, -⟩ <;> cases h
    | passing pass stage =>
      refine Pass.step_spec hinv (fun id hid => ?_) hconn.stage e
      rcases hconn.reads id hid with ⟨read, h⟩ | ⟨result, h, -⟩ <;> cases h
    | returned result => exact Spec.quiet hinv hconn

/-- A call that may go on does not fail. -/
theorem resume_continues {db : Database} (hinv : db.Inv) {conn : Conn} (hconn : conn.Inv)
    (hreturned : conn.isReturned = false) {e : Environment} (h : conn.Continues e db)
    (error : TaskStoreError) : (conn.resume e db).2.2 ≠ .returned (.error error) := by
  obtain ⟨operation, changed, stage⟩ := conn
  obtain ⟨hinterruption, h⟩ := h
  unfold Conn.resume
  rw [hinterruption]
  cases stage with
  | reading read =>
    dsimp only
    obtain ⟨r, hr, -, -⟩ := readStep_ok hinv hconn.stage
    rw [hr]
    cases r with
    | inl next => exact fun h => by cases h
    | inr found =>
      cases found with
      | none =>
        obtain ⟨id, rfl, hnone⟩ := readStep_none hr
        have h : (db.lookup id).isSome = true := h
        rw [hnone] at h
        cases h
      | some record => cases operation <;> exact fun h => by cases h
  | verify => exact fun h => by cases h
  | passing pass stage =>
    obtain ⟨hchecked, hstage⟩ := hconn.stage
    dsimp only [Pass.step]
    cases stage with
    | batch =>
      obtain ⟨candidates, hcandidates, -⟩ :=
        nonterminalCandidates_ok hinv pass.cursor pass.highWater
      dsimp only
      rw [hcandidates]
      cases candidates <;> exact fun h => by cases h
    | reading read =>
      obtain ⟨hread, hne⟩ := hstage
      obtain ⟨r, hr, -, hprogress⟩ := readStep_ok hinv hread
      dsimp only
      rw [hr]
      cases r with
      | inl next => exact fun h => by cases h
      | inr found =>
        cases hqueue : pass.queue with
        | nil => exact fun h => by cases h
        | cons candidate rest =>
          refine (Pass.found_inv hchecked (hqueue ▸ List.mem_cons_self ..)
            fun record h => hprogress record (h ▸ rfl)).2 ?_ error
          rw [← Option.not_isNone, Bool.not_eq_true', Option.isNone_eq_false_iff]
          by_contra hnone
          rw [Option.not_isSome_iff_eq_none] at hnone
          subst hnone
          obtain ⟨id, rfl, hmissing⟩ := readStep_none hr
          have h : (db.lookup id).isSome = true := h
          rw [hmissing] at h
          cases h
    | inspect record =>
      obtain ⟨hprogress, hne⟩ := hstage
      obtain ⟨havailable, hclock, hlatest, hroom⟩ := h
      cases hqueue : pass.queue with
      | nil => exact absurd hqueue hne
      | cons candidate rest =>
        have hactive := (hchecked candidate (hqueue ▸ List.mem_cons_self ..)).2
        obtain ⟨d, hdecide⟩ := decideReconcile_total candidate.status record havailable
        obtain ⟨hnext, hminimum⟩ := decideReconcile_ok hactive hprogress hdecide
        obtain ⟨r, hreconcile⟩ := reconcileTransition_ok hinv candidate.status
          ⟨hclock, hlatest⟩ hnext hminimum (fun hsome task htask =>
            hroom candidate (by rw [hqueue]; rfl) task d htask hdecide hsome)
        dsimp only
        rw [hdecide]
        dsimp only
        rw [hreconcile]
        cases r with
        | none => exact (Pass.next_inv hchecked).2 error
        | some db' =>
          exact (@Pass.next_inv { pass with
            queue := candidate :: rest
            summary := pass.summary.count d.outcome } fun c hc => hchecked c (hqueue ▸ hc)).2 error
  | returned result => cases hreturned

/-! ## Effects of a step -/

theorem Effect.same {db db' : Database} {changed : List TaskId}
    (h : Effect requeues replaces db changed db') {id : TaskId} (hid : id ∉ changed) :
    db'.lookup id = db.lookup id := by
  rcases h with ⟨-, rfl⟩ | ⟨id', rfl, h⟩
  · rfl
  have hne : id ≠ id' := fun heq => hid (List.mem_singleton.mpr heq)
  rcases h with ⟨new, -, rfl⟩ | rfl | ⟨old, new, -, rfl, -⟩
  · rw [OrderedMap.lookup_insert, if_neg hne]
  · rw [OrderedMap.lookup_erase, if_neg hne]
  · rw [OrderedMap.lookup_insert, if_neg hne]

/-- A task that is there before and after an effect on it was updated. -/
theorem Effect.evolves {db db' : Database} {changed : List TaskId}
    (h : Effect requeues replaces db changed db') {id : TaskId} (hid : id ∈ changed)
    {old new : Task} (hold : db.lookup id = some old) (hnew : db'.lookup id = some new) :
    Task.Evolves (requeues id) (replaces id) old new := by
  rcases h with ⟨rfl, -⟩ | ⟨id', rfl, h⟩
  · cases hid
  obtain rfl := List.mem_singleton.mp hid
  rcases h with ⟨created, hnone, -⟩ | rfl | ⟨old', new', hold', rfl, -, hevolves⟩
  · rw [hnone] at hold
    cases hold
  · rw [OrderedMap.lookup_erase, if_pos rfl] at hnew
    cases hnew
  · rw [OrderedMap.lookup_insert, if_pos rfl, Option.some.injEq] at hnew
    rw [hold, Option.some.injEq] at hold'
    exact hold' ▸ hnew ▸ hevolves

/-- The effect of a step, on the tasks that its transaction has changed. -/
structure Store.Stepped (s : Store) (a : Action) (s' : Store) : Prop where
  effect : Effect a.requeues a.replaces s.db (s.newlyChanged s' a) s'.db
  db : s'.db.Inv
  others : ∀ c, c ≠ a.conn → s'.conns c = s.conns c
  conn : ∃ conn, s'.conns a.conn = some conn ∧ conn.Inv

theorem step_call {s s' : Store} {c : Nat} {operation : Operation} {e : Environment}
    (h : s.step (.call c operation e) = some s') :
    s' = s.set c operation (startCall operation e s.db) := by
  unfold Store.step at h
  dsimp only at h
  split_ifs at h
  exact (Option.some.inj h).symm

theorem step_resume {s s' : Store} {c : Nat} {e : Environment}
    (h : s.step (.resume c e) = some s') : ∃ conn, s.conns c = some conn ∧
      conn.isReturned = false ∧ s' = s.set c conn.operation (conn.resume e s.db) := by
  unfold Store.step at h
  cases hconn : s.conns c with
  | none =>
    simp only [hconn] at h
    cases h
  | some conn =>
    simp only [hconn] at h
    by_cases hreturned : conn.isReturned = true
    · rw [if_pos hreturned] at h
      cases h
    · rw [if_neg hreturned] at h
      exact ⟨conn, rfl, by simpa using hreturned, (Option.some.inj h).symm⟩

theorem Store.conns_set (s : Store) (c : Nat) (operation : Operation)
    (r : Database × List TaskId × Stage) :
    (s.set c operation r).conns c = some ⟨operation, r.2.1, r.2.2⟩ ∧
      ∀ c', c' ≠ c → (s.set c operation r).conns c' = s.conns c' :=
  ⟨Function.update_self .., fun _ h => Function.update_of_ne h ..⟩

theorem stepped {s s' : Store} {a : Action} (hinv : s.Inv) (h : s.step a = some s') :
    s.Stepped a s' := by
  cases a with
  | call c operation e =>
    obtain rfl := step_call h
    obtain ⟨hself, hothers⟩ := s.conns_set c operation (startCall operation e s.db)
    have hspec := startCall_spec hinv.db operation e
    obtain ⟨more, hchanged, heffect, -⟩ := hspec.effect
    rw [List.nil_append] at hchanged
    refine ⟨?_, hspec.db, hothers, _, hself, hspec.conn⟩
    simp only [Store.newlyChanged, Store.changedBy, hself, Option.map_some, Option.getD_some,
      hchanged]
    exact heffect
  | resume c e =>
    obtain ⟨conn, hconn, -, rfl⟩ := step_resume h
    obtain ⟨hself, hothers⟩ := s.conns_set c conn.operation (conn.resume e s.db)
    have hspec := resume_spec hinv.db (hinv.conns c conn hconn) e
    obtain ⟨more, hchanged, heffect, -⟩ := hspec.effect
    refine ⟨?_, hspec.db, hothers, _, hself, hspec.conn⟩
    simp only [Store.newlyChanged, Store.changedBy, hself, hconn, Option.map_some,
      Option.getD_some, hchanged, List.drop_left]
    exact heffect

theorem store_inv_step {s s' : Store} {a : Action} (hinv : s.Inv) (h : s.step a = some s') :
    s'.Inv := by
  obtain ⟨-, hdb, hothers, conn, hconn, hconninv⟩ := stepped hinv h
  refine ⟨hdb, fun c conn' hc => ?_⟩
  by_cases hself : c = a.conn
  · rw [hself, hconn, Option.some.injEq] at hc
    exact hc ▸ hconninv
  · rw [hothers c hself] at hc
    exact hinv.conns c conn' hc

/-! ## Runs -/

/-- A call that has failed has changed nothing. -/
def Store.Unspoiled (s : Store) : Prop :=
  ∀ c conn error, s.conns c = some conn → conn.stage = .returned (.error error) →
    conn.changed = []

theorem unspoiled_step {s s' : Store} {a : Action} (hinv : s.Inv) (hs : s.Unspoiled)
    (hsound : s.Sound a) (h : s.step a = some s') : s'.Unspoiled := by
  intro c conn error hconn herror
  by_cases hself : c = a.conn
  swap
  · rw [(stepped hinv h).others c hself] at hconn
    exact hs c conn error hconn herror
  subst hself
  cases a with
  | call c operation e =>
    obtain rfl := step_call h
    rw [Action.conn, (s.conns_set _ _ _).1, Option.some.injEq] at hconn
    subst hconn
    obtain ⟨more, hchanged, -, hfailed⟩ := (startCall_spec hinv.db operation e).effect
    rw [show (_ : Conn).changed = _ from hchanged, hfailed error herror]
    rfl
  | resume c e =>
    obtain ⟨before, hbefore, hreturned, rfl⟩ := step_resume h
    rw [Action.conn, (s.conns_set _ _ _).1, Option.some.injEq] at hconn
    subst hconn
    have hbeforeinv := hinv.conns c before hbefore
    obtain ⟨more, hchanged, -, hfailed⟩ := (resume_spec hinv.db hbeforeinv e).effect
    rw [show (_ : Conn).changed = _ from hchanged, hfailed error herror, List.append_nil]
    by_contra hne
    exact resume_continues hinv.db hbeforeinv hreturned ((hsound before hbefore).2 hne) error herror

theorem Store.Inv.good {s : Store} (hinv : s.Inv) (hs : s.Unspoiled) : s.Good where
  task id task h := (hinv.db.task id task h).good
  token := hinv.db.token
  reads c conn id error detail hconn hget hstage := by
    rcases (hinv.conns c conn hconn).reads id hget with ⟨read, hread⟩ | ⟨result, hresult, hne⟩
    · rw [hread] at hstage
      cases hstage
    · rw [hresult, Stage.returned.injEq] at hstage
      rintro rfl
      exact hne detail hstage
  failed := hs

/-- A sum beyond the last time is refused. -/
theorem setPinned_advances {db db' : Database} {id : TaskId} {pinned : Bool} {clock : Int}
    (h : setPinned db id pinned clock = .ok db') : Advances db id := by
  unfold setPinned at h
  obtain ⟨now, -, h⟩ := ok_bind h
  obtain ⟨old, hold, h⟩ := ok_bind h
  obtain ⟨new, hupdate, h⟩ := ok_bind h
  have hfits : max now (old.row.updatedAt + 1) ≤ i64Max :=
    (TaskRow.checked (Task.update_ok hupdate).2).fits
  intro task htask
  rw [findTask_ok hold, Option.some.injEq] at htask
  subst htask
  have hlater := (le_max_right _ _).trans hfits
  omega

theorem requeueTerminal_advances {db db' : Database} {id : TaskId} {clock : Int}
    (h : requeueTerminal db id clock = .ok db') : Advances db id := by
  unfold requeueTerminal at h
  obtain ⟨now, -, h⟩ := ok_bind h
  obtain ⟨old, hold, h⟩ := ok_bind h
  obtain ⟨status, -, h⟩ := ok_bind h
  obtain ⟨_, -, h⟩ := ok_bind h
  obtain ⟨new, hupdate, h⟩ := ok_bind h
  have hfits : max now (old.row.updatedAt + 1) ≤ i64Max :=
    (TaskRow.checked (Task.update_ok hupdate).2).fits
  intro task htask
  rw [findTask_ok hold, Option.some.injEq] at htask
  subst htask
  have hlater := (le_max_right _ _).trans hfits
  omega

theorem committed_changed {db : Database} {id id' : TaskId} {stage : Stage}
    {x : Except TaskStoreError Database} (h : id' ∈ (committed db id stage x).2.1) :
    id' = id ∧ ∃ db', x = .ok db' ∧ (committed db id stage x).1 = db' := by
  cases x with
  | error error => cases h
  | ok db' => exact ⟨List.mem_singleton.mp h, db', rfl, rfl⟩

/-- A call that updates a task finds that there is a later time. -/
theorem startCall_advances {s : Store} {c : Nat} {operation : Operation} {e : Environment}
    (hsound : s.Sound (.call c operation e)) {id : TaskId} {old new : Task}
    (hid : id ∈ (startCall operation e s.db).2.1) (hold : s.db.lookup id = some old)
    (hnew : (startCall operation e s.db).1.lookup id = some new) :
    old.row.updatedAt < i64Max := by
  unfold startCall at hid hnew
  cases hinterruption : e.interruption with
  | some interruption =>
    simp only [hinterruption] at hid
    cases hid
  | none =>
    simp only [hinterruption] at hid hnew
    cases operation with
    | create task =>
      dsimp only at hid
      cases hcreate : create s.db task e.clock e.candidates with
      | error error =>
        rw [hcreate] at hid
        cases hid
      | ok r =>
        rw [hcreate] at hid
        obtain rfl := List.mem_singleton.mp hid
        obtain ⟨created, hnone, -⟩ := create_creates hcreate
        rw [hnone] at hold
        cases hold
    | get id => cases hid
    | transition id' t =>
      obtain ⟨rfl, -⟩ := committed_changed hid
      exact hsound old hold
    | setPinned id' pinned =>
      obtain ⟨rfl, db', h, -⟩ := committed_changed hid
      exact setPinned_advances h old hold
    | requeueTerminal id' =>
      obtain ⟨rfl, db', h, -⟩ := committed_changed hid
      exact requeueTerminal_advances h old hold
    | deleteTerminal id' allowPinned =>
      obtain ⟨rfl, db', h, hdb⟩ := committed_changed hid
      dsimp only at hnew
      rw [hdb, deleteTerminal_erases h, OrderedMap.lookup_erase, if_pos rfl] at hnew
      cases hnew
    | replaceSucceededArtifacts id' expectedGeneration artifacts =>
      obtain ⟨rfl, -⟩ := committed_changed hid
      exact hsound old hold
    | reconcile =>
      dsimp only at hid
      cases hmax : maxId s.db with
      | none =>
        rw [hmax] at hid
        cases hid
      | some highWater =>
        rw [hmax] at hid
        cases hid

/-- The next step of a call changes only the task that it has inspected. -/
theorem resume_changed {conn : Conn} {e : Environment} {db : Database} {id : TaskId}
    (h : id ∈ (conn.resume e db).2.1.drop conn.changed.length) :
    ∃ pass record, conn.stage = .passing pass (.inspect record) ∧
      ∃ candidate ∈ pass.queue.head?, candidate.id = id := by
  have hno : id ∉ conn.changed.drop conn.changed.length := by
    rw [List.drop_length]
    exact List.not_mem_nil
  obtain ⟨operation, changed, stage⟩ := conn
  unfold Conn.resume at h
  cases hinterruption : e.interruption with
  | some interruption =>
    simp only [hinterruption] at h
    exact absurd h hno
  | none =>
    simp only [hinterruption] at h
    cases stage with
    | reading read =>
      dsimp only at h
      cases hread : readStep db read with
      | error error =>
        rw [hread] at h
        exact absurd h hno
      | ok r =>
        rw [hread] at h
        cases r <;> exact absurd h hno
    | verify => exact absurd h hno
    | returned result => exact absurd h hno
    | passing pass stage =>
      dsimp only [Pass.step] at h
      cases stage with
      | batch =>
        dsimp only at h
        cases hbatch : nonterminalCandidates db pass.cursor pass.highWater with
        | error error =>
          rw [hbatch] at h
          exact absurd h hno
        | ok candidates =>
          rw [hbatch] at h
          cases candidates <;> exact absurd h hno
      | reading read =>
        dsimp only at h
        cases hread : readStep db read with
        | error error =>
          rw [hread] at h
          exact absurd h hno
        | ok r =>
          rw [hread] at h
          cases r with
          | inl next => exact absurd h hno
          | inr found => cases hqueue : pass.queue <;> rw [hqueue] at h <;> exact absurd h hno
      | inspect record =>
        refine ⟨pass, record, rfl, ?_⟩
        dsimp only at h
        cases hqueue : pass.queue with
        | nil =>
          rw [hqueue] at h
          exact absurd h hno
        | cons candidate rest =>
          refine ⟨candidate, rfl, ?_⟩
          rw [hqueue] at h
          dsimp only at h
          cases hdecide : decideReconcile candidate.status record e.inspection with
          | error error =>
            rw [hdecide] at h
            exact absurd h hno
          | ok d =>
            rw [hdecide] at h
            dsimp only at h
            cases hreconcile : reconcileTransition db candidate.id candidate.status d.next
                d.progress d.diagnostic e.clock with
            | error error =>
              rw [hreconcile] at h
              exact absurd h hno
            | ok r =>
              rw [hreconcile] at h
              cases r with
              | none => exact absurd h hno
              | some db' =>
                dsimp only at h
                rw [List.drop_left, List.mem_singleton] at h
                exact h.symm

theorem evolves_step {s s' : Store} {a : Action} (hinv : s.Inv) (hsound : s.Sound a)
    (h : s.step a = some s') : s.Evolves a s' := by
  have hstepped := stepped hinv h
  have hlater : ∀ id old new, s.db.lookup id = some old → s'.db.lookup id = some new →
      id ∈ s.newlyChanged s' a → old.row.updatedAt < i64Max := by
    intro id old new hold hnew hid
    cases a with
    | call c operation e =>
      obtain rfl := step_call h
      simp only [Store.newlyChanged, Store.changedBy, (s.conns_set _ _ _).1, Option.map_some,
        Option.getD_some] at hid
      exact startCall_advances hsound hid hold hnew
    | resume c e =>
      obtain ⟨conn, hconn, -, rfl⟩ := step_resume h
      simp only [Store.newlyChanged, Store.changedBy, (s.conns_set _ _ _).1, hconn,
        Option.map_some, Option.getD_some] at hid
      obtain ⟨pass, record, hstage, candidate, hcandidate, rfl⟩ := resume_changed hid
      exact (hsound conn hconn).1 pass record hstage candidate hcandidate old hold
  -- every task evolves, or stays the same
  have hcases : ∀ id old new, s.db.lookup id = some old → s'.db.lookup id = some new →
      Task.Evolves (a.requeues id) (a.replaces id) old new ∨ new = old := by
    intro id old new hold hnew
    by_cases hid : id ∈ s.newlyChanged s' a
    · exact .inl (hstepped.effect.evolves hid hold hnew)
    · rw [hstepped.effect.same hid, hold, Option.some.injEq] at hnew
      exact .inr hnew.symm
  constructor
  · exact fun id hid => hstepped.effect.same hid
  · intro id old new hold hnew hid
    exact (hstepped.effect.evolves hid hold hnew).updated (hlater id old new hold hnew hid)
  · intro id old new hold hnew
    rcases hcases id old new hold hnew with hevolves | rfl
    · exact hevolves.created
    · rfl
  · intro id old new hold hnew hno
    rcases hcases id old new hold hnew with hevolves | rfl
    · exact hevolves.progress hno
    · exact le_refl _
  · intro id old new hold hnew hterminal hne
    rcases hcases id old new hold hnew with hevolves | rfl
    · exact hevolves.terminal hterminal hne
    · exact absurd rfl hne
  · intro id old new hold hnew
    rcases hcases id old new hold hnew with hevolves | rfl
    · exact hevolves.generation
    · exact .inl rfl

/-- In a run whose steps are sound, every state is good, and every step that may
follow it changes the tasks as it should. -/
theorem store_run {as : List Action} {s : Store} (h : exec Store.step Store.start as = some s)
    (hsound : Along Store.step Store.Sound Store.start as) :
    s.Good ∧ ∀ a s', s.Sound a → s.step a = some s' → s.Evolves a s' := by
  have hrun : s.Inv ∧ s.Unspoiled := by
    refine exec_invariant_along (I := fun s => s.Inv ∧ s.Unspoiled) (fun s a s' hs hc hstep => ?_)
      ⟨store_inv_start, ?_⟩ hsound h
    · exact ⟨store_inv_step hs.1 hstep, unspoiled_step hs.1 hs.2 hc hstep⟩
    · intro c conn error hconn
      cases hconn
  exact ⟨hrun.1.good hrun.2, fun a s' hc hstep => evolves_step hrun.1 hc hstep⟩

/-! ## Runs of a small store -/

def sampleId : TaskId := ⟨"00112233445566778899aabbccddeeff", by decide⟩

def sampleTask : NewTask where
  input := ⟨1, "0123456789abcdef0123456789abcdef0123456789abcdef0123456789abcdef",
    "fedcba9876543210fedcba9876543210fedcba9876543210fedcba9876543210", 12,
    "ffeeddccbbaa99887766554433221100"⟩
  configuration := ⟨1, .markdown, false, false⟩

def at' (clock : Int) : Environment := ⟨clock, [sampleId], .missing, none⟩

def moveTo (next : TaskStatus) : TaskTransition := ⟨.pending, next, 0, [], []⟩

def createAt (clock : Int) : Action := .call 0 (.create sampleTask) (at' clock)

/-- What a run leaves of the task. -/
def rowOf (s : Store) : Option TaskRow := (s.db.lookup sampleId).map (·.row)

/-- A task that was created at the last time there is. -/
theorem latest_exec : (exec Store.step Store.start [createAt i64Max]).bind (fun s =>
    (s.step (.call 1 (.transition sampleId (moveTo .running)) (at' 0))).map fun s' =>
      ((rowOf s).map (·.updatedAt), (rowOf s').map (·.updatedAt),
        decide (sampleId ∈ s.newlyChanged s' (.call 1 (.transition sampleId (moveTo .running))
          (at' 0))))) = some (some i64Max, some i64Max, true) := by
  decide +kernel

/-- A call that ends a task, and another that deletes it before the first has read
it back. -/
def lostReply : List Action := [
  createAt 5,
  .call 1 (.transition sampleId (moveTo .failed)) (at' 6),
  .call 2 (.deleteTerminal sampleId false) (at' 7),
  .resume 1 (at' 8)]

theorem lostReply_exec : (exec Store.step Store.start lostReply).bind (fun s =>
    (s.conns 1).map fun conn => (conn.changed, match conn.stage with
      | .returned (.error error) => some error
      | _ => none)) = some ([sampleId], some (.corrupt "updated task disappeared")) := by
  decide +kernel

/-- An update that does not advance the time, and a call that fails after its
transaction. -/
theorem run_spoiled :
    (∃ as s a s', exec Store.step Store.start as = some s ∧ s.step a = some s' ∧
      ¬ s.Evolves a s') ∧
    ∃ as s, exec Store.step Store.start as = some s ∧ ¬ s.Good := by
  constructor
  · obtain ⟨s, hs, hstep⟩ := Option.bind_eq_some_iff.mp latest_exec
    obtain ⟨s', hs', htimes⟩ := Option.map_eq_some_iff.mp hstep
    obtain ⟨hold, hrest⟩ := Prod.mk.inj htimes
    obtain ⟨hnew, hmem⟩ := Prod.mk.inj hrest
    obtain ⟨oldRow, holdRow, holdTime⟩ := Option.map_eq_some_iff.mp hold
    obtain ⟨old, hold, rfl⟩ := Option.map_eq_some_iff.mp holdRow
    obtain ⟨newRow, hnewRow, hnewTime⟩ := Option.map_eq_some_iff.mp hnew
    obtain ⟨new, hnew, rfl⟩ := Option.map_eq_some_iff.mp hnewRow
    refine ⟨_, s, _, s', hs, hs', fun hevolves => ?_⟩
    have hlater := hevolves.updated sampleId old new hold hnew (of_decide_eq_true hmem)
    omega
  · obtain ⟨s, hs, hconn⟩ := Option.bind_eq_some_iff.mp lostReply_exec
    obtain ⟨conn, hconn, hfields⟩ := Option.map_eq_some_iff.mp hconn
    obtain ⟨hchanged, hstage⟩ := Prod.mk.inj hfields
    refine ⟨_, s, hs, fun hgood => ?_⟩
    cases hresult : conn.stage with
    | reading read => simp [hresult] at hstage
    | verify => simp [hresult] at hstage
    | passing pass stage => simp [hresult] at hstage
    | returned result =>
      cases result with
      | ok reply => simp [hresult] at hstage
      | error error =>
        rw [hgood.failed 1 conn error hconn hresult] at hchanged
        cases hchanged

theorem sample_exec : (exec Store.step Store.start [createAt 5]).map (fun s =>
    (rowOf s).map (·.updatedAt)) = some (some 5) ∧
    ((exec Store.step Store.start
      [createAt 5, .call 1 (.transition sampleId (moveTo .running)) (at' 6)]).bind fun s =>
        s.step (.call 2 (.setPinned sampleId true) (at' 3))).isSome = true := by
  decide +kernel

/-- A task that is created, started and pinned. -/
theorem store_run_sample : ∃ s s', exec Store.step Store.start
      [createAt 5, .call 1 (.transition sampleId (moveTo .running)) (at' 6)] = some s ∧
    s.Good ∧ s.step (.call 2 (.setPinned sampleId true) (at' 3)) = some s' ∧
    s.Evolves (.call 2 (.setPinned sampleId true) (at' 3)) s' := by
  obtain ⟨hcreated, hpinned⟩ := sample_exec
  obtain ⟨s', hs'⟩ := Option.isSome_iff_exists.mp hpinned
  obtain ⟨s, hs, hstep⟩ := Option.bind_eq_some_iff.mp hs'
  have hsound : Along Store.step Store.Sound Store.start
      [createAt 5, .call 1 (.transition sampleId (moveTo .running)) (at' 6)] := by
    refine ⟨trivial, fun t ht => ⟨fun task htask => ?_, fun _ _ => trivial⟩⟩
    have hexec : exec Store.step Store.start [createAt 5] = some t := by
      rw [exec_cons_of_step ht, exec_nil]
    rw [hexec, Option.map_some, Option.some.injEq, rowOf, htask] at hcreated
    rw [show task.row.updatedAt = 5 from Option.some.inj hcreated]
    decide
  obtain ⟨hgood, hevolves⟩ := store_run hs hsound
  exact ⟨s, s', hs, hgood, hstep, hevolves _ s' trivial hstep⟩

end IntoMarkdown.TaskStore
