import IntoMarkdown.TaskStore.Connections

/-! # The invariant of a task

What holds of every task in the tables, what an operation may do to a task, and
that each operation keeps to both. -/

namespace IntoMarkdown.TaskStore
open Lib Json Recovery

/-! ## Tasks -/

/-- What the callers of the store rely on. -/
structure Task.Good (task : Task) : Prop where
  succeeded : task.row.status = "succeeded" → task.row.progress = maxProgress
  completed : task.row.completedAt.isSome = isTerminal task.row.status
  created : task.row.createdAt ≤ task.row.updatedAt
  ordinals : task.diagnostics.entries.map (·.1) =
    (List.range task.diagnostics.entries.length).map Int.ofNat
  bounded : task.diagnostics.entries.length ≤ maxDiagnostics
  total : task.totalBytes ≤ i64Max

structure Task.Inv (task : Task) : Prop where
  check : task.row.check = true
  completed : task.row.completedAt.isSome = isTerminal task.row.status
  input : task.row.inputBytes ≤ i64Max
  config : ∃ c, decodeBounded task.row.configJson = .ok c ∧ c.schemaVersion = 1
  ordinals : task.diagnostics.entries.map (·.1) =
    (List.range task.diagnostics.entries.length).map Int.ofNat
  bounded : task.diagnostics.entries.length ≤ maxDiagnostics
  codes : ∀ e ∈ task.diagnostics, ∃ code : DiagnosticCode, e.2 = code.asDb
  artifacts : ∀ e ∈ task.artifacts, ∃ artifact, validateArtifact artifact = .ok () ∧
    artifact.storageKey = e.1 ∧ artifact.row = e.2
  total : task.totalBytes ≤ i64Max

/-- The constraints of a row, one by one. -/
structure TaskRow.Checked (row : TaskRow) : Prop where
  created : 0 ≤ row.createdAt
  updated : row.createdAt ≤ row.updatedAt
  fits : row.updatedAt ≤ i64Max
  completed : ∀ completed ∈ row.completedAt, row.createdAt ≤ completed
  status : isActive row.status = true ∨ isTerminal row.status = true
  progress : 0 ≤ row.progress ∧ row.progress ≤ maxProgress
  succeeded : row.status = "succeeded" → row.progress = maxProgress
  inputFingerprint : canonicalHex 64 row.inputFingerprint = true
  optionsFingerprint : canonicalHex 64 row.optionsFingerprint = true
  recoveryToken : canonicalHex 32 row.recoveryToken = true
  inputBytes : 0 ≤ row.inputBytes
  config : row.configJson.length ≤ maxJsonBytes
  generation : 0 ≤ row.artifactGeneration
  pinned : row.pinned = 0 ∨ row.pinned = 1

theorem TaskRow.check_iff {row : TaskRow} : row.check = true ↔ row.Checked := by
  simp only [check, Bool.and_eq_true, Bool.or_eq_true, decide_eq_true_eq, Option.all_eq_true]
  constructor
  · rintro ⟨⟨⟨⟨⟨⟨⟨⟨⟨⟨⟨⟨⟨⟨h1, h2⟩, h3⟩, h4⟩, h5⟩, h6⟩, h7⟩, h8⟩, h9⟩, h10⟩, h11⟩, h12⟩, h13⟩, h14⟩, h15⟩
    exact ⟨h1, h2, h3, h4, h5, ⟨h6, h7⟩, fun hs => h8.resolve_left (not_not.mpr hs), h9, h10, h11,
      h12, h13, h14, h15⟩
  · intro h
    refine ⟨⟨⟨⟨⟨⟨⟨⟨⟨⟨⟨⟨⟨⟨h.created, h.updated⟩, h.fits⟩, h.completed⟩, h.status⟩, h.progress.1⟩,
      h.progress.2⟩, ?_⟩, h.inputFingerprint⟩, h.optionsFingerprint⟩, h.recoveryToken⟩,
      h.inputBytes⟩, h.config⟩, h.generation⟩, h.pinned⟩
    by_cases hs : row.status = "succeeded"
    · exact .inr (h.succeeded hs)
    · exact .inl hs

theorem TaskRow.checked {row : TaskRow} (h : row.check = true) : row.Checked := check_iff.mp h

theorem Task.Inv.good {task : Task} (h : task.Inv) : task.Good where
  succeeded := (TaskRow.checked h.check).succeeded
  completed := h.completed
  created := (TaskRow.checked h.check).updated
  ordinals := h.ordinals
  bounded := h.bounded
  total := h.total

/-- The status of a task is that of one state. -/
theorem TaskRow.Checked.parse {row : TaskRow} (h : row.Checked) :
    ∃ status : TaskStatus, row.status = status.asDb := by
  have hmem : row.status ∈ ["pending", "running", "converted"] ++
      ["succeeded", "failed", "interrupted", "cancelled"] := by
    rcases h.status with h | h
    · exact List.mem_append_left _ (by simpa [isActive] using h)
    · exact List.mem_append_right _ (by simpa [isTerminal] using h)
  simp only [List.cons_append, List.nil_append, List.mem_cons, List.not_mem_nil, or_false] at hmem
  rcases hmem with h | h | h | h | h | h | h
  · exact ⟨.pending, h⟩
  · exact ⟨.running, h⟩
  · exact ⟨.converted, h⟩
  · exact ⟨.succeeded, h⟩
  · exact ⟨.failed, h⟩
  · exact ⟨.interrupted, h⟩
  · exact ⟨.cancelled, h⟩

theorem parse_ok {value : String} {status : TaskStatus} (h : TaskStatus.parse value = .ok status) :
    value = status.asDb := by
  unfold TaskStatus.parse at h
  split_ifs at h with h1 h2 h3 h4 h5 h6 h7 <;> cases h <;> assumption

/-! ## Changes of a task -/

/-- What an operation does to a task that is there before and after it. -/
structure Task.Evolves (requeued replaced : Prop) (old new : Task) : Prop where
  created : new.row.createdAt = old.row.createdAt
  token : new.row.recoveryToken = old.row.recoveryToken
  updated : old.row.updatedAt < i64Max → old.row.updatedAt < new.row.updatedAt
  progress : ¬ requeued → old.row.progress ≤ new.row.progress
  terminal : isTerminal old.row.status = true → new.row.status ≠ old.row.status →
    requeued ∧ old.row.status ≠ "succeeded"
  generation : new.row.artifactGeneration = old.row.artifactGeneration ∨
    replaced ∧ new.row.artifactGeneration = old.row.artifactGeneration + 1

theorem reject_ok {bad : Prop} [Decidable bad] {e : TaskStoreError} {u : Unit}
    (h : reject bad e = .ok u) : ¬ bad := by
  intro hbad
  rw [reject, if_pos hbad] at h
  cases h

theorem Task.update_ok {task task' : Task} {row : TaskRow} (h : task.update row = .ok task') :
    task' = { task with row := row } ∧ row.check = true := by
  unfold Task.update at h
  by_cases hcheck : row.check = true
  · rw [if_pos hcheck] at h
    exact ⟨(Except.ok.inj h).symm, hcheck⟩
  · rw [if_neg hcheck] at h
    cases h

theorem Task.update_of_checked (task : Task) {row : TaskRow} (h : row.Checked) :
    task.update row = .ok { task with row := row } := if_pos (TaskRow.check_iff.mpr h)

theorem findTask_ok {db : Database} {id : TaskId} {task : Task} (h : findTask db id = .ok task) :
    db.lookup id = some task := by
  unfold findTask at h
  cases hlookup : db.lookup id with
  | none =>
    rw [hlookup] at h
    cases h
  | some t =>
    rw [hlookup] at h
    exact congrArg some (Except.ok.inj h)

theorem utcNowMs_ok {clock now : Int} (h : utcNowMs clock = .ok now) :
    now = clock ∧ 0 ≤ now ∧ now ≤ i64Max := by
  unfold utcNowMs at h
  split_ifs at h with h1 h2
  cases h
  omega

theorem lt_saturatingSucc {n : Int} (h : n < i64Max) : n < saturatingSucc n := by
  rw [saturatingSucc, if_pos h]
  omega

theorem checkedTotal_ok {artifacts : List ArtifactReference} {total : Nat}
    (h : checkedTotal artifacts = .ok total) :
    total = (artifacts.map fun a => a.byteLen.toNat).sum := by
  have hfold : ∀ (l : List ArtifactReference) (start total : Nat),
      l.foldlM (fun total artifact =>
        if total + artifact.byteLen.toNat < u64Modulus then
          Except.ok (total + artifact.byteLen.toNat)
        else .error (TaskStoreError.limit "artifact byte length total overflowed")) start =
          .ok total →
      total = start + (l.map fun a => a.byteLen.toNat).sum := by
    intro l
    induction l with
    | nil =>
      intro start total h
      cases h
      rfl
    | cons a l ih =>
      intro start total h
      rw [List.foldlM_cons] at h
      obtain ⟨next, hnext, h⟩ := ok_bind h
      by_cases hfits : start + a.byteLen.toNat < u64Modulus
      · rw [if_pos hfits] at hnext
        cases hnext
        rw [ih _ _ h, List.map_cons, List.sum_cons]
        omega
      · rw [if_neg hfits] at hnext
        cases hnext
  have hsum := hfold artifacts 0 total h
  omega

/-! ## Rows of a task -/

theorem Task.Inv.update {task task' : Task} {row : TaskRow} (h : task.Inv)
    (hupdate : task.update row = .ok task')
    (hcompleted : row.completedAt.isSome = isTerminal row.status)
    (hinput : row.inputBytes = task.row.inputBytes)
    (hconfig : row.configJson = task.row.configJson) : task'.Inv ∧ task'.row = row := by
  obtain ⟨rfl, hcheck⟩ := Task.update_ok hupdate
  exact ⟨⟨hcheck, hcompleted, hinput ▸ h.input, hconfig ▸ h.config, h.ordinals, h.bounded, h.codes,
    h.artifacts, h.total⟩, rfl⟩

/-- A task that leaves an active state is completed exactly if it ends. -/
theorem Task.Inv.completed_next {task : Task} (h : task.Inv)
    (hactive : isTerminal task.row.status = false) (next : TaskStatus) (updated : Int) :
    (task.row.completed next updated).isSome = isTerminal next.asDb := by
  unfold TaskRow.completed
  cases hnext : isTerminal next.asDb with
  | true => rfl
  | false => rw [if_neg (by simp), h.completed, hactive]

theorem Task.Inv.insertDiagnostic {task task' : Task} {code : DiagnosticCode} (h : task.Inv)
    (hinsert : task.insertDiagnostic code = .ok task') :
    task'.Inv ∧ task'.row = task.row ∧ task'.artifacts = task.artifacts := by
  unfold Task.insertDiagnostic at hinsert
  dsimp only at hinsert
  by_cases hfits : (task.diagnostics.entries.length : Int) ≤ 63 ∧
      task.diagnostics.lookup task.diagnostics.entries.length = none
  swap
  · rw [if_neg hfits] at hinsert
    cases hinsert
  rw [if_pos hfits] at hinsert
  cases hinsert
  have hbelow : ∀ e ∈ task.diagnostics, e.1 < (task.diagnostics.entries.length : Int) := by
    intro e he
    have hmem := List.mem_map_of_mem (f := (·.1)) he
    rw [h.ordinals, List.mem_map] at hmem
    obtain ⟨n, hn, heq⟩ := hmem
    rw [← heq]
    exact Int.ofNat_lt.mpr (List.mem_range.mp hn)
  have hentries := OrderedMap.entries_insert_last (v := code.asDb) hbelow
  refine ⟨⟨h.check, h.completed, h.input, h.config, ?_, ?_, ?_, h.artifacts, h.total⟩, rfl, rfl⟩
  · -- the new ordinal is the number of the old ones
    simp only [hentries, List.map_append, h.ordinals, List.length_append, List.length_singleton,
      List.range_succ, List.map_singleton]
    rfl
  · simp only [hentries, List.length_append, List.length_singleton, maxDiagnostics]
    omega
  · intro e he
    rcases OrderedMap.mem_insert.mp he with rfl | ⟨he, -⟩
    · exact ⟨code, rfl⟩
    · exact h.codes e he

theorem Task.Inv.insertDiagnostics {codes : List DiagnosticCode} {task task' : Task}
    (h : task.Inv) (hinsert : codes.foldlM Task.insertDiagnostic task = .ok task') :
    task'.Inv ∧ task'.row = task.row ∧ task'.artifacts = task.artifacts := by
  induction codes generalizing task with
  | nil =>
    cases hinsert
    exact ⟨h, rfl, rfl⟩
  | cons code codes ih =>
    rw [List.foldlM_cons] at hinsert
    obtain ⟨next, hnext, hinsert⟩ := ok_bind hinsert
    obtain ⟨hinv, hrow, hartifacts⟩ := h.insertDiagnostic hnext
    obtain ⟨hinv', hrow', hartifacts'⟩ := ih hinv hinsert
    exact ⟨hinv', hrow'.trans hrow, hartifacts'.trans hartifacts⟩

theorem Task.Inv.insertArtifact {task task' : Task} {artifact : ArtifactReference} (h : task.Inv)
    (hvalid : validateArtifact artifact = .ok ())
    (htotal : task.totalBytes + artifact.byteLen.toNat ≤ i64Max)
    (hinsert : task.insertArtifact artifact = .ok task') :
    task'.Inv ∧ task'.row = task.row ∧
      task'.totalBytes = task.totalBytes + artifact.byteLen.toNat := by
  unfold Task.insertArtifact at hinsert
  split_ifs at hinsert with hterminal hfits
  obtain ⟨-, -, hnew⟩ := hfits
  cases hinsert
  have hsum : Task.totalBytes { task with
      artifacts := task.artifacts.insert artifact.storageKey artifact.row } =
        task.totalBytes + artifact.byteLen.toNat := by
    unfold Task.totalBytes
    rw [((OrderedMap.perm_insert hnew).map _).sum_eq, List.map_cons, List.sum_cons, Int.add_comm]
    rfl
  refine ⟨⟨h.check, h.completed, h.input, h.config, h.ordinals, h.bounded, h.codes, ?_, ?_⟩,
    rfl, hsum⟩
  · intro e he
    rcases OrderedMap.mem_insert.mp he with rfl | ⟨he, -⟩
    · exact ⟨artifact, hvalid, rfl, rfl⟩
    · exact h.artifacts e he
  · rw [hsum]
    exact htotal

/-- Artifacts that fit beside those that are there. -/
theorem Task.Inv.insertArtifacts {f : Task → ArtifactReference → Except TaskStoreError Task}
    (hf : ∀ task artifact task', f task artifact = .ok task' →
      task.insertArtifact artifact = .ok task')
    {artifacts : List ArtifactReference} {task task' : Task} (h : task.Inv)
    (hvalid : ∀ a ∈ artifacts, validateArtifact a = .ok ())
    (htotal : task.totalBytes + (artifacts.map fun a => a.byteLen.toNat).sum ≤ i64Max)
    (hinsert : artifacts.foldlM f task = .ok task') : task'.Inv ∧ task'.row = task.row := by
  induction artifacts generalizing task with
  | nil =>
    cases hinsert
    exact ⟨h, rfl⟩
  | cons a rest ih =>
    rw [List.foldlM_cons] at hinsert
    obtain ⟨next, hnext, hinsert⟩ := ok_bind hinsert
    rw [List.map_cons, List.sum_cons, Nat.cast_add] at htotal
    obtain ⟨hinv, hrow, hsum⟩ := h.insertArtifact (hvalid a (List.mem_cons_self ..)) (by omega)
      (hf _ _ _ hnext)
    obtain ⟨hinv', hrow'⟩ := ih hinv (fun b hb => hvalid b (List.mem_cons_of_mem _ hb))
      (by rw [hsum]; omega) hinsert
    exact ⟨hinv', hrow'.trans hrow⟩

theorem forM_ok {artifacts : List ArtifactReference} {u : PUnit}
    (h : artifacts.forM validateArtifact = .ok u) :
    ∀ a ∈ artifacts, validateArtifact a = .ok () := by
  induction artifacts with
  | nil => exact List.forall_mem_nil _
  | cons a rest ih =>
    rw [List.forM_eq_forM, List.forM_cons] at h
    obtain ⟨v, hv, hrest⟩ := ok_bind h
    exact List.forall_mem_cons.mpr ⟨hv, ih hrest⟩

/-! ## Operations -/

/-- An operation that changes one task, and no other. -/
def Updates (requeued replaced : Prop) (db : Database) (id : TaskId) (db' : Database) : Prop :=
  ∃ old new, db.lookup id = some old ∧ db' = db.insert id new ∧ new.Inv ∧
    Task.Evolves requeued replaced old new

/-- The tasks of a database, and their tokens. -/
structure Database.Inv (db : Database) : Prop where
  task : ∀ id task, db.lookup id = some task → task.Inv
  token : ∀ id id' task task', db.lookup id = some task → db.lookup id' = some task' →
    task.row.recoveryToken = task'.row.recoveryToken → id = id'

theorem Task.Inv.active {task : Task} {status : TaskStatus}
    (hstatus : task.row.status = status.asDb) (hactive : isActive status.asDb = true) :
    isTerminal task.row.status = false := by
  rw [hstatus]
  cases status <;> first | rfl | exact absurd hactive (by decide)

/-- A task that leaves an active state. -/
theorem Task.Evolves.of_active {old new : Task} {row : TaskRow} (hrow : new.row = row)
    (hactive : isTerminal old.row.status = false) (hcreated : row.createdAt = old.row.createdAt)
    (htoken : row.recoveryToken = old.row.recoveryToken)
    (hupdated : old.row.updatedAt < i64Max → old.row.updatedAt < row.updatedAt)
    (hprogress : old.row.progress ≤ row.progress)
    (hgeneration : row.artifactGeneration = old.row.artifactGeneration) :
    Task.Evolves False False old new := by
  subst hrow
  refine ⟨hcreated, htoken, hupdated, fun _ => hprogress, fun hterminal => ?_, .inl hgeneration⟩
  rw [hactive] at hterminal
  cases hterminal

theorem mayTransition_active {a b : TaskStatus} (h : a.mayTransition b = true) :
    isActive a.asDb = true := by
  cases a <;> first | rfl | (cases b <;> cases h)

theorem transition_updates {db db' : Database} {id : TaskId} {t : TaskTransition} {clock : Int}
    (hinv : db.Inv) (h : transition db id t clock = .ok db') :
    Updates False False db id db' := by
  unfold transition at h
  obtain ⟨_, hvalid, h⟩ := ok_bind h
  obtain ⟨now, -, h⟩ := ok_bind h
  obtain ⟨old, hold, h⟩ := ok_bind h
  obtain ⟨current, hcurrent, h⟩ := ok_bind h
  obtain ⟨_, hallowed, h⟩ := ok_bind h
  obtain ⟨_, hprogress, h⟩ := ok_bind h
  obtain ⟨_, -, h⟩ := ok_bind h
  obtain ⟨_, hbudget, h⟩ := ok_bind h
  obtain ⟨updated, hupdate, h⟩ := ok_bind h
  obtain ⟨diagnosed, hdiagnosed, h⟩ := ok_bind h
  obtain ⟨new, hnew, h⟩ := ok_bind h
  cases h
  have hlookup := findTask_ok hold
  have hold := hinv.task id old hlookup
  -- the requested state can be reached from the current one
  have hstatus := parse_ok hcurrent
  have hallowed := reject_ok hallowed
  push Not at hallowed
  have hactive := Task.Inv.active hstatus (mayTransition_active hallowed.2)
  obtain ⟨hinv1, hrow1⟩ := hold.update hupdate (hold.completed_next hactive t.next _) rfl rfl
  obtain ⟨hinv2, hrow2, hartifacts⟩ := hinv1.insertDiagnostics hdiagnosed
  -- the artifacts fit beside those that are there
  obtain ⟨_, hvalid⟩ : ∃ u, t.artifacts.forM validateArtifact = .ok u := by
    unfold validateTransition at hvalid
    obtain ⟨_, -, hvalid⟩ := ok_bind hvalid
    obtain ⟨_, -, hvalid⟩ := ok_bind hvalid
    obtain ⟨_, -, hvalid⟩ := ok_bind hvalid
    obtain ⟨_, -, hvalid⟩ := ok_bind hvalid
    exact ⟨_, hvalid⟩
  have htotal : diagnosed.totalBytes + (t.artifacts.map fun a => a.byteLen.toNat).sum ≤ i64Max := by
    have hsame : diagnosed.totalBytes = old.totalBytes := by
      unfold Task.totalBytes
      rw [hartifacts, (Task.update_ok hupdate).1]
    unfold validateArtifactBudget at hbudget
    obtain ⟨_, -, hbudget⟩ := ok_bind hbudget
    obtain ⟨_, hnegative, hbudget⟩ := ok_bind hbudget
    obtain ⟨added, hadded, hbudget⟩ := ok_bind hbudget
    have hnegative := reject_ok hnegative
    have hbudget := reject_ok hbudget
    rw [checkedTotal_ok hadded] at hbudget
    simp only [maxArtifactBytes, i64Max] at hbudget ⊢
    omega
  obtain ⟨hinv3, hrow3⟩ := Task.Inv.insertArtifacts (fun task artifact task' hinsert => by
    obtain ⟨_, -, hinsert⟩ := ok_bind hinsert
    exact hinsert) hinv2 (forM_ok hvalid) htotal hnew
  refine ⟨old, new, hlookup, rfl, hinv3, Task.Evolves.of_active
    (hrow3.trans (hrow2.trans hrow1)) hactive rfl rfl (fun hlt => ?_) ?_ rfl⟩
  · exact lt_max_of_lt_right (lt_saturatingSucc hlt)
  · have hprogress := reject_ok hprogress
    simpa using hprogress

theorem setPinned_updates {db db' : Database} {id : TaskId} {pinned : Bool} {clock : Int}
    (hinv : db.Inv) (h : setPinned db id pinned clock = .ok db') :
    Updates False False db id db' := by
  unfold setPinned at h
  obtain ⟨now, -, h⟩ := ok_bind h
  obtain ⟨old, hold, h⟩ := ok_bind h
  obtain ⟨new, hupdate, h⟩ := ok_bind h
  cases h
  have hlookup := findTask_ok hold
  have hold := hinv.task id old hlookup
  obtain ⟨hinv', hrow⟩ := hold.update hupdate hold.completed rfl rfl
  refine ⟨old, new, hlookup, rfl, hinv', ?_⟩
  constructor <;> rw [hrow]
  · exact fun _ => lt_max_of_lt_right (by omega)
  · exact fun _ => le_refl _
  · exact fun _ hne => absurd rfl hne
  · exact .inl rfl

theorem requeueTerminal_updates {db db' : Database} {id : TaskId} {clock : Int} (hinv : db.Inv)
    (h : requeueTerminal db id clock = .ok db') : Updates True False db id db' := by
  unfold requeueTerminal at h
  obtain ⟨now, -, h⟩ := ok_bind h
  obtain ⟨old, hold, h⟩ := ok_bind h
  obtain ⟨status, hstatus, h⟩ := ok_bind h
  obtain ⟨_, hallowed, h⟩ := ok_bind h
  obtain ⟨new, hupdate, h⟩ := ok_bind h
  cases h
  have hlookup := findTask_ok hold
  have hold := hinv.task id old hlookup
  have hempty : Task.Inv { old with diagnostics := .empty } :=
    ⟨hold.check, hold.completed, hold.input, hold.config, rfl, Nat.zero_le _, nofun,
      hold.artifacts, hold.total⟩
  obtain ⟨hinv', hrow⟩ := hempty.update hupdate rfl rfl rfl
  have hallowed := reject_ok hallowed
  push Not at hallowed
  refine ⟨old, new, hlookup, rfl, hinv', ?_⟩
  constructor <;> rw [hrow]
  · exact fun _ => lt_max_of_lt_right (by omega)
  · exact fun hno => absurd trivial hno
  · refine fun _ _ => ⟨trivial, ?_⟩
    rw [parse_ok hstatus]
    rcases hallowed.1 with rfl | rfl | rfl <;> decide
  · exact .inl rfl

theorem replaceSucceededArtifacts_updates {db db' : Database} {id : TaskId}
    {expectedGeneration : UInt64} {artifacts : List ArtifactReference} {clock : Int}
    (hinv : db.Inv)
    (h : replaceSucceededArtifacts db id expectedGeneration artifacts clock = .ok db') :
    Updates False True db id db' := by
  unfold replaceSucceededArtifacts at h
  obtain ⟨_, -, h⟩ := ok_bind h
  obtain ⟨_, -, h⟩ := ok_bind h
  obtain ⟨_, hvalid, h⟩ := ok_bind h
  obtain ⟨total, htotal, h⟩ := ok_bind h
  obtain ⟨_, hfits, h⟩ := ok_bind h
  obtain ⟨now, -, h⟩ := ok_bind h
  obtain ⟨old, hold, h⟩ := ok_bind h
  obtain ⟨status, hstatus, h⟩ := ok_bind h
  obtain ⟨_, -, h⟩ := ok_bind h
  obtain ⟨_, -, h⟩ := ok_bind h
  obtain ⟨filled, hfilled, h⟩ := ok_bind h
  obtain ⟨new, hupdate, h⟩ := ok_bind h
  cases h
  have hlookup := findTask_ok hold
  have hold := hinv.task id old hlookup
  have hempty : Task.Inv { old with artifacts := .empty } :=
    ⟨hold.check, hold.completed, hold.input, hold.config, hold.ordinals, hold.bounded, hold.codes,
      nofun, show (0 : Int) ≤ i64Max by decide⟩
  have hsum : Task.totalBytes { old with artifacts := .empty } +
      (artifacts.map fun a => a.byteLen.toNat).sum ≤ i64Max := by
    have hfits := reject_ok hfits
    rw [checkedTotal_ok htotal] at hfits
    have hzero : Task.totalBytes { old with artifacts := .empty } = 0 := rfl
    rw [hzero]
    simp only [maxArtifactBytes, i64Max] at hfits ⊢
    omega
  obtain ⟨hinv1, hrow1⟩ := Task.Inv.insertArtifacts (fun _ _ _ hinsert => hinsert) hempty
    (forM_ok hvalid) hsum hfilled
  have hrow1 : filled.row = old.row := hrow1
  rw [hrow1] at hupdate
  obtain ⟨hinv2, hrow2⟩ := hinv1.update hupdate hold.completed (by rw [hrow1]) (by rw [hrow1])
  refine ⟨old, new, hlookup, rfl, hinv2, ?_⟩
  constructor <;> rw [hrow2]
  · exact fun hlt => lt_max_of_lt_right (lt_saturatingSucc hlt)
  · exact fun _ => le_refl _
  · exact fun _ hne => absurd rfl hne
  · exact .inr ⟨trivial, rfl⟩

theorem reconcileTransition_updates {db db' : Database} {id : TaskId} {expected next : TaskStatus}
    {minimumProgress : UInt32} {diagnostic : Option DiagnosticCode} {clock : Int} (hinv : db.Inv)
    (h : reconcileTransition db id expected next minimumProgress diagnostic clock =
      .ok (some db')) : Updates False False db id db' := by
  unfold reconcileTransition at h
  by_cases hactive : isActive expected.asDb = true
  swap
  · rw [if_pos hactive] at h
    cases h
  rw [if_neg (not_not.mpr hactive)] at h
  cases hlookup : db.lookup id with
  | none =>
    rw [hlookup] at h
    cases h
  | some old =>
    rw [hlookup] at h
    obtain ⟨current, hcurrent, h⟩ := ok_bind h
    by_cases hsame : current ≠ expected
    · rw [if_pos hsame] at h
      cases h
    rw [if_neg hsame] at h
    rw [not_not.mp hsame] at hcurrent
    obtain ⟨now, -, h⟩ := ok_bind h
    obtain ⟨updated, hupdate, h⟩ := ok_bind h
    obtain ⟨new, hnew, h⟩ := ok_bind h
    cases h
    have hold := hinv.task id old hlookup
    have hterminal := Task.Inv.active (parse_ok hcurrent) hactive
    obtain ⟨hinv1, hrow1⟩ := hold.update hupdate (hold.completed_next hterminal next _) rfl rfl
    obtain ⟨hinv2, hrow2, -⟩ := hinv1.insertDiagnostics hnew
    refine ⟨old, new, hlookup, rfl, hinv2, Task.Evolves.of_active (hrow2.trans hrow1) hterminal
      rfl rfl (fun hlt => ?_) (le_max_left _ _) rfl⟩
    exact lt_max_of_lt_right (lt_saturatingSucc hlt)

/-- A task that is created is new, and so is its token. -/
theorem create_creates {db db' : Database} {task : NewTask} {clock : Int}
    {candidates : List TaskId} {id : TaskId} (h : create db task clock candidates = .ok (db', id)) :
    ∃ new : Task, db.lookup id = none ∧ db' = db.insert id new ∧ new.Inv ∧
      ∀ id' old, db.lookup id' = some old → old.row.recoveryToken ≠ new.row.recoveryToken := by
  unfold create at h
  obtain ⟨_, hinput, h⟩ := ok_bind h
  obtain ⟨_, hconfiguration, h⟩ := ok_bind h
  obtain ⟨now, hnow, h⟩ := ok_bind h
  obtain ⟨configJson, hjson, h⟩ := ok_bind h
  obtain ⟨_, -, h⟩ := ok_bind h
  obtain ⟨_, htoken, h⟩ := ok_bind h
  dsimp only at h
  cases hfind : (candidates.take 8).find? fun id =>
      (task.row now configJson).check && (db.lookup id).isNone with
  | none =>
    rw [hfind] at h
    cases h
  | some found =>
    rw [hfind] at h
    cases h
    have hpicked := List.find?_some hfind
    rw [Bool.and_eq_true, Option.isNone_iff_eq_none] at hpicked
    obtain ⟨hcheck, hnone⟩ := hpicked
    refine ⟨_, hnone, rfl, ⟨hcheck, rfl, ?_, ?_, rfl, Nat.zero_le _, nofun, nofun,
      show (0 : Int) ≤ i64Max by decide⟩, ?_⟩
    · unfold validateInput at hinput
      obtain ⟨_, -, hinput⟩ := ok_bind hinput
      obtain ⟨_, -, hinput⟩ := ok_bind hinput
      obtain ⟨_, -, hinput⟩ := ok_bind hinput
      obtain ⟨_, hlength, -⟩ := ok_bind hinput
      exact Int.not_lt.mp (reject_ok hlength)
    · refine ⟨task.configuration, (decodeBounded_boundedJson hjson).2, ?_⟩
      have hversion := reject_ok hconfiguration
      simpa using hversion
    · intro id' old hold heq
      have habsent := reject_ok htoken
      refine habsent (List.any_eq_true.mpr ⟨(id', old), OrderedMap.lookup_eq_some.mp hold, ?_⟩)
      exact decide_eq_true heq

theorem deleteTerminal_erases {db db' : Database} {id : TaskId} {allowPinned : Bool}
    (h : deleteTerminal db id allowPinned = .ok db') : db' = db.erase id := by
  unfold deleteTerminal at h
  obtain ⟨_, -, h⟩ := ok_bind h
  obtain ⟨_, -, h⟩ := ok_bind h
  obtain ⟨_, -, h⟩ := ok_bind h
  obtain ⟨_, -, h⟩ := ok_bind h
  exact (Except.ok.inj h).symm

theorem Updates.inv {requeued replaced : Prop} {db db' : Database} {id : TaskId} (hinv : db.Inv)
    (h : Updates requeued replaced db id db') : db'.Inv := by
  obtain ⟨old, new, hold, rfl, hnew, hevolves⟩ := h
  -- the task has the token that it had
  have hback : ∀ i task, (db.insert id new).lookup i = some task → ∃ task',
      db.lookup i = some task' ∧ task'.row.recoveryToken = task.row.recoveryToken := by
    intro i task htask
    rw [OrderedMap.lookup_insert] at htask
    by_cases hi : i = id
    · rw [if_pos hi, Option.some.injEq] at htask
      subst htask
      exact ⟨old, hi ▸ hold, hevolves.token.symm⟩
    · rw [if_neg hi] at htask
      exact ⟨task, htask, rfl⟩
  refine ⟨fun i task htask => ?_, fun i i' task task' htask htask' heq => ?_⟩
  · rw [OrderedMap.lookup_insert] at htask
    by_cases hi : i = id
    · rw [if_pos hi, Option.some.injEq] at htask
      exact htask ▸ hnew
    · rw [if_neg hi] at htask
      exact hinv.task i task htask
  · obtain ⟨t, ht, htoken⟩ := hback i task htask
    obtain ⟨t', ht', htoken'⟩ := hback i' task' htask'
    exact hinv.token i i' t t' ht ht' (by rw [htoken, heq, htoken'])

theorem create_inv {db db' : Database} {task : NewTask} {clock : Int} {candidates : List TaskId}
    {id : TaskId} (hinv : db.Inv) (h : create db task clock candidates = .ok (db', id)) :
    db'.Inv := by
  obtain ⟨new, -, rfl, hnew, htoken⟩ := create_creates h
  refine ⟨fun i t ht => ?_, fun i i' t t' ht ht' heq => ?_⟩
  · rw [OrderedMap.lookup_insert] at ht
    by_cases hi : i = id
    · rw [if_pos hi, Option.some.injEq] at ht
      exact ht ▸ hnew
    · rw [if_neg hi] at ht
      exact hinv.task i t ht
  · rw [OrderedMap.lookup_insert] at ht ht'
    by_cases hi : i = id <;> by_cases hi' : i' = id
    · rw [hi, hi']
    · rw [if_pos hi, Option.some.injEq] at ht
      rw [if_neg hi'] at ht'
      exact absurd (ht ▸ heq.symm) (htoken i' t' ht')
    · rw [if_neg hi] at ht
      rw [if_pos hi', Option.some.injEq] at ht'
      exact absurd (ht' ▸ heq) (htoken i t ht)
    · rw [if_neg hi] at ht
      rw [if_neg hi'] at ht'
      exact hinv.token i i' t t' ht ht' heq

theorem deleteTerminal_inv {db db' : Database} {id : TaskId} {allowPinned : Bool}
    (hinv : db.Inv) (h : deleteTerminal db id allowPinned = .ok db') : db'.Inv := by
  obtain rfl := deleteTerminal_erases h
  have hback : ∀ i task, (db.erase id).lookup i = some task → db.lookup i = some task := by
    intro i task htask
    rw [OrderedMap.lookup_erase] at htask
    by_cases hi : i = id
    · rw [if_pos hi] at htask
      cases htask
    · rwa [if_neg hi] at htask
  exact ⟨fun i task htask => hinv.task i task (hback i task htask),
    fun i i' task task' htask htask' =>
      hinv.token i i' task task' (hback i task htask) (hback i' task' htask')⟩

end IntoMarkdown.TaskStore
