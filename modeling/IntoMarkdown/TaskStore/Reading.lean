import IntoMarkdown.TaskStore.Invariant

/-! # Reading a task

The queries of `get_record` and of `reconcile` find nothing wrong with a task,
even where other connections change it between them. -/

namespace IntoMarkdown.TaskStore
open Lib Json Recovery

theorem reject_of_not {bad : Prop} [Decidable bad] (e : TaskStoreError) (h : ¬ bad) :
    reject bad e = .ok () := if_neg h

theorem mapM_ok {α β : Type} {f : α → Except TaskStoreError β} (items : List α)
    (h : ∀ a ∈ items, ∃ b, f a = .ok b) :
    ∃ values, items.mapM f = .ok values ∧ values.length = items.length := by
  induction items with
  | nil => exact ⟨[], rfl, rfl⟩
  | cons a items ih =>
    obtain ⟨b, hb⟩ := h a (List.mem_cons_self ..)
    obtain ⟨values, hvalues, hlength⟩ := ih fun c hc => h c (List.mem_cons_of_mem _ hc)
    refine ⟨b :: values, ?_, by rw [List.length_cons, hlength, List.length_cons]⟩
    rw [List.mapM_cons, hb]
    show (items.mapM f).bind _ = _
    rw [hvalues]
    rfl

/-! ## Columns -/

theorem validateInput_row {row : TaskRow} (h : row.Checked) (hinput : row.inputBytes ≤ i64Max) :
    validateInput row.input = .ok () := by
  have hlength : (UInt64.ofNat row.inputBytes.toNat).toNat = row.inputBytes.toNat := by
    rw [UInt64.toNat_ofNat', Nat.mod_eq_of_lt]
    simp only [i64Max] at hinput
    omega
  have hnonneg := h.inputBytes
  unfold validateInput requireHex TaskRow.input
  rw [reject_of_not _ (by simp), reject_of_not _ (not_not.mpr h.inputFingerprint),
    reject_of_not _ (not_not.mpr h.optionsFingerprint), reject_of_not _ (by rw [hlength]; omega),
    reject_of_not _ (not_not.mpr h.recoveryToken)]
  rfl

theorem readBase_ok {task : Task} (h : task.Inv) (id : TaskId) :
    ∃ base, readBase id task.row = .ok base ∧ base.row = task.row := by
  have hchecked := TaskRow.checked h.check
  obtain ⟨status, hstatus⟩ := hchecked.parse
  obtain ⟨c, hc, hversion⟩ := h.config
  have hnonneg := hchecked.created
  have hupdated := hchecked.updated
  have hsucceeded : ¬ (status = .succeeded ∧ task.row.progress ≠ maxProgress) := by
    rintro ⟨rfl, hne⟩
    exact hne (hchecked.succeeded hstatus)
  refine ⟨⟨id, task.row, status, task.row.input, c⟩, ?_, rfl⟩
  unfold readBase
  rw [reject_of_not _ (by have := hchecked.progress; omega), hstatus, TaskStatus.parse_asDb,
    reject_of_not _ (by have := hchecked.inputBytes; omega), hc]
  show (reject _ _).bind _ = _
  rw [reject_of_not _ hsucceeded]
  show (validateInput _).bind _ = _
  rw [validateInput_row hchecked h.input]
  show (validateConfiguration c).bind _ = _
  rw [validateConfiguration, reject_of_not _ (not_not.mpr hversion)]
  rfl

theorem BaseRecord.assemble_ok {base : BaseRecord} (h : base.row.Checked)
    (diagnostics : List DiagnosticCode) (artifacts : List ArtifactReference) :
    ∃ record, base.assemble diagnostics artifacts = .ok record ∧
      record.progressMillionths.toNat ≤ maxProgress := by
  have hprogress := h.progress
  unfold BaseRecord.assemble
  rw [reject_of_not _ (by have := h.generation; omega),
    reject_of_not _ (by have := h.pinned; omega)]
  refine ⟨_, rfl, ?_⟩
  simp only [maxProgress] at hprogress ⊢
  rw [UInt32.toNat_ofNat']
  omega

/-! ## Other rows -/

theorem loadDiagnostics_ok {db : Database} (h : db.Inv) (id : TaskId) :
    ∃ codes, loadDiagnostics db id = .ok codes := by
  unfold loadDiagnostics
  cases hlookup : db.lookup id with
  | none => exact ⟨[], rfl⟩
  | some task =>
    have htask := h.task id task hlookup
    have hcodes : ∀ e ∈ task.diagnostics.entries.take 65,
        ∃ code, DiagnosticCode.parse e.2 = .ok code := by
      intro e he
      obtain ⟨code, hcode⟩ := htask.codes e (List.mem_of_mem_take he)
      exact ⟨code, by rw [hcode, DiagnosticCode.parse_asDb]⟩
    obtain ⟨values, hvalues, hlength⟩ := mapM_ok (task.diagnostics.entries.take 65) hcodes
    have hbounded := htask.bounded
    rw [List.length_take] at hlength
    refine ⟨values, ?_⟩
    dsimp only
    rw [hvalues]
    show (reject _ _).bind _ = _
    rw [reject_of_not _ (by omega)]
    rfl

/-- Assets keep their metadata. -/
theorem validateLoadedArtifact_ok {artifact : ArtifactReference}
    (h : validateArtifact artifact = .ok ()) : validateLoadedArtifact artifact = .ok () := by
  unfold validateLoadedArtifact
  by_cases hlegacy : artifact.kind = .asset ∧ artifact.metadata.all (·.isNone) = true
  · -- an asset without metadata is refused when it is written
    unfold validateArtifact at h
    obtain ⟨_, -, h⟩ := ok_bind h
    obtain ⟨_, -, h⟩ := ok_bind h
    obtain ⟨_, -, h⟩ := ok_bind h
    rw [if_pos hlegacy.1] at h
    obtain ⟨_, hcomplete, -⟩ := ok_bind h
    have hcomplete := reject_ok hcomplete
    push Not at hcomplete
    have hall := hlegacy.2
    simp only [ArtifactReference.metadata, List.all_cons, Bool.and_eq_true] at hall
    exact absurd (by simp [ArtifactReference.metadata, hall.1]) hcomplete.1
  · rw [if_neg hlegacy]
    exact h

theorem loadArtifact_ok {artifact : ArtifactReference} (h : validateArtifact artifact = .ok ()) :
    loadArtifact artifact.storageKey artifact.row = .ok artifact := by
  have hkind : ArtifactKind.parse artifact.row.kind = .ok artifact.kind :=
    ArtifactKind.parse_asDb artifact.kind
  have hlength : UInt64.ofNat artifact.row.byteLen.toNat = artifact.byteLen := by
    simp [ArtifactReference.row]
  have hnonneg : ¬ artifact.row.byteLen < 0 := by simp [ArtifactReference.row]
  unfold loadArtifact
  rw [reject_of_not _ hnonneg, hkind, hlength]
  show (validateLoadedArtifact artifact).bind _ = _
  rw [validateLoadedArtifact_ok h]
  rfl

theorem loadArtifacts_ok {db : Database} (h : db.Inv) (id : TaskId) :
    ∃ artifacts, loadArtifacts db id = .ok artifacts := by
  unfold loadArtifacts
  cases hlookup : db.lookup id with
  | none => exact ⟨[], rfl⟩
  | some task =>
    have htask := h.task id task hlookup
    -- the induction is on the rows that are left; those before them are in the total
    have hfold : ∀ (rows : List (String × ArtifactRow)) (loaded : List ArtifactReference × Nat),
        (∀ e ∈ rows, ∃ artifact, validateArtifact artifact = .ok () ∧
          artifact.storageKey = e.1 ∧ artifact.row = e.2) →
        (loaded.2 : Int) + (rows.map fun e => e.2.byteLen).sum ≤ i64Max →
        ∃ result, rows.foldlM (fun (loaded : List ArtifactReference × Nat) e => do
          let artifact ← loadArtifact e.1 e.2
          let total := loaded.2 + artifact.byteLen.toNat
          reject (u64Modulus ≤ total) (.corrupt "artifact byte total overflowed")
          reject (maxArtifactBytes < total) (.corrupt "artifact size exceeds storage range")
          return (loaded.1 ++ [artifact], total)) loaded = .ok result := by
      intro rows
      induction rows with
      | nil => exact fun loaded _ _ => ⟨loaded, rfl⟩
      | cons e rows ih =>
        intro loaded hrows htotal
        obtain ⟨artifact, hvalid, hkey, hrow⟩ := hrows e (List.mem_cons_self ..)
        have hload : loadArtifact e.1 e.2 = .ok artifact := by
          rw [← hkey, ← hrow]
          exact loadArtifact_ok hvalid
        have hlength : e.2.byteLen = artifact.byteLen.toNat := by
          rw [← hrow]
          rfl
        have hrest : 0 ≤ (rows.map fun e => e.2.byteLen).sum := by
          refine List.sum_nonneg fun n hn => ?_
          obtain ⟨e', he', rfl⟩ := List.mem_map.mp hn
          obtain ⟨artifact', -, -, hrow'⟩ := hrows e' (List.mem_cons_of_mem _ he')
          rw [← hrow']
          exact Int.natCast_nonneg _
        rw [List.map_cons, List.sum_cons, hlength] at htotal
        have hfits : loaded.2 + artifact.byteLen.toNat ≤ maxArtifactBytes := by
          simp only [maxArtifactBytes, i64Max] at htotal ⊢
          omega
        obtain ⟨result, hresult⟩ := ih (loaded.1 ++ [artifact], loaded.2 + artifact.byteLen.toNat)
          (fun e' he' => hrows e' (List.mem_cons_of_mem _ he'))
          (by rw [Nat.cast_add]; omega)
        refine ⟨result, ?_⟩
        rw [List.foldlM_cons, hload]
        show ((reject _ _).bind fun _ => (reject _ _).bind _).bind _ = _
        rw [reject_of_not _ (by simp only [u64Modulus, maxArtifactBytes] at hfits ⊢; omega)]
        show ((reject _ _).bind _).bind _ = _
        rw [reject_of_not _ (by omega)]
        exact hresult
    obtain ⟨result, hresult⟩ := hfold task.artifacts.entries ([], 0)
      (fun e he => htask.artifacts e he) (by simpa [Task.totalBytes] using htask.total)
    refine ⟨result.1, ?_⟩
    dsimp only
    rw [hresult]
    rfl

/-! ## Steps of a read -/

def ReadStage.Inv : ReadStage → Prop
  | .base _ => True
  | .diagnostics record => record.row.Checked
  | .artifacts record _ => record.row.Checked

theorem readStep_ok {db : Database} (h : db.Inv) {read : ReadStage} (hread : read.Inv) :
    ∃ r, readStep db read = .ok r ∧ (∀ next, r = .inl next → next.Inv) ∧
      ∀ record, r = .inr (some record) → record.progressMillionths.toNat ≤ maxProgress := by
  cases read with
  | base id =>
    rw [readStep]
    cases hlookup : db.lookup id with
    | none => exact ⟨.inr none, rfl, fun _ hnext => (by cases hnext), fun _ h => by cases h⟩
    | some task =>
      have htask := h.task id task hlookup
      obtain ⟨base, hbase, hrow⟩ := readBase_ok htask id
      refine ⟨.inl (.diagnostics base), ?_, ?_, fun _ h => by cases h⟩
      · dsimp only
        rw [hbase]
        rfl
      · intro next hnext
        cases hnext
        show base.row.Checked
        rw [hrow]
        exact TaskRow.checked htask.check
  | diagnostics base =>
    obtain ⟨codes, hcodes⟩ := loadDiagnostics_ok h base.id
    refine ⟨.inl (.artifacts base codes), ?_, ?_, fun _ h => by cases h⟩
    · rw [readStep, hcodes]
      rfl
    · intro next hnext
      cases hnext
      exact hread
  | artifacts base codes =>
    obtain ⟨artifacts, hartifacts⟩ := loadArtifacts_ok h base.id
    obtain ⟨record, hrecord, hprogress⟩ := base.assemble_ok hread codes artifacts
    refine ⟨.inr (some record), ?_, fun _ hnext => (by cases hnext), fun _ h => ?_⟩
    · rw [readStep, hartifacts]
      show (base.assemble codes artifacts).bind _ = _
      rw [hrecord]
      rfl
    · cases h
      exact hprogress

/-! ## What is reconciled -/

theorem nonterminalCandidates_ok {db : Database} (h : db.Inv) (after : Option TaskId)
    (highWater : TaskId) : ∃ candidates, nonterminalCandidates db after highWater = .ok candidates ∧
      ∀ c ∈ candidates, canonicalHex 32 c.recoveryToken = true ∧ isActive c.status.asDb = true := by
  have hall : ∀ rows : List (TaskId × Task), (∀ e ∈ rows, e ∈ db ∧ isActive e.2.row.status = true) →
      ∃ candidates, rows.mapM (fun e => candidateOf e.1 e.2) = .ok candidates ∧
        ∀ c ∈ candidates, canonicalHex 32 c.recoveryToken = true ∧
          isActive c.status.asDb = true := by
    intro rows
    induction rows with
    | nil => exact fun _ => ⟨[], rfl, List.forall_mem_nil _⟩
    | cons e rows ih =>
      intro hrows
      obtain ⟨he, hactive⟩ := hrows e (List.mem_cons_self ..)
      obtain ⟨candidates, hcandidates, hgood⟩ := ih fun e' he' => hrows e' (List.mem_cons_of_mem _ he')
      have htask := h.task e.1 e.2 (OrderedMap.lookup_eq_some.mpr he)
      have hchecked := TaskRow.checked htask.check
      obtain ⟨status, hstatus⟩ := hchecked.parse
      have hone : candidateOf e.1 e.2 = .ok ⟨e.1, status, e.2.row.recoveryToken⟩ := by
        unfold candidateOf
        rw [reject_of_not _ (not_not.mpr hchecked.recoveryToken), hstatus, TaskStatus.parse_asDb]
        rfl
      refine ⟨⟨e.1, status, e.2.row.recoveryToken⟩ :: candidates, ?_, ?_⟩
      · rw [List.mapM_cons, hone]
        show (List.mapM (fun e : TaskId × Task => candidateOf e.1 e.2) rows).bind _ = _
        rw [hcandidates]
        rfl
      · exact List.forall_mem_cons.mpr ⟨⟨hchecked.recoveryToken, hstatus ▸ hactive⟩, hgood⟩
  refine hall _ fun e he => ?_
  have hmem := List.mem_filter.mp (List.mem_of_mem_take he)
  simp only [Bool.and_eq_true] at hmem
  exact ⟨hmem.1, hmem.2.2⟩

theorem decideReconcile_ok {status : TaskStatus} {record : TaskRecord} {inspection : Inspection}
    {d : Decision} (hactive : isActive status.asDb = true)
    (hprogress : record.progressMillionths.toNat ≤ maxProgress)
    (h : decideReconcile status record inspection = .ok d) :
    d.next ≠ .succeeded ∧ d.progress.toNat ≤ maxProgress := by
  cases inspection with
  | found phase inputFingerprint optionsFingerprint =>
    dsimp only [decideReconcile] at h
    split_ifs at h
    · cases h
      exact ⟨by decide, by decide⟩
    · cases phase <;> cases h
      · refine ⟨?_, hprogress⟩
        rintro rfl
        exact absurd hactive (by decide)
      · exact ⟨by decide, by decide⟩
      · exact ⟨by decide, by decide⟩
  | missing =>
    cases h
    exact ⟨by decide, by decide⟩
  | invalid =>
    cases h
    exact ⟨by decide, by decide⟩
  | unavailable => cases h

theorem decideReconcile_total (status : TaskStatus) (record : TaskRecord)
    {inspection : Inspection} (h : inspection ≠ .unavailable) :
    ∃ d, decideReconcile status record inspection = .ok d := by
  cases inspection with
  | found phase inputFingerprint optionsFingerprint =>
    dsimp only [decideReconcile]
    split_ifs
    · exact ⟨_, rfl⟩
    · cases phase <;> exact ⟨_, rfl⟩
  | missing => exact ⟨_, rfl⟩
  | invalid => exact ⟨_, rfl⟩
  | unavailable => exact absurd rfl h

theorem Task.Inv.insertDiagnostic_ok {task : Task} (h : task.Inv) (code : DiagnosticCode)
    (hroom : task.diagnostics.entries.length < maxDiagnostics) :
    ∃ task', task.insertDiagnostic code = .ok task' := by
  have hnew : task.diagnostics.lookup task.diagnostics.entries.length = none := by
    rw [OrderedMap.lookup_eq_none]
    intro e he heq
    have hmem := List.mem_map_of_mem (f := (·.1)) he
    rw [h.ordinals, List.mem_map] at hmem
    obtain ⟨n, hn, hn'⟩ := hmem
    rw [List.mem_range] at hn
    rw [heq] at hn'
    exact absurd (Int.ofNat.inj hn') (by omega)
  simp only [maxDiagnostics] at hroom
  unfold Task.insertDiagnostic
  dsimp only
  rw [if_pos ⟨by omega, hnew⟩]
  exact ⟨_, rfl⟩

theorem known_asDb (status : TaskStatus) :
    isActive status.asDb = true ∨ isTerminal status.asDb = true := by
  cases status <;> decide

/-- A reconciliation fails only on a full list of diagnostics. -/
theorem reconcileTransition_ok {db : Database} (hinv : db.Inv) {id : TaskId}
    (expected : TaskStatus) {next : TaskStatus} {minimumProgress : UInt32}
    {diagnostic : Option DiagnosticCode} {clock : Int} (hclock : 0 ≤ clock ∧ clock ≤ i64Max) (hnext : next ≠ .succeeded)
    (hprogress : minimumProgress.toNat ≤ maxProgress)
    (hroom : diagnostic.isSome = true → ∀ task, db.lookup id = some task →
      task.diagnostics.entries.length < maxDiagnostics) :
    ∃ r, reconcileTransition db id expected next minimumProgress diagnostic clock = .ok r := by
  unfold reconcileTransition
  by_cases hactive : isActive expected.asDb = true
  swap
  · rw [if_pos hactive]
    exact ⟨none, rfl⟩
  rw [if_neg (not_not.mpr hactive)]
  cases hlookup : db.lookup id with
  | none => exact ⟨none, rfl⟩
  | some task =>
    have htask := hinv.task id task hlookup
    have hchecked := TaskRow.checked htask.check
    obtain ⟨status, hstatus⟩ := hchecked.parse
    dsimp only
    rw [hstatus, TaskStatus.parse_asDb]
    by_cases hsame : status ≠ expected
    · refine ⟨none, ?_⟩
      show (if status ≠ expected then _ else _) = _
      rw [if_pos hsame]
      rfl
    · have hterminal := Task.Inv.active (hstatus.trans (congrArg _ (not_not.mp hsame))) hactive
      have hnow : utcNowMs clock = .ok clock := by
        rw [utcNowMs, if_neg (by omega), if_neg (by omega)]
      have hchecked' : TaskRow.Checked { task.row with
          status := next.asDb
          progress := max task.row.progress minimumProgress.toNat
          updatedAt := max clock (saturatingSucc task.row.updatedAt)
          completedAt := task.row.completed next
            (max clock (saturatingSucc task.row.updatedAt)) } := by
        have hlater : task.row.updatedAt ≤ saturatingSucc task.row.updatedAt ∧
            saturatingSucc task.row.updatedAt ≤ i64Max := by
          have hfits := hchecked.fits
          unfold saturatingSucc
          split_ifs <;> omega
        have hcreated : task.row.createdAt ≤ saturatingSucc task.row.updatedAt :=
          hchecked.updated.trans hlater.1
        refine ⟨hchecked.created, ?_, ?_, ?_, ?_, ?_, ?_, hchecked.inputFingerprint,
          hchecked.optionsFingerprint, hchecked.recoveryToken, hchecked.inputBytes,
          hchecked.config, hchecked.generation, hchecked.pinned⟩
        · exact le_max_of_le_right hcreated
        · exact max_le hclock.2 hlater.2
        · intro completed hcompleted
          have hnone : task.row.completedAt = none := by
            rw [← Option.isNone_iff_eq_none, ← Option.not_isSome, htask.completed, hterminal]
            rfl
          unfold TaskRow.completed at hcompleted
          split_ifs at hcompleted
          · cases hcompleted
            exact le_max_of_le_right hcreated
          · rw [hnone] at hcompleted
            cases hcompleted
        · exact known_asDb next
        · have hold := hchecked.progress
          have hminimum : (minimumProgress.toNat : Int) ≤ maxProgress := by exact_mod_cast hprogress
          exact ⟨le_max_of_le_left hold.1, max_le hold.2 hminimum⟩
        · intro hsucceeded
          have hsame : next.asDb = TaskStatus.asDb .succeeded := hsucceeded
          exact absurd (TaskStatus.asDb_injective hsame) hnext
      have hupdate := task.update_of_checked hchecked'
      obtain ⟨updated, hupdated⟩ : ∃ updated, updated = Task.mk { task.row with
          status := next.asDb
          progress := max task.row.progress minimumProgress.toNat
          updatedAt := max clock (saturatingSucc task.row.updatedAt)
          completedAt := task.row.completed next
            (max clock (saturatingSucc task.row.updatedAt)) } task.diagnostics task.artifacts :=
        ⟨_, rfl⟩
      rw [← hupdated] at hupdate
      have hinv' := (htask.update hupdate (htask.completed_next hterminal next _) rfl rfl).1
      obtain ⟨new, hnew⟩ : ∃ new, diagnostic.toList.foldlM Task.insertDiagnostic updated = .ok new := by
        cases diagnostic with
        | none => exact ⟨updated, rfl⟩
        | some code =>
          have hroom := hroom rfl task hlookup
          obtain ⟨new, hnew⟩ := hinv'.insertDiagnostic_ok code (by rw [hupdated]; exact hroom)
          refine ⟨new, ?_⟩
          show (updated.insertDiagnostic code).bind _ = _
          rw [hnew]
          rfl
      refine ⟨some (db.insert id new), ?_⟩
      show (if status ≠ expected then _ else (utcNowMs clock).bind _) = _
      rw [if_neg hsame, hnow]
      show (task.update _).bind _ = _
      rw [hupdate]
      show (diagnostic.toList.foldlM Task.insertDiagnostic updated).bind _ = _
      rw [hnew]
      rfl

/-- Only the first query finds that there is no such task. -/
theorem readStep_none {db : Database} {read : ReadStage} (h : readStep db read = .ok (.inr none)) :
    ∃ id, read = .base id ∧ db.lookup id = none := by
  cases read with
  | base id =>
    refine ⟨id, rfl, ?_⟩
    rw [readStep] at h
    cases hlookup : db.lookup id with
    | none => rfl
    | some task =>
      rw [hlookup] at h
      obtain ⟨base, -, h⟩ := ok_bind h
      cases h
  | diagnostics base =>
    obtain ⟨codes, -, h⟩ := ok_bind h
    cases h
  | artifacts base codes =>
    obtain ⟨artifacts, -, h⟩ := ok_bind h
    obtain ⟨record, -, h⟩ := ok_bind h
    cases h

end IntoMarkdown.TaskStore
