import IntoMarkdown.Transaction.Replay

/-! # Runs of appends and persists

A writer that appends records to its log, persists its journal now and then, and
may crash with the last frame of the log cut off. -/

namespace IntoMarkdown.Transaction
open Transition

/-! ## The writer with its log -/

/-- `records` are those whose frames are whole in the log's file; the last frame of
the file begins at `lastStart`, and `lastWhole` says whether all of it is there. -/
structure Session where
  writer : Writer
  logSequence : UInt64
  logBytes : Nat
  log : Option Bytes
  records : List JournalRecord
  lastStart : Nat
  lastWhole : Bool

def Session.start : Session := ⟨.start, 0, 0, none, [], 0, false⟩

def Session.file (s : Session) : Bytes := s.log.getD []

inductive SessionAction where
  | append (record : JournalRecord) (outcome : AppendOutcome)
  | persist (journal : Journal) (outcome : Outcome)
  | truncate (count : Nat)

def Session.appended (s : Session) (record : JournalRecord) (outcome : AppendOutcome)
    (r : UInt64 × Nat × Option Bytes) : Session :=
  match outcome with
  | .completed =>
    { s with
      logSequence := r.1, logBytes := r.2.1, log := r.2.2, records := s.records ++ [record]
      lastStart := s.file.length, lastWhole := true }
  | .refused => s
  | .torn count =>
    { s with
      log := r.2.2
      lastStart := if count = 0 then s.lastStart else s.file.length
      lastWhole := if count = 0 then s.lastWhole else false }

section Runs
variable (f : JournalFormat) (g : RecordFormat) (p : Place) (nonce : String)

/-- One append, one attempt to persist, or the loss of a part of the last frame. -/
def Session.step (s : Session) : SessionAction → Option Session
  | .append record outcome =>
    if !s.writer.running then none
    else (appendRecord g s.logSequence s.logBytes s.log record outcome).map
      (s.appended record outcome)
  | .persist journal outcome =>
    (s.writer.step f p nonce ⟨{ journal with logSequence := s.logSequence }, outcome⟩).map
      fun writer => { s with writer := writer }
  | .truncate count =>
    if s.writer.running ∧ s.lastStart ≤ count ∧ count ≤ s.file.length then
      some { s with
        writer := { s.writer with running := false }
        log := s.log.map (·.take count)
        records := if s.lastWhole ∧ count < s.file.length then s.records.dropLast else s.records }
    else none

/-- The newest slot is not older than the last journal that was persisted, and the
log is replayed to the journal that its whole records make of that slot. -/
def Session.Reproduces (s : Session) : Prop :=
  ∀ l, s.writer.last = some l → ∃ c j, loadSlots f p nonce s.writer.slots = .ok c ∧
    (c = l ∨ c ∈ s.writer.newer) ∧ reproduced c s.records = .ok j ∧
    loadJournal f p nonce s.writer.slots (replayJournalRecords g s.log) = .ok j

/-- An append to a log without a torn frame, whose record the newest slot and the
records after it accept; an attempt to persist that spoils another slot than the
newest, or none. -/
def Session.Sound (s : Session) : SessionAction → Prop
  | .append record outcome =>
    outcome = .refused ∨ (s.file.length = s.logBytes ∧
      (outcome = .completed → ∀ c, loadSlots f p nonce s.writer.slots = .ok c →
        ∃ j, reproduced c (s.records ++ [record]) = .ok j ∧ validateJournal p j = .ok ()))
  | .persist journal outcome =>
    ∀ c generation, loadSlots f p nonce s.writer.slots = .ok c →
      checkedSucc s.writer.generation = some generation →
      outcome.spoils (f.encode { journal with
        logSequence := s.logSequence
        generation := generation }) = true →
      slotOf c.generation ≠ slotOf generation
  | .truncate _ => True

end Runs

/-! ## Slots that an attempt leaves newest -/

variable {f : JournalFormat} {g : RecordFormat} {p : Place} {nonce : String}

/-- The journals of the two slots, and which of them is loaded. -/
theorem Writer.Inv.load (hf : f.Lawful) {s : Writer} (h : s.Inv f p nonce) :
    ∃ a b, Shows f p nonce (s.slots.get .journalA) a ∧ Shows f p nonce (s.slots.get .journalB) b ∧
      (∀ j, a = some j → s.Known .journalA j) ∧ (∀ j, b = some j → s.Known .journalB j) ∧
      loadSlots f p nonce s.slots = (newest a b).elim
        (.error (recoveryError s!"no valid signed journal in {p.directoryName}")) .ok := by
  obtain ⟨a, ha, hknowna⟩ := h.shows .journalA
  obtain ⟨b, hb, hknownb⟩ := h.shows .journalB
  refine ⟨a, b, ha, hb, hknowna, hknownb, loadSlots_newest hf ha hb ?_⟩
  intro i j hi hj heq
  have hslot := (hknowna i hi).slot
  rw [heq, (hknownb j hj).slot] at hslot
  cases hslot

/-- A journal is loaded exactly if it is in a slot and as new as any other one. -/
theorem Writer.Inv.load_iff (hf : f.Lawful) {s : Writer} (h : s.Inv f p nonce) {c : Journal} :
    loadSlots f p nonce s.slots = .ok c ↔
      (∃ name, loadValidJournalSlot f p nonce s.slots name = some c) ∧
      ∀ name i, loadValidJournalSlot f p nonce s.slots name = some i →
        i.generation ≤ c.generation := by
  obtain ⟨a, b, ha, hb, hknowna, hknownb, hload⟩ := h.load hf
  have hslots : ∀ i, (∃ name, loadValidJournalSlot f p nonce s.slots name = some i) ↔
      a = some i ∨ b = some i := by
    intro i
    constructor
    · rintro ⟨name, hi⟩
      cases name with
      | journalA => exact .inl (ha.load hf ▸ hi)
      | journalB => exact .inr (hb.load hf ▸ hi)
    · rintro (hi | hi)
      · exact ⟨.journalA, (ha.load hf).trans hi⟩
      · exact ⟨.journalB, (hb.load hf).trans hi⟩
  rw [hload, hslots]
  constructor
  · intro hc
    cases hnewest : newest a b with
    | none => simp [hnewest] at hc
    | some i =>
      simp only [hnewest, Option.elim_some, Except.ok.injEq] at hc
      subst hc
      refine ⟨newest_cases hnewest, ?_⟩
      intro name k hk
      obtain ⟨j, hj, hle⟩ := newest_of_some ((hslots k).mp ⟨name, hk⟩)
      obtain rfl := Option.some.inj (hj.symm.trans hnewest)
      exact hle
  · rintro ⟨hc, hmax⟩
    obtain ⟨j, hj, hle⟩ := newest_of_some hc
    have hback : j.generation ≤ c.generation := by
      obtain ⟨name, hname⟩ := (hslots j).mpr (newest_cases hj)
      exact hmax name j hname
    have heq : j.generation = c.generation := UInt64.le_antisymm hback hle
    have hsame : j = c := by
      rcases newest_cases hj with hj' | hj' <;> rcases hc with hc' | hc'
      · exact Option.some.inj (hj'.symm.trans hc')
      · have hslot := (hknowna j hj').slot
        rw [heq, (hknownb c hc').slot] at hslot
        cases hslot
      · have hslot := (hknownb j hj').slot
        rw [heq, (hknowna c hc').slot] at hslot
        cases hslot
      · exact Option.some.inj (hj'.symm.trans hc')
    rw [hj, hsame, Option.elim_some]

theorem Writer.Inv.known (hf : f.Lawful) {s : Writer} (h : s.Inv f p nonce) {name : SlotName}
    {i : Journal} (hi : loadValidJournalSlot f p nonce s.slots name = some i) : s.Known name i := by
  obtain ⟨c, hc, hknown⟩ := h.shows name
  exact hknown i ((hc.load hf).symm.trans hi)

theorem Writer.Inv.exists_load (hf : f.Lawful) {s : Writer} (h : s.Inv f p nonce)
    {name : SlotName} {i : Journal} (hi : loadValidJournalSlot f p nonce s.slots name = some i) :
    ∃ c, loadSlots f p nonce s.slots = .ok c := by
  obtain ⟨a, b, ha, hb, -, -, hload⟩ := h.load hf
  have hslot : a = some i ∨ b = some i := by
    cases name with
    | journalA => exact .inl (ha.load hf ▸ hi)
    | journalB => exact .inr (hb.load hf ▸ hi)
  obtain ⟨c, hc, -⟩ := newest_of_some hslot
  exact ⟨c, by rw [hload, hc, Option.elim_some]⟩

theorem Slots.set_get (s : Slots) (name : SlotName) : s.set name (s.get name) = s := by
  cases name <;> rfl

/-- After an attempt that spoils no newest slot, the newest slot is the one before,
or the one that the attempt has written. -/
theorem load_after (hf : f.Lawful) {s s' : Writer} {a : Attempt} (hinv : s.Inv f p nonce)
    (h : s.step f p nonce a = some s')
    (hnewest : ∀ c generation, loadSlots f p nonce s.slots = .ok c →
      checkedSucc s.generation = some generation →
      a.outcome.spoils (f.encode { a.journal with generation := generation }) = true →
      slotOf c.generation ≠ slotOf generation)
    {c : Journal} (hc : loadSlots f p nonce s'.slots = .ok c) :
    loadSlots f p nonce s.slots = .ok c ∨
      (Accepted p nonce c ∧ c.logSequence = a.journal.logSequence) := by
  have hinv' := inv_step hf hinv h
  obtain ⟨⟨name, hname⟩, hmax⟩ := (hinv'.load_iff hf).mp hc
  obtain ⟨j, hafter, hcase⟩ := Writer.step_cases h
  rcases hcase with ⟨-, -, hslots⟩ | ⟨hnext, hj, hfits, hslots⟩
  · exact .inl (hslots ▸ hc)
  have hother : ∀ name, name ≠ slotOf j.generation →
      loadValidJournalSlot f p nonce s'.slots name =
        loadValidJournalSlot f p nonce s.slots name := by
    intro name hname
    unfold loadValidJournalSlot
    rw [hslots, Slots.get_set, if_neg hname]
  cases hspoils : a.outcome.spoils (f.encode j) with
  | true =>
    left
    have hne : name ≠ slotOf j.generation := by
      rintro rfl
      have hunreadable := Outcome.unreadable hf (s.slots.get (slotOf j.generation)) hspoils
      unfold loadValidJournalSlot at hname
      rw [hslots, Slots.get_set, if_pos rfl, hunreadable.1] at hname
      cases hname
    have hold := (hother name hne).symm.trans hname
    obtain ⟨d, hd⟩ := hinv.exists_load hf hold
    obtain ⟨⟨dname, hdname⟩, -⟩ := (hinv.load_iff hf).mp hd
    have hdne : dname ≠ slotOf j.generation := by
      rw [← (hinv.known hf hdname).slot]
      exact hnewest d j.generation hd hnext (hj ▸ hspoils)
    -- both journals are in the slot that is left alone
    rw [SlotName.eq_other hne] at hold
    rw [SlotName.eq_other hdne] at hdname
    obtain rfl := Option.some.inj (hold.symm.trans hdname)
    exact hd
  | false =>
    rcases Outcome.readable (s.slots.get (slotOf j.generation)) hfits hafter.accepted hspoils
      with ⟨-, hkept⟩ | hstored
    · rw [hkept, Slots.set_get] at hslots
      exact .inl (hslots ▸ hc)
    · right
      have hload : loadValidJournalSlot f p nonce s'.slots (slotOf j.generation) = some j := by
        refine Shows.load hf (c := some j) ?_
        rw [hslots, Slots.get_set, if_pos rfl]
        exact hstored
      by_cases hname' : name = slotOf j.generation
      · rw [hname', hload] at hname
        obtain rfl := Option.some.inj hname
        exact ⟨hafter.accepted, by rw [hj]⟩
      · -- the other slot is older than the journal that has been written
        rw [hother name hname'] at hname
        have hwritten := (hinv.known hf hname).written
        have hle := hmax _ _ hload
        rw [UInt64.le_iff_toNat_le] at hwritten hle
        have hgrows := checkedSucc_toNat hnext
        omega

/-! ## The invariant of a session -/

/-- What is known of the memory while the writer runs. -/
structure Session.Tracked (g : RecordFormat) (s : Session) : Prop where
  bytes : s.logBytes = (g.frames (numbered 0 s.records)).length
  sequence : s.logSequence.toNat = s.records.length
  whole : s.lastWhole = true → s.records ≠ [] ∧ s.file.length = s.logBytes ∧
    s.lastStart = (g.frames (numbered 0 s.records.dropLast)).length
  torn : s.lastWhole = false → s.lastStart = s.logBytes

/-- Every start of the records is one that a journal accepts. -/
def Accepts (p : Place) (c : Journal) (records : List JournalRecord) : Prop :=
  ∀ k, ∃ j, reproduced c (records.take k) = .ok j ∧ validateJournal p j = .ok ()

structure Session.Inv (f : JournalFormat) (g : RecordFormat) (p : Place) (nonce : String)
    (s : Session) : Prop where
  writer : s.writer.Inv f p nonce
  loadable : s.writer.Loadable f p nonce
  logged : ∃ tail, Logged g s.log s.records tail
  tracked : s.writer.running = true → s.Tracked g
  accepts : ∀ c, loadSlots f p nonce s.writer.slots = .ok c → Accepts p c s.records

theorem session_inv_start (hg : g.Lawful) : Session.start.Inv f g p nonce where
  writer := inv_start
  loadable := nofun
  logged := ⟨[], rfl, tornTail_nil hg, Nat.zero_le _, nofun⟩
  tracked _ := ⟨rfl, rfl, nofun, fun _ => rfl⟩
  accepts := by
    intro c hc
    cases hc

/-! ## Steps of a session -/

theorem Accepts.snoc {c : Journal} {records : List JournalRecord} {record : JournalRecord}
    (h : Accepts p c records)
    (hall : ∃ j, reproduced c (records ++ [record]) = .ok j ∧ validateJournal p j = .ok ()) :
    Accepts p c (records ++ [record]) := by
  intro k
  by_cases hk : k ≤ records.length
  · rw [List.take_append_of_le_length hk]
    exact h k
  · rw [List.take_of_length_le (by rw [List.length_append, List.length_singleton]; omega)]
    exact hall

theorem Accepts.dropLast {c : Journal} {records : List JournalRecord} (h : Accepts p c records) :
    Accepts p c records.dropLast := by
  intro k
  rw [List.dropLast_eq_take, List.take_take]
  exact h _

/-- A journal that was persisted with the records accepts them. -/
theorem accepts_covered {c : Journal} {records : List JournalRecord}
    (hc : validateJournal p c = .ok ()) (hn : records.length < 2 ^ 64)
    (hcovers : records.length ≤ c.logSequence.toNat) : Accepts p c records := by
  intro k
  have hk : (records.take k).length ≤ records.length := by
    rw [List.length_take]
    omega
  exact ⟨c, reproduced_covered (by omega) (by omega), hc⟩

/-- The whole records of a log fit in it. -/
theorem Logged.count {log : Option Bytes} {records : List JournalRecord} {tail : Bytes}
    (hg : g.Lawful) (h : Logged g log records tail) : records.length + 2 < 2 ^ 64 := by
  have hframes := length_frames hg records 0
  have hfile := congrArg List.length h.file
  have hfits := h.fits
  rw [List.length_append] at hfile
  simp only [maxJournalBytes] at hfits
  omega

/-- A log without a torn frame is as long as the memory says. -/
theorem Session.Tracked.untorn {s : Session} {tail : Bytes} (h : s.Tracked g)
    (hlogged : Logged g s.log s.records tail) (hlength : s.file.length = s.logBytes) :
    tail = [] ∧ s.file = g.frames (numbered 0 s.records) := by
  have hfile : s.file = g.frames (numbered 0 s.records) ++ tail := hlogged.file
  have htail : tail = [] := by
    have hlengths := congrArg List.length hfile
    rw [List.length_append, hlength, h.bytes] at hlengths
    exact List.length_eq_zero_iff.mp (by omega)
  rw [htail, List.append_nil] at hfile
  exact ⟨htail, hfile⟩

theorem session_inv_append (hg : g.Lawful) {s s' : Session} {record : JournalRecord}
    {o : AppendOutcome} (hinv : s.Inv f g p nonce)
    (hsound : s.Sound f p nonce (.append record o))
    (h : s.step f g p nonce (.append record o) = some s') : s'.Inv f g p nonce := by
  unfold Session.step at h
  dsimp only at h
  by_cases hrunning : s.writer.running = true
  swap
  · rw [if_pos (by simpa using hrunning)] at h
    cases h
  rw [if_neg (by simpa using hrunning)] at h
  obtain ⟨r, hr, rfl⟩ := Option.map_eq_some_iff.mp h
  rcases appendRecord_cases hg hr with ⟨rfl, -⟩ | ⟨next, frame, hnext, hpayload, hframe, hfits, hcase⟩
  · exact hinv
  have hrefused : o ≠ .refused := by
    rintro rfl
    rcases hcase with ⟨ho, -⟩ | ⟨count, ho, -, -⟩ <;> cases ho
  obtain ⟨hlength, hsound⟩ := hsound.resolve_left hrefused
  obtain ⟨tail, hlogged⟩ := hinv.logged
  have htracked := hinv.tracked hrunning
  obtain ⟨-, hfile⟩ := htracked.untorn hlogged hlength
  have hcount := hlogged.count hg
  have hsequence : next = sequenceOf s.records.length := by
    rw [← UInt64.toNat_inj, checkedSucc_toNat hnext, htracked.sequence,
      sequenceOf_toNat (by omega)]
  have hsmall : (g.encode next record).length < 2 ^ 64 := by
    simp only [maxJournalBytes] at hpayload
    omega
  rcases hcase with ⟨rfl, rfl⟩ | ⟨count, rfl, hcut, rfl⟩
  · -- the frame is whole
    have hframes : s.file ++ frame = g.frames (numbered 0 (s.records ++ [record])) := by
      rw [hfile, RecordFormat.frames_snoc, ← hsequence, hframe]
    refine ⟨hinv.writer, hinv.loadable, ⟨[], ?_, tornTail_nil hg, ?_, ?_⟩, fun _ => ?_, ?_⟩
    · show s.file ++ frame = g.frames (numbered 0 (s.records ++ [record])) ++ []
      rw [hframes, List.append_nil]
    · show (s.file ++ frame).length ≤ _
      rw [List.length_append, hlength]
      exact hfits
    · intro e he
      simp only [Session.appended, numbered_append, List.mem_append, Nat.zero_add] at he
      rcases he with he | he
      · exact hlogged.small e he
      · rw [numbered, numbered, List.mem_singleton] at he
        subst he
        rw [← hsequence]
        exact hsmall
    · refine ⟨?_, ?_, fun _ => ⟨?_, ?_, ?_⟩, fun htorn => ?_⟩
      · show s.logBytes + frame.length = (g.frames (numbered 0 (s.records ++ [record]))).length
        rw [← hframes, List.length_append, hlength]
      · show next.toNat = (s.records ++ [record]).length
        rw [checkedSucc_toNat hnext, htracked.sequence, List.length_append, List.length_singleton]
      · show s.records ++ [record] ≠ []
        simp
      · show (s.file ++ frame).length = s.logBytes + frame.length
        rw [List.length_append, hlength]
      · show s.file.length = (g.frames (numbered 0 (s.records ++ [record]).dropLast)).length
        rw [List.dropLast_concat, hfile]
      · cases htorn
    · intro c hc
      exact (hinv.accepts c hc).snoc (hsound rfl c hc)
  · -- a part of the frame
    refine ⟨hinv.writer, hinv.loadable, ⟨frame.take count, ?_, ?_, ?_, hlogged.small⟩,
      fun _ => ?_, hinv.accepts⟩
    · show s.file ++ frame.take count = g.frames (numbered 0 s.records) ++ frame.take count
      rw [hfile]
    · exact ⟨g.encode next record, count, hsmall, hframe ▸ hcut, by rw [hframe]⟩
    · show (s.file ++ frame.take count).length ≤ _
      rw [List.length_append, List.length_take, hlength]
      omega
    · by_cases hzero : count = 0
      · subst hzero
        refine ⟨htracked.bytes, htracked.sequence, fun hwhole => ?_, fun htorn => ?_⟩
        · obtain ⟨hne, hwhole, hstart⟩ := htracked.whole hwhole
          exact ⟨hne, by show (s.file ++ []).length = _; rw [List.append_nil, hwhole]; rfl, hstart⟩
        · exact htracked.torn htorn
      · refine ⟨htracked.bytes, htracked.sequence, fun hwhole => ?_, fun _ => ?_⟩
        · simp [Session.appended, hzero] at hwhole
        · simp [Session.appended, hzero, hlength]

/-- An attempt that spoils no newest slot is safe. -/
theorem safe_of_sound (hf : f.Lawful) {s : Session} {journal : Journal} {o : Outcome}
    (hinv : s.Inv f g p nonce) (hsound : s.Sound f p nonce (.persist journal o)) :
    s.writer.Safe f p nonce ⟨{ journal with logSequence := s.logSequence }, o⟩ := by
  intro l generation hl hgeneration hspoils
  obtain ⟨c, hc, hage⟩ := hinv.loadable l hl
  rw [loadJournal_slots] at hc
  obtain ⟨⟨name, hname⟩, -⟩ := (hinv.writer.load_iff hf).mp hc
  have hne := hsound c generation hc hgeneration hspoils
  rw [(hinv.writer.known hf hname).slot] at hne
  rw [SlotName.eq_other hne] at hname
  refine ⟨c, hname, ?_⟩
  rcases hage with rfl | hage
  · exact UInt64.le_refl _
  · exact (hinv.writer.last l hl).2 c hage

theorem session_inv_persist (hf : f.Lawful) (hg : g.Lawful) {s s' : Session} {journal : Journal}
    {o : Outcome} (hinv : s.Inv f g p nonce) (hsound : s.Sound f p nonce (.persist journal o))
    (h : s.step f g p nonce (.persist journal o) = some s') : s'.Inv f g p nonce := by
  obtain ⟨writer, hstep, rfl⟩ := Option.map_eq_some_iff.mp h
  have hrunning : s.writer.running = true := by
    unfold Writer.step at hstep
    by_contra hstopped
    rw [if_pos (.inl hstopped)] at hstep
    cases hstep
  obtain ⟨tail, hlogged⟩ := hinv.logged
  have htracked := hinv.tracked hrunning
  refine ⟨inv_step hf hinv.writer hstep,
    (loadable_step hf hinv.writer hinv.loadable hstep).mpr (safe_of_sound hf hinv hsound),
    ⟨tail, hlogged⟩, fun _ => ⟨htracked.bytes, htracked.sequence, htracked.whole, htracked.torn⟩,
    ?_⟩
  intro c hc
  rcases load_after hf hinv.writer hstep hsound hc with hold | ⟨haccepted, hsequence⟩
  · exact hinv.accepts c hold
  · -- the journal that has been written covers every record
    have hcount := hlogged.count hg
    refine accepts_covered haccepted.2 (show s.records.length < _ by omega) ?_
    rw [hsequence]
    exact htracked.sequence.ge

theorem session_inv_truncate {s s' : Session} {count : Nat} (hinv : s.Inv f g p nonce)
    (h : s.step f g p nonce (.truncate count) = some s') : s'.Inv f g p nonce := by
  unfold Session.step at h
  dsimp only at h
  by_cases hguard : s.writer.running = true ∧ s.lastStart ≤ count ∧ count ≤ s.file.length
  swap
  · rw [if_neg hguard] at h
    cases h
  rw [if_pos hguard, Option.some.injEq] at h
  obtain ⟨hrunning, hstart, hcount⟩ := hguard
  obtain ⟨tail, hlogged⟩ := hinv.logged
  have htracked := hinv.tracked hrunning
  have hfile : s.file = g.frames (numbered 0 s.records) ++ tail := hlogged.file
  have hcut : (s.log.map (·.take count)).getD [] = s.file.take count := by
    unfold Session.file
    cases s.log with
    | none => exact (List.take_nil ..).symm
    | some bytes => rfl
  have hfits : (s.file.take count).length ≤ maxJournalBytes :=
    (List.length_take_le' ..).trans hlogged.fits
  have hwriter : ({ s.writer with running := false } : Writer).Inv f p nonce := by
    refine ⟨fun name => ?_, hinv.writer.last⟩
    obtain ⟨c, hc, hknown⟩ := hinv.writer.shows name
    exact ⟨c, hc, fun j hj => ⟨(hknown j hj).slot, (hknown j hj).written, (hknown j hj).age⟩⟩
  by_cases hlast : s.lastWhole = true ∧ count < s.file.length
  · -- the last record is lost
    rw [if_pos hlast] at h
    subst h
    obtain ⟨hne, hwhole, hfirst⟩ := htracked.whole hlast.1
    obtain ⟨record, hrecords⟩ : ∃ record, s.records = s.records.dropLast ++ [record] :=
      ⟨s.records.getLast hne, (List.dropLast_append_getLast hne).symm⟩
    obtain ⟨-, hframes⟩ := htracked.untorn hlogged hwhole
    rw [hrecords, RecordFormat.frames_snoc] at hframes
    have hlength := congrArg List.length hframes
    rw [List.length_append, ← hfirst] at hlength
    have hpayload : (g.encode (sequenceOf s.records.dropLast.length) record).length < 2 ^ 64 := by
      refine hlogged.small (_, record) ?_
      rw [hrecords, numbered_append, List.dropLast_concat, Nat.zero_add]
      exact List.mem_append_right _ (List.mem_singleton.mpr rfl)
    refine ⟨hwriter, hinv.loadable, ⟨_, ?_, ⟨_, count - s.lastStart, hpayload, ?_, rfl⟩, ?_, ?_⟩,
      nofun, fun c hc => (hinv.accepts c hc).dropLast⟩
    · show (s.log.map (·.take count)).getD [] = _
      rw [hcut, hframes, List.take_append, ← hfirst, hfirst,
        List.take_of_length_le (by omega)]
    · omega
    · show ((s.log.map (·.take count)).getD []).length ≤ _
      rw [hcut]
      exact hfits
    · intro e he
      refine hlogged.small e ?_
      rw [hrecords, numbered_append]
      exact List.mem_append_left _ he
  · rw [if_neg hlast] at h
    subst h
    refine ⟨hwriter, hinv.loadable, ?_, nofun, hinv.accepts⟩
    by_cases hall : count = s.file.length
    · -- nothing is lost
      refine ⟨tail, ?_, hlogged.torn, ?_, hlogged.small⟩
      · show (s.log.map (·.take count)).getD [] = _
        rw [hcut, hall, List.take_length, hfile]
      · show ((s.log.map (·.take count)).getD []).length ≤ _
        rw [hcut]
        exact hfits
    · -- a part of the torn frame is lost
      have htorn : s.lastWhole = false := by
        by_contra hwhole
        exact hlast ⟨by simpa using hwhole, by omega⟩
      have hbytes := htracked.torn htorn
      rw [htracked.bytes] at hbytes
      obtain ⟨payload, size, hsmall, hsize, rfl⟩ := hlogged.torn
      refine ⟨_, ?_, ⟨payload, min (count - s.lastStart) size, hsmall, ?_, rfl⟩, ?_, hlogged.small⟩
      · show (s.log.map (·.take count)).getD [] = _
        rw [hcut, hfile, List.take_append, ← hbytes, List.take_take,
          List.take_of_length_le (by omega)]
      · omega
      · show ((s.log.map (·.take count)).getD []).length ≤ _
        rw [hcut]
        exact hfits

theorem session_inv_step (hf : f.Lawful) (hg : g.Lawful) {s s' : Session} {a : SessionAction}
    (hinv : s.Inv f g p nonce) (hsound : s.Sound f p nonce a)
    (h : s.step f g p nonce a = some s') : s'.Inv f g p nonce := by
  cases a with
  | append record o => exact session_inv_append hg hinv hsound h
  | persist journal o => exact session_inv_persist hf hg hinv hsound h
  | truncate count => exact session_inv_truncate hinv h

/-- The session's log is replayed, whatever its last frame has lost. -/
theorem Session.Inv.reproduces (hg : g.Lawful) {s : Session} (h : s.Inv f g p nonce) :
    s.Reproduces f g p nonce := by
  intro l hl
  obtain ⟨c, hc, hage⟩ := h.loadable l hl
  rw [loadJournal_slots] at hc
  obtain ⟨tail, hlogged⟩ := h.logged
  obtain ⟨j, hj, hvalid⟩ := h.accepts c hc s.records.length
  rw [List.take_length] at hj
  refine ⟨c, j, hc, hage, hj, ?_⟩
  have hnodup : c.parentIdentities.Nodup := validateJournal_nodup (loadSlots_accepted hc)
  unfold loadJournal
  rw [hc]
  simp only [bind, Except.bind, replay_logged hg hlogged hnodup, hj, hvalid]
  rfl

/-- In a run of appends, persists and a last loss, each of them sound, the log is
replayed at every moment to the journal that its whole records make. -/
theorem replay_reproduces (hf : f.Lawful) (hg : g.Lawful) {as : List SessionAction} {s : Session}
    (h : exec (Session.step f g p nonce) Session.start as = some s)
    (hsound : Along (Session.step f g p nonce) (Session.Sound f p nonce) Session.start as) :
    s.Reproduces f g p nonce :=
  (exec_invariant_along (fun _ _ _ hinv hc hstep => session_inv_step hf hg hinv hc hstep)
    (session_inv_start hg) hsound h).reproduces hg

end IntoMarkdown.Transaction
