import IntoMarkdown.Transaction.JournalJson
import IntoMarkdown.Transaction.Log

/-! # Replaying the log

A log of whole frames, perhaps with a part of one more frame after them, is
replayed to the journal that the records above the slot's sequence make of it. -/

namespace IntoMarkdown.Transaction
open Transition

variable {f : RecordFormat}

/-! ## Little-endian numbers -/

@[simp] theorem length_toLeBytes (n : Nat) : (toLeBytes n).length = 8 := by
  simp [toLeBytes]

theorem fromLeBytes_toLeBytes {n : Nat} (h : n < 2 ^ 64) : fromLeBytes (toLeBytes n) = n := by
  simp only [toLeBytes, fromLeBytes, List.range_succ, List.range_zero, List.nil_append,
    List.cons_append, List.map_cons, List.map_nil, List.foldr_cons, List.foldr_nil,
    UInt8.toNat_ofNat']
  omega

/-! ## Frames -/

theorem length_frame (hf : f.Lawful) (payload : Bytes) :
    (f.frame payload).length = journalRecordHeaderBytes + payload.length := by
  simp only [RecordFormat.frame, List.length_append, length_toLeBytes, hf.length_digest]
  simp [journalRecordMagic, journalRecordHeaderBytes]
  omega

theorem frame_header (f : RecordFormat) (payload : Bytes) :
    f.frame payload = (journalRecordMagic ++ (toLeBytes payload.length ++ f.digest payload)) ++
      payload := by
  simp [RecordFormat.frame]

theorem length_header (hf : f.Lawful) (payload : Bytes) :
    (journalRecordMagic ++ (toLeBytes payload.length ++ f.digest payload)).length =
      journalRecordHeaderBytes := by
  simp [hf.length_digest, journalRecordMagic, journalRecordHeaderBytes]

/-- The header of a frame, and what comes after it. -/
theorem take_header (hf : f.Lawful) (payload rest : Bytes) :
    (f.frame payload ++ rest).take journalRecordHeaderBytes =
        journalRecordMagic ++ (toLeBytes payload.length ++ f.digest payload) ∧
      (f.frame payload ++ rest).drop journalRecordHeaderBytes = payload ++ rest := by
  rw [frame_header, List.append_assoc, ← length_header hf payload, List.take_left, List.drop_left]
  exact ⟨rfl, rfl⟩

theorem header_length (payload : Bytes) (digest : Bytes) :
    ((journalRecordMagic ++ (toLeBytes payload.length ++ digest)).drop 8).take 8 =
      toLeBytes payload.length := by
  rw [show (8 : Nat) = journalRecordMagic.length from rfl, List.drop_left,
    show journalRecordMagic.length = (toLeBytes payload.length).length from
      (length_toLeBytes _).symm, List.take_left]

theorem header_digest (payload : Bytes) (digest : Bytes) :
    (journalRecordMagic ++ (toLeBytes payload.length ++ digest)).drop 16 = digest := by
  have h : (journalRecordMagic ++ toLeBytes payload.length).length = 16 := by
    simp [journalRecordMagic]
  rw [← List.append_assoc, ← h, List.drop_left]

/-- One whole frame. -/
theorem replayFrames_frame (hf : f.Lawful) (fuel : Nat) {sequence next : UInt64}
    (hnext : checkedSucc sequence = some next) (record : JournalRecord) (rest : Bytes)
    (r : Replayed) (hlt : (f.encode sequence record).length < 2 ^ 64) :
    replayFrames f (fuel + 1) (f.frame (f.encode sequence record) ++ rest) sequence r =
      (r.take sequence record).bind (replayFrames f fuel rest next) := by
  obtain ⟨htake, hdrop⟩ := take_header hf (f.encode sequence record) rest
  have hlong : ¬ (f.frame (f.encode sequence record) ++ rest).length <
      journalRecordHeaderBytes := by
    rw [List.length_append, length_frame hf]
    omega
  have hmagic : (journalRecordMagic ++ (toLeBytes (f.encode sequence record).length ++
      f.digest (f.encode sequence record))).take 8 = journalRecordMagic := by
    rw [show (8 : Nat) = journalRecordMagic.length from rfl, List.take_left]
  have hpayload : ¬ (f.encode sequence record ++ rest).length <
      (f.encode sequence record).length := by
    rw [List.length_append]
    omega
  rw [replayFrames, if_neg hlong]
  simp only [htake, hdrop, hmagic, header_length, header_digest, fromLeBytes_toLeBytes hlt,
    List.take_left, List.drop_left, hf.decode_encode, ne_eq, not_true_eq_false, if_false,
    if_neg hpayload, hnext]
  rfl

/-- A part of a frame ends the loop. -/
theorem replayFrames_torn (hf : f.Lawful) (fuel : Nat) {payload : Bytes} {count : Nat}
    (hcount : count < (f.frame payload).length) (hlt : payload.length < 2 ^ 64)
    (expected : UInt64) (r : Replayed) :
    replayFrames f fuel ((f.frame payload).take count) expected r = .ok r := by
  cases fuel with
  | zero => rfl
  | succ fuel =>
    rw [replayFrames]
    by_cases hshort : ((f.frame payload).take count).length < journalRecordHeaderBytes
    · rw [if_pos hshort]
    · -- the header is there, and says that more bytes follow than there are
      rw [if_neg hshort]
      rw [List.length_take, length_frame hf] at hshort
      rw [length_frame hf] at hcount
      have hheader := length_header hf payload
      have hsplit : (f.frame payload).take count =
          (journalRecordMagic ++ (toLeBytes payload.length ++ f.digest payload)) ++
            payload.take (count - journalRecordHeaderBytes) := by
        rw [frame_header, List.take_append, hheader, List.take_of_length_le (by omega)]
      have hrest : (payload.take (count - journalRecordHeaderBytes)).length < payload.length := by
        rw [List.length_take]
        omega
      have hmagic : (journalRecordMagic ++ (toLeBytes payload.length ++ f.digest payload)).take 8 =
          journalRecordMagic := by
        rw [show (8 : Nat) = journalRecordMagic.length from rfl, List.take_left]
      generalize payload.take (count - journalRecordHeaderBytes) = part at hsplit hrest
      rw [hsplit, ← hheader, List.take_left, List.drop_left]
      simp only [hmagic, header_length, fromLeBytes_toLeBytes hlt, ne_eq, not_true_eq_false,
        if_false, if_pos hrest]

/-! ## Logs of whole frames -/

/-- The sequence of the record with index `n`. -/
def sequenceOf (n : Nat) : UInt64 := UInt64.ofNat (n + 1)

theorem sequenceOf_toNat {n : Nat} (h : n + 1 < 2 ^ 64) : (sequenceOf n).toNat = n + 1 := by
  rw [sequenceOf, UInt64.toNat_ofNat', Nat.mod_eq_of_lt h]

theorem checkedSucc_sequenceOf {n : Nat} (h : n + 2 < 2 ^ 64) :
    checkedSucc (sequenceOf n) = some (sequenceOf (n + 1)) := by
  have hn := sequenceOf_toNat (show n + 1 < 2 ^ 64 by omega)
  rw [checkedSucc, hn, if_pos h, Option.some.injEq, ← UInt64.toNat_inj, UInt64.toNat_add, hn,
    sequenceOf_toNat h]
  simp only [UInt64.toNat_one]
  omega

/-- Records with their sequences; `n` records come before them. -/
def numbered : Nat → List JournalRecord → List (UInt64 × JournalRecord)
  | _, [] => []
  | n, record :: rest => (sequenceOf n, record) :: numbered (n + 1) rest

theorem numbered_append (n : Nat) (records more : List JournalRecord) :
    numbered n (records ++ more) = numbered n records ++ numbered (n + records.length) more := by
  induction records generalizing n with
  | nil => rfl
  | cons record rest ih =>
    simp only [numbered, List.cons_append, List.length_cons, ih]
    rw [show n + 1 + rest.length = n + (rest.length + 1) by omega]

/-- The sequences of records number them on. -/
theorem sequence_of_numbered {n : Nat} {records : List JournalRecord}
    {e : UInt64 × JournalRecord} (hn : n + records.length < 2 ^ 64) (he : e ∈ numbered n records) :
    e.1.toNat ≤ n + records.length := by
  induction records generalizing n with
  | nil => cases he
  | cons record rest ih =>
    simp only [List.length_cons] at hn ⊢
    rcases List.mem_cons.mp he with rfl | he
    · rw [sequenceOf_toNat (by omega)]
      omega
    · have hrest := ih (by omega) he
      omega

/-- The bytes of a log of numbered records. -/
def RecordFormat.frames (f : RecordFormat) (records : List (UInt64 × JournalRecord)) : Bytes :=
  records.flatMap fun r => f.frame (f.encode r.1 r.2)

theorem RecordFormat.frames_append (f : RecordFormat) (a b : List (UInt64 × JournalRecord)) :
    f.frames (a ++ b) = f.frames a ++ f.frames b :=
  List.flatMap_append

/-- One more record, and its frame. -/
theorem RecordFormat.frames_snoc (f : RecordFormat) (records : List JournalRecord)
    (record : JournalRecord) :
    f.frames (numbered 0 (records ++ [record])) = f.frames (numbered 0 records) ++
      f.frame (f.encode (sequenceOf records.length) record) := by
  rw [numbered_append, frames_append, Nat.zero_add]
  simp only [numbered, frames, List.flatMap_cons, List.flatMap_nil, List.append_nil]

def Replayed.takeAll (r : Replayed) (records : List (UInt64 × JournalRecord)) :
    Except CliError Replayed :=
  records.foldlM (fun r record => r.take record.1 record.2) r

/-- What follows the whole frames of a log: nothing, or a part of one more frame. -/
def TornTail (f : RecordFormat) (tail : Bytes) : Prop :=
  ∃ payload count, payload.length < 2 ^ 64 ∧ count < (f.frame payload).length ∧
    tail = (f.frame payload).take count

theorem tornTail_nil (hf : f.Lawful) : TornTail f [] :=
  ⟨[], 0, by decide, by rw [length_frame hf]; decide, rfl⟩

/-- **The loop.** The whole frames are taken in order, and the tail is ignored. -/
theorem replayFrames_frames (hf : f.Lawful) {tail : Bytes} (htail : TornTail f tail)
    (records : List JournalRecord) (n fuel : Nat) (r : Replayed)
    (hfuel : records.length ≤ fuel) (hn : n + records.length + 1 < 2 ^ 64)
    (hsize : ∀ e ∈ numbered n records, (f.encode e.1 e.2).length < 2 ^ 64) :
    replayFrames f (fuel + 1) (f.frames (numbered n records) ++ tail) (sequenceOf n) r =
      r.takeAll (numbered n records) := by
  induction records generalizing n fuel r with
  | nil =>
    obtain ⟨payload, count, hlt, hcount, rfl⟩ := htail
    exact replayFrames_torn hf (fuel + 1) hcount hlt (sequenceOf n) r
  | cons record rest ih =>
    obtain ⟨fuel, rfl⟩ := Nat.exists_eq_add_of_le' (Nat.zero_lt_of_lt hfuel)
    simp only [List.length_cons] at hfuel hn
    have hnext := checkedSucc_sequenceOf (show n + 2 < 2 ^ 64 by omega)
    have hframes : f.frames (numbered n (record :: rest)) ++ tail =
        f.frame (f.encode (sequenceOf n) record) ++ (f.frames (numbered (n + 1) rest) ++ tail) := by
      simp [RecordFormat.frames, numbered]
    rw [hframes, replayFrames_frame hf (fuel + 1) hnext record _ r
      (hsize _ (List.mem_cons_self ..))]
    show _ = (r.take (sequenceOf n) record).bind fun r => r.takeAll (numbered (n + 1) rest)
    congr 1
    funext r'
    exact ih (n + 1) fuel r' (by omega) (by omega) fun e he =>
      hsize e (List.mem_cons_of_mem _ he)

/-- What an append does: nothing, or it writes a frame behind the bytes of the log,
or a part of one. -/
theorem appendRecord_cases (hf : f.Lawful) {sequence : UInt64} {size : Nat} {log : Option Bytes}
    {record : JournalRecord} {o : AppendOutcome} {r : UInt64 × Nat × Option Bytes}
    (h : appendRecord f sequence size log record o = some r) :
    (o = .refused ∧ r = (sequence, size, log)) ∨
      ∃ next frame, checkedSucc sequence = some next ∧
        (f.encode next record).length ≤ maxJournalBytes ∧
        frame = f.frame (f.encode next record) ∧ size + frame.length ≤ maxJournalBytes ∧
        ((o = .completed ∧ r = (next, size + frame.length, some (log.getD [] ++ frame))) ∨
          ∃ count, o = .torn count ∧ count < frame.length ∧
            r = (sequence, size, some (log.getD [] ++ frame.take count))) := by
  have hwrites : o ≠ .refused → ∃ next, checkedSucc sequence = some next := by
    intro ho
    cases hnext : checkedSucc sequence with
    | none => cases o <;> simp [appendRecord, hnext] at h ho
    | some next => exact ⟨next, rfl⟩
  by_cases ho : o = .refused
  · subst ho
    exact .inl ⟨rfl, (Option.some.inj h).symm⟩
  · obtain ⟨next, hnext⟩ := hwrites ho
    have hlength := length_frame hf (f.encode next record)
    right
    by_cases hlong : maxJournalBytes < (f.encode next record).length ∨
        maxJournalBytes < size + (journalRecordHeaderBytes + (f.encode next record).length)
    · cases o <;> simp [appendRecord, hnext, hlong] at h ho
    · refine ⟨next, _, hnext, by omega, rfl, by omega, ?_⟩
      rw [hlength]
      cases o with
      | refused => exact absurd rfl ho
      | completed =>
        simp only [appendRecord, hnext, if_neg hlong, Option.some.injEq] at h
        exact .inl ⟨rfl, h.symm⟩
      | torn count =>
        simp only [appendRecord, hnext, if_neg hlong] at h
        by_cases hcount : count < (f.frame (f.encode next record)).length
        · rw [if_pos hcount, Option.some.injEq] at h
          exact .inr ⟨count, rfl, hlength ▸ hcount, h.symm⟩
        · rw [if_neg hcount] at h
          cases h

/-! ## What the records make of a journal -/

/-- Apply a record, and note its sequence in the journal. -/
def Replayed.applyNumbered (r : Replayed) (record : UInt64 × JournalRecord) :
    Except CliError Replayed := do
  let r ← r.apply record.2
  return { r with journal := { r.journal with logSequence := record.1 } }

def Journal.replayed (j : Journal) : Replayed := ⟨j, j.parentIdentities, .empty⟩

/-- The journal that the records above its sequence make of it, each applied once
and in order. -/
def reproduced (journal : Journal) (records : List JournalRecord) : Except CliError Journal :=
  (((numbered 0 records).filter fun e => journal.logSequence < e.1).foldlM
    Replayed.applyNumbered journal.replayed).map (·.journal)

theorem takeAll_eq (m : UInt64) (records : List JournalRecord) (n : Nat) (r : Replayed)
    (hn : n + records.length < 2 ^ 64)
    (hcovers : ∀ k, n ≤ k → k < n + records.length →
      (r.journal.logSequence < sequenceOf k ↔ m < sequenceOf k)) :
    r.takeAll (numbered n records) =
      ((numbered n records).filter fun e => m < e.1).foldlM Replayed.applyNumbered r := by
  induction records generalizing n r with
  | nil => rfl
  | cons record rest ih =>
    simp only [List.length_cons] at hn hcovers
    show (r.take (sequenceOf n) record).bind (fun r => r.takeAll (numbered (n + 1) rest)) = _
    have hhead := hcovers n (Nat.le_refl _) (by omega)
    rw [numbered, List.filter_cons]
    by_cases hm : m < sequenceOf n
    · -- the record is above the journal's sequence
      rw [Replayed.take, if_pos (hhead.mpr hm), if_pos (by simpa using hm)]
      show _ = (r.applyNumbered (sequenceOf n, record)).bind _
      show (r.applyNumbered (sequenceOf n, record)).bind _ = _
      cases happly : r.apply record with
      | error e =>
        simp only [Replayed.applyNumbered, happly]
        rfl
      | ok r' =>
        simp only [Replayed.applyNumbered, happly]
        refine ih (n + 1) _ (by omega) fun k hk hlt => ?_
        have hk' : sequenceOf n < sequenceOf k := by
          rw [UInt64.lt_iff_toNat_lt, sequenceOf_toNat (by omega), sequenceOf_toNat (by omega)]
          omega
        exact ⟨fun _ => UInt64.lt_trans hm hk', fun _ => hk'⟩
    · rw [Replayed.take, if_neg fun h => hm (hhead.mp h), if_neg (by simpa using hm)]
      exact ih (n + 1) r (by omega) fun k hk hlt => hcovers k (by omega) (by omega)

/-- What the file of a log holds: the frames of the records, and a torn tail. -/
structure Logged (f : RecordFormat) (log : Option Bytes) (records : List JournalRecord)
    (tail : Bytes) : Prop where
  file : log.getD [] = f.frames (numbered 0 records) ++ tail
  torn : TornTail f tail
  fits : (log.getD []).length ≤ maxJournalBytes
  small : ∀ e ∈ numbered 0 records, (f.encode e.1 e.2).length < 2 ^ 64

/-- A journal that covers all the records is left as it is. -/
theorem reproduced_covered {j : Journal} {records : List JournalRecord}
    (hn : records.length < 2 ^ 64) (hj : records.length ≤ j.logSequence.toNat) :
    reproduced j records = .ok j := by
  have hnone : (numbered 0 records).filter (fun e => j.logSequence < e.1) = [] := by
    rw [List.filter_eq_nil_iff]
    intro e he hlt
    have hsequence := sequence_of_numbered (by omega) he
    rw [decide_eq_true_eq, UInt64.lt_iff_toNat_lt] at hlt
    omega
  rw [reproduced, hnone]
  rfl

theorem length_frames (hf : f.Lawful) (records : List JournalRecord) (n : Nat) :
    48 * records.length ≤ (f.frames (numbered n records)).length := by
  induction records generalizing n with
  | nil => exact Nat.zero_le _
  | cons record rest ih =>
    have htail := ih (n + 1)
    have hhead := length_frame hf (f.encode (sequenceOf n) record)
    simp only [RecordFormat.frames, numbered, List.flatMap_cons, List.length_append,
      List.length_cons, journalRecordHeaderBytes] at htail hhead ⊢
    omega

/-- **Replay.** The journal that is read back is the one that the records make of
the journal in the slot. -/
theorem replay_logged (hf : f.Lawful) {log : Option Bytes} {records : List JournalRecord}
    {tail : Bytes} (h : Logged f log records tail) {j : Journal}
    (hj : j.parentIdentities.Nodup) :
    replayJournalRecords f log j = reproduced j records := by
  have hframes := length_frames hf records 0
  have hfile := congrArg List.length h.file
  have hfits := h.fits
  rw [List.length_append] at hfile
  have hcount : records.length + 2 < 2 ^ 64 := by
    simp only [maxJournalBytes] at hfits
    omega
  cases log with
  | none =>
    -- no file, and so no record
    have hempty : records = [] := by
      rw [← List.length_eq_zero_iff]
      simp only [Option.getD_none, List.length_nil] at hfile
      omega
    subst hempty
    rfl
  | some bytes =>
    simp only [Option.getD_some] at hfile hfits
    have hbytes : bytes = f.frames (numbered 0 records) ++ tail := h.file
    rw [replayJournalRecords, if_neg (by omega), if_neg (not_not.mpr hj)]
    have hloop := replayFrames_frames hf h.torn records 0 bytes.length j.replayed (by omega)
      (by omega) h.small
    rw [← hbytes] at hloop
    show (replayFrames f (bytes.length + 1) bytes (sequenceOf 0) j.replayed).bind _ = _
    rw [hloop, takeAll_eq j.logSequence records 0 j.replayed (by omega) fun _ _ _ => Iff.rfl]
    unfold reproduced
    cases (((numbered 0 records).filter fun e => j.logSequence < e.1).foldlM
      Replayed.applyNumbered j.replayed) with
    | error e => rfl
    | ok r => rfl

end IntoMarkdown.Transaction
