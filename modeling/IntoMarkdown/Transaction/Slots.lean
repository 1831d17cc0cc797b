import IntoMarkdown.Lib.Transition
import IntoMarkdown.Transaction.Model

/-! # The two journal slots

`persist_journal_handle` writes the journal into the slot that its new
generation selects, and `load_journal_handle` reads the newest valid slot. -/

namespace IntoMarkdown.Transaction
open Transition

/-! ## The format of a slot -/

/-- `serde_json` over a journal: the text that is written, and what the two
readers take from the bytes of a file. -/
structure JournalFormat where
  encode : Journal → Bytes
  decode : Bytes → Option Journal
  generation : Bytes → Option UInt64

def newline : UInt8 := 10

/-- A written journal is read back, with or without its newline, and no shorter
text is read. -/
structure JournalFormat.Lawful (f : JournalFormat) : Prop where
  decode_encode : ∀ j, f.decode (f.encode j) = some j
  decode_newline : ∀ j, f.decode (f.encode j ++ [newline]) = some j
  decode_cut : ∀ j part more, f.encode j = part ++ more → more ≠ [] → f.decode part = none
  generation_encode : ∀ j, f.generation (f.encode j) = some j.generation
  generation_newline : ∀ j, f.generation (f.encode j ++ [newline]) = some j.generation
  generation_cut : ∀ j part more, f.encode j = part ++ more → more ≠ [] →
    f.generation part = none

inductive SlotName where
  | journalA | journalB
  deriving DecidableEq, Repr

structure Slots where
  journalA : Option Bytes
  journalB : Option Bytes
  deriving DecidableEq, Repr

def Slots.empty : Slots := ⟨none, none⟩

def Slots.get (s : Slots) : SlotName → Option Bytes
  | .journalA => s.journalA
  | .journalB => s.journalB

def Slots.set (s : Slots) (name : SlotName) (file : Option Bytes) : Slots :=
  match name with
  | .journalA => { s with journalA := file }
  | .journalB => { s with journalB := file }

def SlotName.other : SlotName → SlotName
  | .journalA => .journalB
  | .journalB => .journalA

/-! ## Loading -/

/-- `slot_boundary_is_valid`. -/
def slotBoundaryIsValid (bytes : Bytes) : Bool :=
  bytes.length ≤ maxJournalBytes || bytes.getLast? = some newline

/-- `load_slot_value`. -/
def loadSlotValue {α : Type} (decode : Bytes → Option α) (file : Option Bytes) : Option α :=
  file.bind fun bytes =>
    if maxJournalBytes + 1 < bytes.length ∨ !slotBoundaryIsValid bytes then none else decode bytes

section Load
variable (f : JournalFormat) (p : Place) (nonce : String) (s : Slots)

/-- `load_valid_journal_slot`. -/
def loadValidJournalSlot (name : SlotName) : Option Journal :=
  (loadSlotValue f.decode (s.get name)).bind fun j =>
    if j.nonce ≠ nonce ∨ !(validateJournal p j).isOk then none else some j

/-- The slots whose generation can be read, the newest first. -/
def probeSlots : List (SlotName × UInt64) :=
  ([SlotName.journalA, SlotName.journalB].filterMap fun name =>
    (loadSlotValue f.generation (s.get name)).map fun generation => (name, generation)).insertionSort
      fun x y => y.2 ≤ x.2

/-- The loop over the probes. -/
def selectSlot : List (SlotName × UInt64) → Except CliError (Option Journal)
  | [] => .ok none
  | (name, generation) :: rest =>
    match loadValidJournalSlot f p nonce s name with
    | none => selectSlot rest
    | some candidate =>
      if candidate.generation ≠ generation then selectSlot rest
      else match rest with
        | [] => .ok (some candidate)
        | (otherName, otherGeneration) :: _ =>
          if otherGeneration = generation then
            if (loadValidJournalSlot f p nonce s otherName).isSome then
              .error (recoveryError "ambiguous journal generations")
            else .ok (loadValidJournalSlot f p nonce s name)
          else .ok (some candidate)

/-- The part of `load_journal_handle` that chooses a slot. -/
def loadSlots : Except CliError Journal := do
  match ← selectSlot f p nonce s (probeSlots f s) with
  | none => .error (recoveryError s!"no valid signed journal in {p.directoryName}")
  | some journal => .ok journal

/-- `load_journal_handle`, where `replay` is `replay_journal_records` on the log's
file; without a log it leaves the journal as it is. -/
def loadJournal (replay : Journal → Except CliError Journal) : Except CliError Journal := do
  let journal ← loadSlots f p nonce s
  let journal ← replay journal
  validateJournal p journal
  return journal

end Load

/-! ## Persisting -/

/-- How far an attempt gets with the file of its slot. -/
inductive Progress where
  | kept
  | removed
  | written (count : Nat)
  deriving DecidableEq, Repr

/-- How an attempt ends. The error path tries to remove the slot's file, which
`cleared` says of it; a crash ends the run. -/
inductive Outcome where
  | completed
  | refused
  | failed (progress : Progress) (cleared : Bool)
  | crashed (progress : Progress)
  deriving DecidableEq, Repr

def Progress.file (old : Option Bytes) (text : Bytes) : Progress → Option Bytes
  | .kept => old
  | .removed => none
  | .written count => some (text.take count)

def Outcome.file (old : Option Bytes) (text : Bytes) : Outcome → Option Bytes
  | .completed => some text
  | .refused => old
  | .failed _ true => none
  | .failed progress false | .crashed progress => progress.file old text

def Outcome.isCrash : Outcome → Bool
  | .crashed _ => true
  | _ => false

/-- The slot of a generation. -/
def slotOf (generation : UInt64) : SlotName :=
  if generation.toNat % 2 = 0 then .journalB else .journalA

/-- `checked_add(1)`. -/
def checkedSucc (n : UInt64) : Option UInt64 :=
  if n.toNat + 1 < 2 ^ 64 then some (n + 1) else none

/-- `persist_journal_handle`: the journal with its new generation, and the slots.
An attempt whose generation overflows, and one whose text is too long, changes no file. -/
def persistJournal (f : JournalFormat) (journal : Journal) (s : Slots) (outcome : Outcome) :
    Option (Journal × Slots) :=
  match checkedSucc journal.generation with
  | none => if outcome = .refused then some (journal, s) else none
  | some generation =>
    let journal := { journal with generation := generation }
    let name := slotOf generation
    let text := f.encode journal
    if maxJournalBytes < text.length ∧ outcome ≠ .refused then none
    else some (journal, s.set name (outcome.file (s.get name) (text ++ [newline])))

/-! ## Runs of attempts -/

/-- The writer of a journal: the generation in memory and the slots; `last` is
the journal of the last attempt that completed, and `newer` are those of the
attempts after it. -/
structure Writer where
  generation : UInt64
  slots : Slots
  running : Bool
  last : Option Journal
  newer : List Journal

def Writer.start : Writer := ⟨0, .empty, true, none, []⟩

structure Attempt where
  journal : Journal
  outcome : Outcome

def Accepted (p : Place) (nonce : String) (j : Journal) : Prop :=
  j.nonce = nonce ∧ validateJournal p j = .ok ()

instance (p : Place) (nonce : String) (j : Journal) : Decidable (Accepted p nonce j) :=
  inferInstanceAs (Decidable (_ ∧ _))

section Runs
variable (f : JournalFormat) (p : Place) (nonce : String)

/-- One attempt to persist an acceptable journal under the generation in memory. -/
def Writer.step (s : Writer) (a : Attempt) : Option Writer :=
  if ¬ s.running ∨ ¬ Accepted p nonce a.journal then none
  else
    (persistJournal f { a.journal with generation := s.generation } s.slots a.outcome).map fun r =>
      { generation := r.1.generation
        slots := r.2
        running := !a.outcome.isCrash
        last := if a.outcome = .completed then some r.1 else s.last
        newer := if a.outcome = .completed then [] else r.1 :: s.newer }

/-- The journal is loadable, and not older than the last one that was persisted. -/
def Writer.Loadable (s : Writer) : Prop :=
  ∀ l, s.last = some l →
    ∃ j, loadJournal f p nonce s.slots .ok = .ok j ∧ (j = l ∨ j ∈ s.newer)

/-- The attempt leaves less than the journal's text in the file of its slot. -/
def Progress.spoils (text : Bytes) : Progress → Bool
  | .kept => false
  | .removed => true
  | .written count => count < text.length

def Outcome.spoils (text : Bytes) : Outcome → Bool
  | .completed | .refused => false
  | .failed _ true => true
  | .failed progress false | .crashed progress => progress.spoils text

/-- An attempt that spoils the file of its slot finds a journal in the other
slot that is not older than the last one that was persisted. -/
def Writer.Safe (s : Writer) (a : Attempt) : Prop :=
  ∀ l generation, s.last = some l → checkedSucc s.generation = some generation →
    a.outcome.spoils (f.encode { a.journal with generation := generation }) = true →
      ∃ j, loadValidJournalSlot f p nonce s.slots (slotOf generation).other = some j ∧
        l.generation ≤ j.generation

end Runs

end IntoMarkdown.Transaction
