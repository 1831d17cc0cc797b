import IntoMarkdown.Lib.JsonSchema
import IntoMarkdown.Transaction.Loadable

/-! # The journal's JSON

The texts that `serde_json` writes for a journal and its parts, and what it reads
back from them. -/

namespace IntoMarkdown.Transaction
open IntoMarkdown.Lib Json Transition

/-! ## Parts of a journal -/

def JournalPath.schema : Schema JournalPath where
  write path := .object [
    ("encoding", .string path.encoding),
    ("units", (Schema.list Schema.uint32).write path.units)]
  read v := do
    let encoding ← v.member "encoding" Schema.string
    let units ← v.member "units" (Schema.list Schema.uint32)
    return ⟨encoding, units⟩
  depth := 2
  read_write path := by
    rw [Value.member_write (s := Schema.string) (a := path.encoding) rfl,
      Value.member_write (s := Schema.list Schema.uint32) (a := path.units) rfl]
    rfl
  depth_write path := by
    apply Value.depth_object
    have hunits := (Schema.list Schema.uint32).depth_write path.units
    simp only [List.forall_mem_cons]
    exact ⟨Nat.zero_le _, hunits, nofun⟩
  write_ne_null _ := nofun

def FileIdentity.schema : Schema FileIdentity where
  write identity := .object [
    ("platform", .string identity.platform),
    ("first", .number identity.first.toNat),
    ("second", .number identity.second.toNat),
    ("size", .number identity.size.toNat)]
  read v := do
    let platform ← v.member "platform" Schema.string
    let first ← v.member "first" Schema.uint64
    let second ← v.member "second" Schema.uint64
    let size ← v.member "size" Schema.uint64
    return ⟨platform, first, second, size⟩
  depth := 1
  read_write identity := by
    rw [Value.member_write (s := Schema.string) (a := identity.platform) rfl,
      Value.member_write (s := Schema.uint64) (a := identity.first) rfl,
      Value.member_write (s := Schema.uint64) (a := identity.second) rfl,
      Value.member_write (s := Schema.uint64) (a := identity.size) rfl]
    rfl
  depth_write identity := by simp [Value.depth, Value.depthEntries]
  write_ne_null _ := nofun

def CreatedDirectory.schema : Schema CreatedDirectory where
  write directory := .object [
    ("path", JournalPath.schema.write directory.path),
    ("identity", FileIdentity.schema.write directory.identity)]
  read v := do
    let path ← v.member "path" JournalPath.schema
    let identity ← v.member "identity" FileIdentity.schema
    return ⟨path, identity⟩
  depth := 3
  read_write directory := by
    rw [Value.member_write (s := JournalPath.schema) (a := directory.path) rfl,
      Value.member_write (s := FileIdentity.schema) (a := directory.identity) rfl]
    rfl
  depth_write directory := by
    apply Value.depth_object
    have hpath := JournalPath.schema.depth_write directory.path
    have hidentity := FileIdentity.schema.depth_write directory.identity
    simp only [List.forall_mem_cons]
    exact ⟨hpath, hidentity.trans (by decide), nofun⟩
  write_ne_null _ := nofun

/-- An enumeration by the names of its variants. -/
def labelSchema {α : Type} (label : α → String) (variants : List α)
    (h : ∀ a, variants.find? (fun b => label b = label a) = some a) : Schema α where
  write a := .string (label a)
  read
    | .string s => variants.find? fun b => label b = s
    | _ => none
  depth := 0
  read_write := h
  depth_write _ := Nat.le_refl _
  write_ne_null _ := nofun

def JournalPhase.label : JournalPhase → String
  | .staging => "staging"
  | .prepared => "prepared"
  | .committing => "committing"
  | .committed => "committed"

def JournalPhase.schema : Schema JournalPhase :=
  labelSchema JournalPhase.label [.staging, .prepared, .committing, .committed] fun a => by
    cases a <;> decide

def EntryState.label : EntryState → String
  | .prepared => "prepared"
  | .backedUp => "backedUp"
  | .installed => "installed"

def EntryState.schema : Schema EntryState :=
  labelSchema EntryState.label [.prepared, .backedUp, .installed] fun a => by
    cases a <;> decide

def JournalEntry.schema : Schema JournalEntry where
  write entry := .object [
    ("target", JournalPath.schema.write entry.target),
    ("parentIndex", Schema.uint64.writeOption entry.parentIndex),
    ("original", FileIdentity.schema.writeOption entry.original),
    ("contentSha256", Schema.string.write entry.contentSha256),
    ("size", Schema.uint64.write entry.size),
    ("stagedIdentity", FileIdentity.schema.writeOption entry.stagedIdentity),
    ("state", EntryState.schema.write entry.state)]
  read v := do
    let target ← v.member "target" JournalPath.schema
    let parentIndex ← v.optional "parentIndex" Schema.uint64
    let original ← v.optional "original" FileIdentity.schema
    let contentSha256 ← v.member "contentSha256" Schema.string
    let size ← v.member "size" Schema.uint64
    let stagedIdentity ← v.optional "stagedIdentity" FileIdentity.schema
    let state ← v.member "state" EntryState.schema
    return ⟨target, parentIndex, original, contentSha256, size, stagedIdentity, state⟩
  depth := 3
  read_write entry := by
    rw [Value.member_write (s := JournalPath.schema) (a := entry.target) rfl,
      Value.optional_write (s := Schema.uint64) (a := entry.parentIndex) rfl,
      Value.optional_write (s := FileIdentity.schema) (a := entry.original) rfl,
      Value.member_write (s := Schema.string) (a := entry.contentSha256) rfl,
      Value.member_write (s := Schema.uint64) (a := entry.size) rfl,
      Value.optional_write (s := FileIdentity.schema) (a := entry.stagedIdentity) rfl,
      Value.member_write (s := EntryState.schema) (a := entry.state) rfl]
    rfl
  depth_write entry := by
    apply Value.depth_object
    have htarget := JournalPath.schema.depth_write entry.target
    have hindex := Schema.uint64.depth_writeOption entry.parentIndex
    have horiginal := FileIdentity.schema.depth_writeOption entry.original
    have hstaged := FileIdentity.schema.depth_writeOption entry.stagedIdentity
    simp only [List.forall_mem_cons]
    exact ⟨htarget, hindex.trans (by decide), horiginal.trans (by decide), Nat.zero_le _,
      Nat.zero_le _, hstaged.trans (by decide), Nat.zero_le _, nofun⟩
  write_ne_null _ := nofun

/-! ## The journal -/

def Journal.schema : Schema Journal where
  write j := .object [
    ("signature", Schema.string.write j.signature),
    ("version", Schema.uint32.write j.version),
    ("nonce", Schema.string.write j.nonce),
    ("root", JournalPath.schema.write j.root),
    ("rootIdentity", FileIdentity.schema.write j.rootIdentity),
    ("parentIdentities", FileIdentity.schema.list.write j.parentIdentities),
    ("generation", Schema.uint64.write j.generation),
    ("logSequence", Schema.uint64.write j.logSequence),
    ("phase", JournalPhase.schema.write j.phase),
    ("entries", JournalEntry.schema.list.write j.entries),
    ("createdDirectories", CreatedDirectory.schema.list.write j.createdDirectories),
    ("pendingDirectories", JournalPath.schema.list.write j.pendingDirectories)]
  read v := do
    let signature ← v.member "signature" Schema.string
    let version ← v.member "version" Schema.uint32
    let nonce ← v.member "nonce" Schema.string
    let root ← v.member "root" JournalPath.schema
    let rootIdentity ← v.member "rootIdentity" FileIdentity.schema
    let parentIdentities ← v.member "parentIdentities" FileIdentity.schema.list
    let generation ← v.member "generation" Schema.uint64
    let logSequence ← v.memberOr "logSequence" Schema.uint64 0
    let phase ← v.member "phase" JournalPhase.schema
    let entries ← v.member "entries" JournalEntry.schema.list
    let createdDirectories ← v.memberOr "createdDirectories" CreatedDirectory.schema.list []
    let pendingDirectories ← v.memberOr "pendingDirectories" JournalPath.schema.list []
    return ⟨signature, version, nonce, root, rootIdentity, parentIdentities, generation,
      logSequence, phase, entries, createdDirectories, pendingDirectories⟩
  depth := 5
  read_write j := by
    rw [Value.member_write (s := Schema.string) (a := j.signature) rfl,
      Value.member_write (s := Schema.uint32) (a := j.version) rfl,
      Value.member_write (s := Schema.string) (a := j.nonce) rfl,
      Value.member_write (s := JournalPath.schema) (a := j.root) rfl,
      Value.member_write (s := FileIdentity.schema) (a := j.rootIdentity) rfl,
      Value.member_write (s := FileIdentity.schema.list) (a := j.parentIdentities) rfl,
      Value.member_write (s := Schema.uint64) (a := j.generation) rfl,
      Value.memberOr_write (s := Schema.uint64) (a := j.logSequence) rfl,
      Value.member_write (s := JournalPhase.schema) (a := j.phase) rfl,
      Value.member_write (s := JournalEntry.schema.list) (a := j.entries) rfl,
      Value.memberOr_write (s := CreatedDirectory.schema.list) (a := j.createdDirectories) rfl,
      Value.memberOr_write (s := JournalPath.schema.list) (a := j.pendingDirectories) rfl]
    rfl
  depth_write j := by
    apply Value.depth_object
    have hroot := JournalPath.schema.depth_write j.root
    have hidentity := FileIdentity.schema.depth_write j.rootIdentity
    have hparents := FileIdentity.schema.list.depth_write j.parentIdentities
    have hentries := JournalEntry.schema.list.depth_write j.entries
    have hcreated := CreatedDirectory.schema.list.depth_write j.createdDirectories
    have hpending := JournalPath.schema.list.depth_write j.pendingDirectories
    simp only [List.forall_mem_cons]
    exact ⟨Nat.zero_le _, Nat.zero_le _, Nat.zero_le _, hroot.trans (by decide),
      hidentity.trans (by decide), hparents.trans (by decide), Nat.zero_le _, Nat.zero_le _,
      Nat.zero_le _, hentries.trans (by decide), hcreated.trans (by decide),
      hpending.trans (by decide), nofun⟩
  write_ne_null _ := nofun

/-- The nesting that `serde_json` reads. -/
def jsonDepth : Nat := 127

def readJson (bytes : Bytes) : Option (Value Nat) := readBytes decimal.read jsonDepth bytes

/-- The journal as `serde_json` writes and reads it. -/
def jsonFormat : JournalFormat where
  encode j := write decimal (Journal.schema.write j)
  decode bytes := (readJson bytes).bind Journal.schema.read
  generation bytes := (readJson bytes).bind fun v => v.member "generation" Schema.uint64

theorem readJson_write {α : Type} (s : Schema α) (a : α) (hdepth : s.depth ≤ jsonDepth) :
    readJson (write decimal (s.write a)) = some (s.write a) :=
  s.readBytes_write a hdepth

theorem readJson_newline {α : Type} (s : Schema α) (a : α) (hdepth : s.depth ≤ jsonDepth) :
    readJson (write decimal (s.write a) ++ [newline]) = some (s.write a) :=
  s.readBytes_spaces a hdepth (show ['\n'].all isSpace = true from by decide)

theorem member_generation (j : Journal) :
    (Journal.schema.write j).member "generation" Schema.uint64 = some j.generation :=
  Value.member_write rfl

theorem jsonFormat_lawful : jsonFormat.Lawful where
  decode_encode j := by
    simp only [jsonFormat, readJson_write Journal.schema j (by decide), Option.bind_some]
    exact Journal.schema.read_write j
  decode_newline j := by
    simp only [jsonFormat, readJson_newline Journal.schema j (by decide), Option.bind_some]
    exact Journal.schema.read_write j
  decode_cut j part more h hmore := by
    have hcut : readJson part = none :=
      readBytes_cut decimal_lawful (v := Journal.schema.write j) trivial h hmore
    simp only [jsonFormat, hcut, Option.bind_none]
  generation_encode j := by
    simp only [jsonFormat, readJson_write Journal.schema j (by decide), Option.bind_some]
    exact member_generation j
  generation_newline j := by
    simp only [jsonFormat, readJson_newline Journal.schema j (by decide), Option.bind_some]
    exact member_generation j
  generation_cut j part more h hmore := by
    have hcut : readJson part = none :=
      readBytes_cut decimal_lawful (v := Journal.schema.write j) trivial h hmore
    simp only [jsonFormat, hcut, Option.bind_none]

/-! ## A run that loses both slots -/

def sampleNonce : String := "0123456789abcdef0123456789abcdef"

def sampleRoot : JournalPath := ⟨"unixBytes", [47, 111, 117, 116]⟩

def samplePlace : Place where
  rootPath := [47, 111, 117, 116]
  rootIdentity := ⟨"unix", 1, 2, 0⟩
  directoryName := initialPrefix ++ sampleNonce
  openDirectory _ := .ok none

/-- A staging journal with one target. -/
def sampleJournal : Journal where
  signature := journalSignature
  version := journalVersion
  nonce := sampleNonce
  root := sampleRoot
  rootIdentity := ⟨"unix", 1, 2, 0⟩
  parentIdentities := []
  generation := 0
  logSequence := 0
  phase := .staging
  entries := [⟨⟨"unixBytes", [97]⟩, none, none, "", 0, none, .prepared⟩]
  createdDirectories := []
  pendingDirectories := []

theorem sampleJournal_accepted : Accepted samplePlace sampleNonce sampleJournal := by
  decide +kernel

/-- A journal that is persisted, an attempt that fails, and a crash in the next one,
which has removed the slot of the persisted journal. -/
def lostSlots : List Attempt := [
  ⟨sampleJournal, .completed⟩,
  ⟨sampleJournal, .failed .removed true⟩,
  ⟨sampleJournal, .crashed .removed⟩]

theorem lostSlots_exec :
    (exec (Writer.step jsonFormat samplePlace sampleNonce) Writer.start lostSlots).map
      (fun s => (s.last, s.slots)) = some (some { sampleJournal with generation := 1 }, .empty) := by
  decide +kernel

theorem both_slots_lost : ∃ as s,
    exec (Writer.step jsonFormat samplePlace sampleNonce) Writer.start as = some s ∧
      ¬ s.Loadable jsonFormat samplePlace sampleNonce := by
  obtain ⟨s, hs, hlost⟩ := Option.map_eq_some_iff.mp lostSlots_exec
  obtain ⟨hlast, hslots⟩ := Prod.mk.inj hlost
  refine ⟨lostSlots, s, hs, ?_⟩
  intro hloadable
  obtain ⟨j, hj, -⟩ := hloadable _ hlast
  rw [hslots] at hj
  cases hj

def storedJournal : Journal := { sampleJournal with generation := 1 }

def storedSlots : Slots := ⟨some (jsonFormat.encode storedJournal ++ [newline]), none⟩

theorem sampleJournal_stored :
    (Writer.step jsonFormat samplePlace sampleNonce Writer.start ⟨sampleJournal, .completed⟩).map
      (fun s => (s.generation, s.last, s.slots)) = some (1, some storedJournal, storedSlots) := by
  decide +kernel

theorem storedSlots_shows :
    Shows jsonFormat samplePlace sampleNonce (storedSlots.get .journalA) (some storedJournal) := by
  refine ⟨?_, ?_, .inr rfl⟩
  · exact accepted_generation sampleJournal_accepted 1
  · decide +kernel

theorem storedSlots_load :
    loadValidJournalSlot jsonFormat samplePlace sampleNonce storedSlots .journalA =
      some storedJournal :=
  storedSlots_shows.load jsonFormat_lawful

/-- An attempt that fails after it has removed its slot is safe after one that
completed. -/
theorem journal_loadable_sample :
    ∃ s, exec (Writer.step jsonFormat samplePlace sampleNonce) Writer.start
        [⟨sampleJournal, .completed⟩, ⟨sampleJournal, .failed .removed true⟩] = some s ∧
      s.Loadable jsonFormat samplePlace sampleNonce := by
  have hrun : (exec (Writer.step jsonFormat samplePlace sampleNonce) Writer.start
      [⟨sampleJournal, .completed⟩, ⟨sampleJournal, .failed .removed true⟩]).isSome = true := by
    decide +kernel
  obtain ⟨s, hs⟩ := Option.isSome_iff_exists.mp hrun
  refine ⟨s, hs, ?_⟩
  refine (journal_loadable jsonFormat_lawful hs).mp ⟨nofun, ?_⟩ _ s (List.prefix_refl _) hs
  intro t ht
  refine ⟨?_, fun _ _ => trivial⟩
  have hstored := sampleJournal_stored
  rw [ht] at hstored
  simp only [Option.map_some, Option.some.injEq, Prod.mk.injEq] at hstored
  obtain ⟨hgeneration, hlast, hslots⟩ := hstored
  rintro l generation hl hnext -
  rw [hgeneration] at hnext
  obtain rfl : (2 : UInt64) = generation := Option.some.inj hnext
  obtain rfl := Option.some.inj (hlast.symm.trans hl)
  exact ⟨storedJournal, hslots ▸ storedSlots_load, UInt64.le_refl _⟩

end IntoMarkdown.Transaction
