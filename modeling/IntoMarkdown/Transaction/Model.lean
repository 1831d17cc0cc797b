import IntoMarkdown.Lib.JsonText
import IntoMarkdown.Lib.Utf8
import IntoMarkdown.Recovery.Envelope

/-! # Output transactions

The journal of a transaction, the records of its log, and the checks that a
journal has to pass before it is believed. Unix paths. -/

namespace IntoMarkdown.Transaction
open IntoMarkdown.Lib (ok_bind)

abbrev Bytes := List UInt8

/-! ## Errors -/

inductive ExitClass where
  | io | policy | internal
  deriving DecidableEq, Repr

structure CliError where
  exit : ExitClass
  code : String
  message : String
  deriving DecidableEq, Repr

def CliError.internalError (message : String) : CliError := ⟨.internal, "internal", message⟩

def recoveryError (detail : String) : CliError := ⟨.io, "transactionRecoveryUnsafe", detail⟩

/-! ## The journal -/

def journalSignature : String := "into-markdown-output-transaction"
def journalVersion : UInt32 := 1
def transactionPrefix : String := ".into-md-txn-01-"
def initialPrefix : String := ".into-md-init-01-"
def cleanupPrefix : String := ".into-md-clean-01-"
def maxJournalEntries : Nat := 100001
def maxJournalBytes : Nat := 256 * 1024 * 1024
def maxPathUnits : Nat := 32768

inductive JournalPhase where
  | staging | prepared | committing | committed
  deriving DecidableEq, Repr

inductive EntryState where
  | prepared | backedUp | installed
  deriving DecidableEq, Repr

structure JournalPath where
  encoding : String
  units : List UInt32
  deriving DecidableEq, Repr

structure FileIdentity where
  platform : String
  first : UInt64
  second : UInt64
  size : UInt64
  deriving DecidableEq, Repr

structure JournalEntry where
  target : JournalPath
  parentIndex : Option UInt64
  original : Option FileIdentity
  contentSha256 : String
  size : UInt64
  stagedIdentity : Option FileIdentity
  state : EntryState
  deriving DecidableEq, Repr

structure CreatedDirectory where
  path : JournalPath
  identity : FileIdentity
  deriving DecidableEq, Repr

structure StageResume where
  configFingerprint : String
  sourceFingerprint : String
  chunkSequence : UInt64
  durableLen : UInt64
  contentSha256 : String
  deriving DecidableEq, Repr

structure Journal where
  signature : String
  version : UInt32
  nonce : String
  root : JournalPath
  rootIdentity : FileIdentity
  parentIdentities : List FileIdentity
  generation : UInt64
  logSequence : UInt64
  phase : JournalPhase
  entries : List JournalEntry
  createdDirectories : List CreatedDirectory
  pendingDirectories : List JournalPath
  deriving DecidableEq, Repr

inductive JournalRecord where
  | directoryIntent (paths : List JournalPath)
  | directoriesCreated (directories : List CreatedDirectory)
  | targetAdded (parent : Option FileIdentity) (entry : JournalEntry)
  | stageChunk (index : UInt64) (resume : StageResume)
  | stageSealed (index : UInt64) (size : UInt64) (contentSha256 : String)
      (stagedIdentity : FileIdentity)
  deriving DecidableEq, Repr

/-! ## Paths -/

inductive Component where
  | rootDir | curDir | parentDir
  | normal (name : Bytes)
  deriving DecidableEq, Repr

def slash : UInt8 := 47
def dot : UInt8 := 46

/-- One segment between slashes; a dot counts only at the start of a relative path. -/
def component (leading : Bool) (segment : Bytes) : Option Component :=
  if segment = [] then none
  else if segment = [dot] then if leading then some .curDir else none
  else if segment = [dot, dot] then some .parentDir
  else some (.normal segment)

/-- `Path::components`. -/
def components (path : Bytes) : List Component :=
  match path.splitOn slash with
  | [] => []
  | first :: rest =>
    (if path.head? = some slash then [.rootDir] else (component true first).toList) ++
      rest.filterMap (component false)

def isHexDigit (c : Char) : Bool :=
  Recovery.isLowerHexDigit c || (65 ≤ c.toNat && c.toNat ≤ 70)

def isNonce (text : String) : Bool := Recovery.canonicalHex 32 text

def isNonceByte (b : UInt8) : Bool := Recovery.isLowerHexDigit (Char.ofNat b.toNat)

/-- The nonce in the name of a managed transaction directory, all in ASCII. -/
def managedNonce (name : Bytes) : Option Bytes :=
  let start := Lib.Utf8.encode transactionPrefix.toList
  let nonce := name.drop start.length
  if start <+: name ∧ nonce.length = 32 ∧ nonce.all isNonceByte then some nonce else none

def decodePath (path : JournalPath) : Except CliError Bytes :=
  if path.encoding ≠ "unixBytes" ∨ maxPathUnits < path.units.length then
    .error (recoveryError "invalid Unix journal path encoding")
  else path.units.mapM fun unit =>
    if unit.toNat < 256 then .ok unit.toUInt8
    else .error (recoveryError "invalid Unix path byte")

def validateRelativePath (path : Bytes) : Except CliError Unit :=
  if path = [] ∨ (components path).any (fun c => match c with | .normal _ => false | _ => true) then
    .error (recoveryError "transaction target is not a strict relative path")
  else if (components path).any
      (fun c => match c with | .normal name => (managedNonce name).isSome | _ => false) then
    .error (recoveryError "transaction target aliases a manager directory")
  else .ok ()

/-! ## The checks of a journal -/

/-- What a journal is checked against: the recovery root, the name of the
transaction's directory, and the directories below the root, of which
`openDirectory` gives the identity, or nothing where there is none. -/
structure Place where
  rootPath : Bytes
  rootIdentity : FileIdentity
  directoryName : String
  openDirectory : Bytes → Except CliError (Option FileIdentity)

/-- A check that ends the validation where `bad` holds. -/
def reject (bad : Prop) [Decidable bad] (detail : String) : Except CliError Unit :=
  if bad then .error (recoveryError detail) else .ok ()

def JournalEntry.digestIsSealed (entry : JournalEntry) : Bool :=
  entry.contentSha256.toList.length = 64 && entry.contentSha256.toList.all isHexDigit

def JournalEntry.digestIsPending (entry : JournalEntry) (phase : JournalPhase) : Bool :=
  phase = .staging && entry.contentSha256 = "" && entry.size = 0 && entry.stagedIdentity.isNone

/-- One turn of the loop over the targets, which keeps the paths it has seen. -/
def validateEntry (j : Journal) (targets : List (List UInt32)) (entry : JournalEntry) :
    Except CliError (List (List UInt32)) := do
  reject (!entry.digestIsSealed && !entry.digestIsPending j.phase)
    "invalid transaction content digest"
  reject (j.phase ≠ .staging ∧ entry.stagedIdentity.isNone)
    "transaction stage identity does not match its sealed content"
  reject ((j.phase ≠ .staging ∨ entry.stagedIdentity.isSome) ∧ entry.parentIndex.isNone)
    "sealed transaction target has no bound parent identity"
  reject (entry.parentIndex.any (fun index => j.parentIdentities.length ≤ index.toNat))
    "transaction target parent index is outside limits"
  let relative ← decodePath entry.target
  validateRelativePath relative
  reject (targets.contains entry.target.units)
    "duplicate transaction target"
  return entry.target.units :: targets

def validatePending (paths : List (List UInt32)) (pending : JournalPath) :
    Except CliError (List (List UInt32)) := do
  let relative ← decodePath pending
  validateRelativePath relative
  reject (relative = [] ∨ paths.contains pending.units)
    "pending output directory path is invalid or duplicated"
  return pending.units :: paths

def validateCreated (p : Place) (paths : List (List UInt32)) (created : CreatedDirectory) :
    Except CliError (List (List UInt32)) := do
  let relative ← decodePath created.path
  validateRelativePath relative
  reject (relative = [] ∨ paths.contains created.path.units)
    "created output directory path is invalid or duplicated"
  let identity ← p.openDirectory relative
  reject (identity.any (· ≠ created.identity))
    "created output directory identity changed"
  return created.path.units :: paths

/-- `validate_journal_handle`. -/
def validateJournal (p : Place) (j : Journal) : Except CliError Unit := do
  reject (j.signature ≠ journalSignature ∨ j.version ≠ journalVersion)
    "invalid transaction signature or version"
  reject (!isNonce j.nonce || !([transactionPrefix, initialPrefix, cleanupPrefix].any fun kind =>
      p.directoryName = kind ++ j.nonce))
    "transaction nonce does not match directory"
  reject (j.entries = [] ∨ maxJournalEntries < j.entries.length)
    "transaction entry count is outside limits"
  let encodedRoot ← decodePath j.root
  reject (components encodedRoot ≠ components p.rootPath ∨ j.rootIdentity ≠ p.rootIdentity)
    "transaction root does not match recovery root"
  let _ ← j.entries.foldlM (validateEntry j) []
  reject (j.entries.length < j.parentIdentities.length ∨ ¬ j.parentIdentities.Nodup)
    "journal physical parent identities are invalid"
  reject (maxJournalEntries < j.createdDirectories.length + j.pendingDirectories.length)
    "created output directory inventory exceeds its limit"
  let paths ← j.pendingDirectories.foldlM validatePending []
  let _ ← j.createdDirectories.foldlM (validateCreated p) paths

theorem reject_ok {bad : Prop} [Decidable bad] {detail : String} {u : Unit}
    (h : reject bad detail = .ok u) : ¬ bad := by
  intro hbad
  rw [reject, if_pos hbad] at h
  cases h

/-- The parents of a valid journal are told apart. -/
theorem validateJournal_nodup {p : Place} {j : Journal} (h : validateJournal p j = .ok ()) :
    j.parentIdentities.Nodup := by
  replace ⟨_, _, h⟩ := ok_bind h
  replace ⟨_, _, h⟩ := ok_bind h
  replace ⟨_, _, h⟩ := ok_bind h
  replace ⟨_, _, h⟩ := ok_bind h
  replace ⟨_, _, h⟩ := ok_bind h
  replace ⟨_, _, h⟩ := ok_bind h
  obtain ⟨_, hparents, _⟩ := ok_bind h
  have hgood := reject_ok hparents
  push Not at hgood
  exact hgood.2

end IntoMarkdown.Transaction
