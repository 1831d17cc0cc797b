import IntoMarkdown.Lib.Directory
import IntoMarkdown.Recovery.Envelope

/-! # The checkpoint store

The operations of the store on its directory, under the token lock. A commit is
a list of atomic file system steps, so a crash is a prefix of the list. The
directory holds regular files only; an inode keeps the bytes written to it. -/

namespace IntoMarkdown.Recovery
open IntoMarkdown.Core

/-! ## Names -/

def phaseName (token : RecoveryToken) (phase : TaskPhase) : String :=
  token.text ++ "." ++ phase.fileLabel ++ ".checkpoint"

def lockName (token : RecoveryToken) : String := token.text ++ ".lock"

def purgeNames (token : RecoveryToken) : List String :=
  [phaseName token .succeeded, phaseName token .converted, phaseName token .media,
    lockName token]

def purgeQuarantineName (source : String) : String := "." ++ source ++ ".retention-trash"

def temporaryName (token : RecoveryToken) (nonce : String) : String :=
  "." ++ token.text ++ "." ++ nonce ++ ".tmp"

/-! ## Operations on the directory -/

abbrev Files := Directory String Bytes

def errnoText : Errno → String
  | .noent => "No such file or directory (os error 2)"
  | .exist => "File exists (os error 17)"

def recoveryIo (operation : String) (error : Errno) : ConversionError :=
  recoveryError "io" s!"{operation}: {errnoText error}"

def createRegular (d : Files) (name : String) : Except ConversionError Files :=
  (d.create name []).mapError (recoveryIo "create checkpoint temporary file")

def linkNoReplace (d : Files) (source target : String) : Except ConversionError Files :=
  (d.link source target).mapError fun
    | .exist => recoveryError "conflict" "another task invocation published this phase"
    | .noent => recoveryIo "publish checkpoint" .noent

/-- A missing name is as good as an unlinked one. -/
def unlink (d : Files) (name : String) : Files :=
  match d.unlink name with
  | .ok d' => d'
  | .error _ => d

def renameReplace (d : Files) (source target : String) : Except ConversionError Files :=
  (d.rename source target).mapError (recoveryIo "replace media checkpoint")

def renameNoReplace (d : Files) (source target : String) : Except ConversionError Files :=
  (d.renameNoReplace source target).mapError (recoveryIo "quarantine checkpoint")

def openLock (d : Files) (name : String) : Files :=
  match d.create name [] with
  | .ok d' => d'
  | .error _ => d

def requireSinglyLinked (d : Files) (inode : Nat) (label : String) :
    Except ConversionError Unit :=
  if d.linkCount inode = 1 then .ok ()
  else .error (recoveryError "unsafePath" (label ++ " is not a singly linked regular file"))

/-! ## Commits -/

inductive Step where
  | create (name : String)
  | write (bytes : Bytes)
  | syncFile
  | link (source target : String)
  | rename (source target : String)
  | unlink (name : String)
  | sync
  deriving DecidableEq, Repr

/-- The directory, and the file that the commit has open. -/
structure Session where
  directory : Files
  file : Option Nat := none

def Step.apply (s : Session) : Step → Except ConversionError Session
  | .create name => do
    let d ← createRegular s.directory name
    return ⟨d, some s.directory.inodes.length⟩
  | .write bytes =>
    match s.file with
    | some i => .ok { s with directory := s.directory.write i (· ++ bytes) }
    | none => .ok s
  | .syncFile | .sync => .ok s
  | .link source target => do
    return { s with directory := ← linkNoReplace s.directory source target }
  | .rename source target => do
    return { s with directory := ← renameReplace s.directory source target }
  | .unlink name => .ok { s with directory := Recovery.unlink s.directory name }

/-- The steps are executed up to the first one that fails. -/
def run : List Step → Session → Session × Except ConversionError Unit
  | [], s => (s, .ok ())
  | step :: steps, s =>
    match step.apply s with
    | .ok s' => run steps s'
    | .error e => (s, .error e)

/-- The pieces in which a file is written. -/
def pieces : List Nat → Bytes → List Bytes
  | [], bytes => [bytes]
  | n :: sizes, bytes => bytes.take n :: pieces sizes (bytes.drop n)

def publishSteps (temporary target : String) (replace : Bool) : List Step :=
  if replace then [.rename temporary target]
  else [.link temporary target, .sync, .unlink temporary]

section Commit
variable {T : Type} (c : Codec T)

/-- `replace_media` is the commit of a media checkpoint, `commit` that of the others. -/
def Commit.replace (job : Commit T) : Bool := job.phase c = .media

def Commit.target (job : Commit T) : String := phaseName job.token (job.phase c)

def Commit.temporary (job : Commit T) : String := temporaryName job.token job.nonce

/-- The steps of `commit_inner`; an envelope that does not fit is noticed when its
payload has been written. -/
def Commit.steps (job : Commit T) : List Step :=
  match job.envelope c with
  | .ok bytes =>
    .create job.temporary :: (pieces job.sizes bytes).map Step.write ++
      .syncFile :: publishSteps job.temporary (job.target c) (job.replace c) ++ [.sync]
  | .error _ =>
    .create job.temporary :: (pieces job.sizes (magic ++ job.payloadJson c)).map Step.write

/-- What `commit_inner` checks before its first step. -/
def commitCheck (d : Files) (job : Commit T) : Except ConversionError Unit :=
  match d.lookup (job.target c) with
  | none => .ok ()
  | some i =>
    if job.replace c then requireSinglyLinked d i "checkpoint selected for replacement"
    else .error (recoveryError "conflict" "a checkpoint already occupies this task phase")

def commitInner (d : Files) (job : Commit T) : Files × Except ConversionError Unit :=
  match commitCheck c d job with
  | .error e => (d, .error e)
  | .ok () =>
    let (s, result) := run (job.steps c) { directory := d }
    match result, job.envelope c with
    | .ok (), .ok _ => (s.directory, .ok ())
    | .ok (), .error e => (unlink s.directory job.temporary, .error e)
    | .error e, _ => (unlink s.directory job.temporary, .error e)

/-- The directory after a crash that lets the commit execute `k` steps. -/
def cutOff (d : Files) (job : Commit T) (k : Nat) : Files :=
  match commitCheck c d job with
  | .error _ => d
  | .ok () => (run ((job.steps c).take k) { directory := d }).1.directory

/-- The crash has come before the temporary file or after its name has gone:
at most the last directory sync is missing. -/
def CleanCut (job : Commit T) (k : Nat) : Prop :=
  k = 0 ∨ (job.envelope c).isOk = true ∧ (job.steps c).length ≤ k + 1

instance (job : Commit T) (k : Nat) : Decidable (CleanCut c job k) :=
  inferInstanceAs (Decidable (_ ∨ _))

def removeMedia (d : Files) (token : RecoveryToken) : Files :=
  unlink d (phaseName token .media)

/-! ## Reading -/

/-- The first phase that has a checkpoint, and the inode of that. -/
def latest (d : Files) (token : RecoveryToken) : Option (TaskPhase × Nat) :=
  [TaskPhase.succeeded, .converted, .media].findSome? fun phase =>
    (d.lookup (phaseName token phase)).map fun i => (phase, i)

def fileBytes (d : Files) (inode : Nat) : Bytes := (d.content inode).getD []

def inspect (d : Files) (token : RecoveryToken) :
    Except ConversionError (Option TaskCheckpoint) :=
  match latest d token with
  | none => .ok none
  | some (phase, i) => (inspectFile c (fileBytes d i) token phase).map some

def load (context : Memory.State) (d : Files) (token : RecoveryToken) :
    Except ConversionError (Option (TaskCheckpoint × T)) :=
  match latest d token with
  | none => .ok none
  | some (phase, i) => (loadFile c context (fileBytes d i) token phase).map some

end Commit

/-! ## Purging -/

def verifyLinks (d : Files) (names : List String) (label : String) :
    Except ConversionError Unit :=
  names.forM fun name =>
    match d.lookup name with
    | none => .ok ()
    | some i => requireSinglyLinked d i label

def verifyPurge (d : Files) (token : RecoveryToken) : Except ConversionError Unit :=
  verifyLinks d (purgeNames token) "checkpoint selected for deletion"

def purgeName (d : Files) (name : String) : Except ConversionError Files :=
  match d.lookup name with
  | none => .ok d
  | some i => do
    requireSinglyLinked d i "checkpoint selected for deletion"
    return unlink d name

def purge (d : Files) (token : RecoveryToken) : Except ConversionError Files := do
  verifyPurge d token
  (purgeNames token).foldlM purgeName d

def verifyQuarantinedPurge (d : Files) (token : RecoveryToken) : Except ConversionError Unit :=
  verifyLinks d ((purgeNames token).map purgeQuarantineName) "quarantined checkpoint"

/-- Renames that are undone, as far as they can be. -/
def rollback (d : Files) (moved : List (String × String)) : Files :=
  moved.foldl (fun d move => ((renameNoReplace d move.2 move.1).toOption).getD d) d

/-- The loop of `quarantine_purge`, with the renames done so far, the last one first. -/
def quarantineNames : List String → Files → List (String × String) →
    Files × Except ConversionError (List (String × String))
  | [], d, moved => (d, .ok moved)
  | source :: names, d, moved =>
    match d.lookup source with
    | none => quarantineNames names d moved
    | some _ =>
      match renameNoReplace d source (purgeQuarantineName source) with
      | .error e => (rollback d moved, .error e)
      | .ok d' => quarantineNames names d' ((source, purgeQuarantineName source) :: moved)

/-- A directory sync does not fail here, so only the second verification leads to
the second rollback. -/
def quarantinePurge (d : Files) (token : RecoveryToken) : Files × Except ConversionError Unit :=
  match verifyPurge d token with
  | .error e => (d, .error e)
  | .ok () =>
    match quarantineNames (purgeNames token) d [] with
    | (d', .error e) => (d', .error e)
    | (d', .ok moved) =>
      match verifyQuarantinedPurge d' token with
      | .ok () => (d', .ok ())
      | .error e => (rollback d' moved, .error e)

def restoreName (d : Files) (source : String) : Except ConversionError Files :=
  match d.lookup (purgeQuarantineName source) with
  | none => .ok d
  | some _ => renameNoReplace d (purgeQuarantineName source) source

def restorePurge (d : Files) (token : RecoveryToken) : Except ConversionError Files := do
  verifyQuarantinedPurge d token
  (purgeNames token).foldlM restoreName d

def finishPurge (d : Files) (token : RecoveryToken) : Except ConversionError Files := do
  verifyQuarantinedPurge d token
  return (purgeNames token).foldl (fun d name => unlink d (purgeQuarantineName name)) d

/-! ## A conversion and its retry -/

section Convert
variable {T : Type} (c : Codec T)

/-- The commits that a conversion makes when it runs from the start. -/
structure Conversion (T : Type) where
  media : List (Commit T)
  converted : Commit T
  succeeded : Commit T

def checkFingerprints (m : TaskCheckpoint) (input options : Fingerprint) :
    Except ConversionError Unit :=
  if m.inputFingerprint ≠ input.text then
    .error (recoveryError "incompatible" "resolved input fingerprint changed")
  else if m.optionsFingerprint ≠ options.text then
    .error (recoveryError "incompatible" "conversion configuration changed")
  else .ok ()

/-- Commits in a row, up to the first one that fails. -/
def commitAll (d : Files) : List (Commit T) → Files × Except ConversionError Unit
  | [] => (d, .ok ())
  | job :: jobs =>
    match commitInner c d job with
    | (d', .ok ()) => commitAll d' jobs
    | (d', .error e) => (d', .error e)

/-- The conversion itself, and its two last commits. -/
def convertFromStart (d : Files) (token : RecoveryToken) (work : Conversion T) :
    Files × Except ConversionError Unit :=
  match commitAll c d (work.media ++ [work.converted]) with
  | (d', .error e) => (d', .error e)
  | (d', .ok ()) => commitInner c (removeMedia d' token) work.succeeded

def phaseError : TaskPhase → ConversionError
  | .media => recoveryError "corrupt" "media checkpoint payload does not match its phase"
  | _ => recoveryError "corrupt" "checkpoint payload does not match its phase"

/-- What `convert` does with the store. -/
def convert (context : Memory.State) (d : Files) (token : RecoveryToken)
    (input options : Fingerprint) (work : Conversion T) : Files × Except ConversionError Unit :=
  let d := openLock d (lockName token)
  let checked := do
    if let some m ← inspect c d token then checkFingerprints m input options
    let existing ← load c context d token
    if let some (m, value) := existing then
      checkFingerprints m input options
      if m.phase ≠ c.phase value then throw (phaseError (c.phase value))
    return existing
  match checked with
  | .error e => (d, .error e)
  | .ok none => convertFromStart c d token work
  | .ok (some (m, _)) =>
    match m.phase with
    | .succeeded => (d, .ok ())
    | .converted => commitInner c d work.succeeded
    | .media => convertFromStart c d token work

end Convert

end IntoMarkdown.Recovery
