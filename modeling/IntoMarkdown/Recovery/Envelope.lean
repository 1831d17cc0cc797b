import IntoMarkdown.Core.Memory

/-! # Checkpoint envelopes

A checkpoint file is a signature, the payload's JSON and a footer block of fixed
size with the metadata's JSON on one line. Bytes are kept as they are on disk;
`serde_json` and SHA-256 are parameters. -/

namespace IntoMarkdown.Recovery
open IntoMarkdown.Core

abbrev Bytes := List UInt8

def asciiBytes (s : String) : Bytes := s.toList.map fun c => UInt8.ofNat c.toNat

def checkpointSchemaVersion : Nat := 1
def tokenBytes : Nat := 16
def headerBlockBytes : Nat := 4 * 1024
def maxDocumentDepth : Nat := 16
def maxCheckpointJsonDepth : Nat := maxDocumentDepth * 8 + 32
def jsonValueAllocationBytes : Nat := 32
def magic : Bytes := asciiBytes "into-markdown-checkpoint-v1\n"

def recoveryError (reason detail : String) : ConversionError := .recovery reason detail

/-! ## Tokens, phases and metadata -/

/-- `is_ascii_hexdigit` and not `is_ascii_uppercase`. -/
def isLowerHexDigit (c : Char) : Bool :=
  (48 ≤ c.toNat && c.toNat ≤ 57) || (97 ≤ c.toNat && c.toNat ≤ 102)

def canonicalHex (length : Nat) (value : String) : Bool :=
  value.toList.length = length && value.toList.all isLowerHexDigit

structure RecoveryToken where
  text : String
  canonical : canonicalHex (tokenBytes * 2) text = true
  deriving DecidableEq

def RecoveryToken.parse (value : String) : Except ConversionError RecoveryToken :=
  if h : canonicalHex (tokenBytes * 2) value = true then .ok ⟨value, h⟩
  else .error (recoveryError "invalidToken" "recovery token is not canonical")

inductive TaskPhase where
  | media | converted | succeeded
  deriving DecidableEq, Repr

def TaskPhase.fileLabel : TaskPhase → String
  | .media => "media"
  | .converted => "converted"
  | .succeeded => "succeeded"

def TaskPhase.stages : TaskPhase → List String
  | .media => ["media"]
  | .converted => ["converted"]
  | .succeeded => ["converted", "rendered", "succeeded"]

structure TaskCheckpoint where
  schemaVersion : Nat
  token : String
  inputFingerprint : String
  optionsFingerprint : String
  phase : TaskPhase
  completedStages : List String
  payloadBytes : Nat
  payloadSha256 : String
  deriving DecidableEq

def canonicalSha256 (value : String) : Bool := canonicalHex 64 value

def TaskCheckpoint.validate (m : TaskCheckpoint) (token : RecoveryToken) (phase : TaskPhase)
    (measuredBytes : Nat) (measuredSha256 : Option String) : Except ConversionError Unit :=
  if m.schemaVersion ≠ checkpointSchemaVersion then
    .error (recoveryError "unsupportedVersion"
      s!"checkpoint schema {m.schemaVersion} is not supported")
  else if m.token ≠ token.text then
    .error (recoveryError "corrupt" "checkpoint token does not match its name")
  else if m.phase ≠ phase ∨ m.completedStages ≠ phase.stages then
    .error (recoveryError "corrupt" "checkpoint stage history is inconsistent")
  else if ¬ canonicalSha256 m.inputFingerprint ∨ ¬ canonicalSha256 m.optionsFingerprint then
    .error (recoveryError "corrupt" "checkpoint fingerprint is not canonical")
  else if m.payloadBytes ≠ measuredBytes ∨ ¬ canonicalSha256 m.payloadSha256 ∨
      measuredSha256.any fun digest => m.payloadSha256 ≠ digest then
    .error (recoveryError "corrupt" "checkpoint payload digest does not match")
  else .ok ()

/-- The fingerprints that the engine commits are its own SHA-256 digests. -/
structure Fingerprint where
  text : String
  canonical : canonicalSha256 text = true

def hex (bytes : Bytes) : String :=
  String.ofList (bytes.flatMap fun b => [Nat.digitChar (b.toNat / 16), Nat.digitChar (b.toNat % 16)])

/-! ## What serialises the data -/

/-- `serde_json` for the metadata and for the payload type `T`, and SHA-256.
`phase` is the variant of a payload. -/
structure Codec (T : Type) where
  phase : T → TaskPhase
  encodePayload : T → Bytes
  decodePayload : Bytes → Except String T
  encodeMetadata : TaskCheckpoint → Bytes
  decodeMetadata : Bytes → Except String TaskCheckpoint
  sha256 : Bytes → Bytes

/-! ## The bounded walk over a payload -/

inductive Container where
  | array | object
  deriving DecidableEq, Repr

structure JsonScan where
  stack : List (Container × Nat) := []
  values : Nat := 0
  inString : Bool := false
  escaped : Bool := false
  primitive : Bool := false
  stringBytes : Nat := 0
  deriving DecidableEq, Repr

def checkedSucc (n : Nat) (detail : String) : Except ConversionError Nat :=
  if n + 1 < Memory.u64Modulus then .ok (n + 1) else .error (recoveryError "limit" detail)

def checkedValue (values : Nat) : Except ConversionError Nat :=
  checkedSucc values "checkpoint JSON value count overflow"

def openContainer (s : JsonScan) (container : Container) : Except ConversionError JsonScan := do
  let values ← checkedValue s.values
  if maxCheckpointJsonDepth ≤ s.stack.length then
    throw (recoveryError "limit" "checkpoint JSON nesting is too deep")
  return { s with primitive := false, values, stack := (container, 1) :: s.stack }

def closeContainer (s : JsonScan) (expected : Container) : Except ConversionError JsonScan :=
  match s.stack with
  | [] => .error (recoveryError "corrupt" "checkpoint JSON delimiters are unbalanced")
  | (actual, _) :: rest =>
    if actual ≠ expected then
      .error (recoveryError "corrupt" "checkpoint JSON delimiters mismatch")
    else .ok { s with primitive := false, stack := rest }

def quote : UInt8 := 34
def backslash : UInt8 := 92
def newline : UInt8 := 10
def space : UInt8 := 32

/-- The loop body of `preflight_json`, without the checkpoint every 64 KiB. -/
def scanByte (s : JsonScan) (byte : UInt8) : Except ConversionError JsonScan := do
  if s.inString then
    let stringBytes ← checkedSucc s.stringBytes "checkpoint string size overflowed"
    let s := { s with stringBytes }
    if s.escaped then return { s with escaped := false }
    else if byte = backslash then return { s with escaped := true }
    else if byte = quote then return { s with inString := false }
    else return s
  else if byte = quote then
    let values ← checkedValue s.values
    return { s with primitive := false, inString := true, values }
  else if byte = 91 then openContainer s .array
  else if byte = 123 then openContainer s .object
  else if byte = 93 then closeContainer s .array
  else if byte = 125 then closeContainer s .object
  else if byte = 44 then
    match s.stack with
    | [] => throw (recoveryError "corrupt" "checkpoint JSON comma is outside a container")
    | (container, entries) :: rest =>
      let entries ← checkedSucc entries "checkpoint JSON entry count overflow"
      return { s with primitive := false, stack := (container, entries) :: rest }
  else if byte = 58 ∨ byte = space ∨ byte = 9 ∨ byte = 13 ∨ byte = newline then
    return { s with primitive := false }
  else if s.primitive then return s
  else
    let values ← checkedValue s.values
    return { s with primitive := true, values }

/-- The numbers of values and of string bytes. -/
def preflightJson (bytes : Bytes) : Except ConversionError (Nat × Nat) := do
  let s ← bytes.foldlM scanByte {}
  if s.inString ∨ s.stack ≠ [] then
    throw (recoveryError "corrupt" "checkpoint JSON is unterminated")
  return (s.values, s.stringBytes)

/-! ## Writing and reading an envelope -/

/-- A commit of one checkpoint: `nonce` names its temporary file, and the file
is written in pieces of these sizes and a last one. -/
structure Commit (T : Type) where
  token : RecoveryToken
  input : Fingerprint
  options : Fingerprint
  payload : T
  nonce : String
  sizes : List Nat

def newMetadata (token : RecoveryToken) (input options : Fingerprint) (phase : TaskPhase)
    (payloadBytes : Nat) (digest : Bytes) : TaskCheckpoint where
  schemaVersion := checkpointSchemaVersion
  token := token.text
  inputFingerprint := input.text
  optionsFingerprint := options.text
  phase := phase
  completedStages := phase.stages
  payloadBytes := payloadBytes
  payloadSha256 := hex digest

def headerBlock (header : Bytes) : Bytes :=
  header ++ newline :: List.replicate (headerBlockBytes - (header.length + 1)) space

def fixedHeaderJson (header : Bytes) : Except ConversionError Bytes :=
  let line := header.takeWhile (· ≠ newline)
  if line.length = header.length then
    .error (recoveryError "corrupt" "checkpoint metadata is unterminated")
  else if line = [] ∨ (header.drop (line.length + 1)).any (· ≠ space) then
    .error (recoveryError "corrupt" "checkpoint metadata padding is invalid")
  else .ok line

/-- What the store relies on: `serde_json` reads back what it has written, on one
line where it is metadata with a 64-bit length, the payloads are nested as IR is,
and a digest has 32 bytes. -/
structure Codec.Lawful {T : Type} (c : Codec T) : Prop where
  payload : ∀ p, c.decodePayload (c.encodePayload p) = .ok p
  walk : ∀ p, ∃ stats, preflightJson (c.encodePayload p) = .ok stats
  metadata : ∀ token input options phase n digest, n < Memory.u64Modulus → digest.length = 32 →
    c.decodeMetadata (c.encodeMetadata (newMetadata token input options phase n digest)) =
      .ok (newMetadata token input options phase n digest)
  line : ∀ token input options phase n digest, n < Memory.u64Modulus → digest.length = 32 →
    c.encodeMetadata (newMetadata token input options phase n digest) ≠ [] ∧
      newline ∉ c.encodeMetadata (newMetadata token input options phase n digest)
  digest : ∀ bytes, (c.sha256 bytes).length = 32

section Codec
variable {T : Type} (c : Codec T)

def Commit.phase (job : Commit T) : TaskPhase := c.phase job.payload

def Commit.payloadJson (job : Commit T) : Bytes := c.encodePayload job.payload

def Commit.metadata (job : Commit T) : TaskCheckpoint :=
  newMetadata job.token job.input job.options (job.phase c) (job.payloadJson c).length
    (c.sha256 (job.payloadJson c))

/-- What `commit_inner` writes. -/
def Commit.envelope (job : Commit T) : Except ConversionError Bytes :=
  let payload := job.payloadJson c
  let header := c.encodeMetadata (job.metadata c)
  if Memory.u64Modulus ≤ magic.length + payload.length + headerBlockBytes then
    .error (recoveryError "limit" "checkpoint write length overflow")
  else if headerBlockBytes ≤ header.length then
    .error (recoveryError "limit" "checkpoint metadata is oversized")
  else .ok (magic ++ (payload ++ headerBlock header))

def decodeMetadata (header : Bytes) : Except ConversionError TaskCheckpoint := do
  let line ← fixedHeaderJson header
  match c.decodeMetadata line with
  | .error e => throw (recoveryError "corrupt" s!"decode checkpoint metadata: {e}")
  | .ok metadata => return metadata

def inspectFile (bytes : Bytes) (token : RecoveryToken) (phase : TaskPhase) :
    Except ConversionError TaskCheckpoint := do
  let minimum := magic.length + headerBlockBytes
  if bytes.length < minimum then
    throw (recoveryError "corrupt" "checkpoint envelope is truncated")
  if bytes.take magic.length ≠ magic then
    throw (recoveryError "corrupt" "checkpoint signature is invalid")
  let metadata ← decodeMetadata c (bytes.drop (bytes.length - headerBlockBytes))
  metadata.validate token phase (bytes.length - minimum) none
  return metadata

def splitEnvelope (bytes : Bytes) (token : RecoveryToken) (phase : TaskPhase) :
    Except ConversionError (Bytes × TaskCheckpoint) := do
  if ¬ magic <+: bytes ∨ bytes.length < magic.length + headerBlockBytes then
    throw (recoveryError "corrupt" "checkpoint envelope is invalid")
  let footer := bytes.length - headerBlockBytes
  let payload := (bytes.take footer).drop magic.length
  let metadata ← decodeMetadata c (bytes.drop footer)
  metadata.validate token phase payload.length (some (hex (c.sha256 payload)))
  return (payload, metadata)

def reserveMemory (context : Memory.State) (amount : Nat) : Except ConversionError Memory.State :=
  Memory.checkedCharge context .memory amount context.limits.maxMemoryBytes
    (Memory.limitName .memory)

/-- What `load` does with an open checkpoint, on a context that is not
interrupted: the file is charged, read, authenticated, walked and decoded. -/
def loadFile (context : Memory.State) (bytes : Bytes) (token : RecoveryToken)
    (phase : TaskPhase) : Except ConversionError (TaskCheckpoint × T) := do
  let context ← reserveMemory context bytes.length
  let (payload, metadata) ← splitEnvelope c bytes token phase
  let (values, stringBytes) ← preflightJson payload
  if Memory.u64Modulus ≤ values * jsonValueAllocationBytes then
    throw (recoveryError "limit" "checkpoint allocation estimate overflow")
  let context ← reserveMemory context (values * jsonValueAllocationBytes)
  let _ ← reserveMemory context stringBytes
  match c.decodePayload payload with
  | .error e => throw (recoveryError "corrupt" s!"decode checkpoint payload: {e}")
  | .ok value => return (metadata, value)

def walkCharge : Except ConversionError (Nat × Nat) → Nat
  | .ok (values, stringBytes) => values * jsonValueAllocationBytes + stringBytes
  | .error _ => 0

/-- The bytes between the signature and the footer. -/
def payloadOf (bytes : Bytes) : Bytes :=
  (bytes.take (bytes.length - headerBlockBytes)).drop magic.length

/-- The memory that `load` charges for a checkpoint. -/
def loadCharge (bytes : Bytes) : Nat :=
  bytes.length + walkCharge (preflightJson (payloadOf bytes))

end Codec

end IntoMarkdown.Recovery
