import IntoMarkdown.Core.Progress
import IntoMarkdown.Plugin.Frame

/-! # The host's side of a plugin process

The plugin writes its stream in pieces, a thread reads frames from it and passes
them through a channel with one place, and the host takes them in the order of the
protocol. -/

namespace IntoMarkdown.Plugin
open Core.Progress (ExecutionStage Report)

/-! ## Errors -/

inductive PluginErrorCode where
  | authority | sandboxUnavailable | launch | protocol | frameTooLarge | crashed | timeout
  | cancelled | invalidResult | plugin | resourceLimit | processMemoryLimit | ocrRecognitionMemory
  | componentUnavailable | ocrWidthLimit | ocrPixelLimit | ocrTensorLimit | ocrStructureLimit
  deriving DecidableEq

structure PluginError where
  code : PluginErrorCode
  detail : String
  deriving DecidableEq

/-- The whole characters within the first `limit` bytes. -/
def clip : Nat → List Char → List Char
  | _, [] => []
  | limit, c :: rest =>
    if c.utf8Size ≤ limit then c :: clip (limit - c.utf8Size) rest else []

def PluginError.new (code : PluginErrorCode) (detail : String) : PluginError :=
  ⟨code, String.ofList (clip 512 detail.toList)⟩

def terminalErrorCode (code : String) : PluginErrorCode :=
  if code = "ocrRecognitionMemory" then .ocrRecognitionMemory
  else if code = "componentUnavailable" then .componentUnavailable
  else if code = "ocrWidthLimit" then .ocrWidthLimit
  else if code = "ocrPixelLimit" then .ocrPixelLimit
  else if code = "ocrTensorLimit" then .ocrTensorLimit
  else if code = "ocrStructureLimit" then .ocrStructureLimit
  else if code = "resourceLimit" then .resourceLimit
  else if code = "processMemoryLimit" then .processMemoryLimit
  else if code = "cancelled" then .cancelled
  else if code = "timeout" then .timeout
  else .plugin

/-! ## Sessions -/

/-- The limits of a policy that `validate_policy` accepts. -/
structure RuntimePolicy where
  maxFrameBytes : UInt32
  maxOutputBytes : UInt64
  maxFileBytes : UInt64
  frameRange : 1024 ≤ maxFrameBytes.toNat ∧ maxFrameBytes.toNat ≤ absoluteMaxFrameBytes.toNat
  outputRange : 0 < maxOutputBytes.toNat ∧ maxOutputBytes.toNat ≤ maxFrameBytes.toNat
  fileRange : 0 < maxFileBytes.toNat

/-- What one execution knows before it starts its plugin. The readers of a
diagnostics envelope and of its records belong to the core, and `describe` gives
the text of a decoder's error. -/
structure Session (δ D : Type) where
  pluginId : String
  executableSha256 : String
  protocolVersions : List UInt32
  nonce : String
  requestId : String
  policy : RuntimePolicy
  fromJson : String → Option (List δ)
  tryFrom : δ → Option D
  describe : List UInt8 → String

structure RawPluginExecution (D : Type) where
  resultJson : String
  diagnostics : List D
  pluginId : String
  executableSha256 : String
  deriving DecidableEq

/-- What the event loop keeps from one frame to the next. -/
structure Events (D : Type) where
  lastSequence : UInt64 := 0
  eventCount : Nat := 0
  diagnostics : List D := []
  diagnosticBytes : Nat := 0
  reports : List Report := []

abbrev Received := Except FrameError PluginMessage

variable {δ D : Type}

def FrameError.text (describe : List UInt8 → String) : FrameError → String
  | .streamEnded => "stream ended before frame"
  | .truncatedPrefix => "truncated frame prefix"
  | .exceedsLimit => "frame exceeds limit"
  | .lengthOverflow => "frame length overflow"
  | .truncatedBody => "truncated frame body"
  | .invalidData body => describe body

/-- `str::contains` -/
def contains (text part : String) : Prop := part.toList <:+: text.toList

instance (text part : String) : Decidable (contains text part) :=
  inferInstanceAs (Decidable (_ <:+: _))

def classifyReceivedFrame (S : Session δ D) (error : FrameError) : PluginError :=
  let detail := error.text S.describe
  let code : PluginErrorCode :=
    if contains detail "stream ended before frame" then .crashed
    else if contains detail "exceeds limit" then .frameTooLarge
    else .protocol
  let stableDetail :=
    if contains detail "stream ended before frame" then "plugin protocol stream ended"
    else if contains detail "truncated frame" then "plugin protocol frame was truncated"
    else if contains detail "exceeds limit" then "plugin protocol frame exceeds its limit"
    else "plugin emitted invalid protocol data"
  .new code stableDetail

def mapWriteError (text : String) : PluginError :=
  .new (if contains text "exceeds limit" then .frameTooLarge else .protocol)
    "host could not write protocol frame"

/-! ## One frame -/

def checkHello (S : Session δ D) : PluginMessage → Except PluginError Unit
  | .hello selectedVersion pluginId echoed =>
    if selectedVersion = protocolV1 ∧ selectedVersion ∈ S.protocolVersions ∧
        pluginId = S.pluginId ∧ echoed = S.nonce then .ok ()
    else .error (.new .protocol "invalid handshake response")
  | _ => .error (.new .protocol "invalid handshake response")

def validateEvent (version : UInt32) (id expected : String) (sequence last : UInt64) :
    Except PluginError UInt64 :=
  if version ≠ protocolV1 ∨ id ≠ expected ∨ sequence = 0 ∨ sequence ≤ last then
    .error (.new .protocol "invalid event identity or ordering")
  else .ok sequence

def parseStage (stage : String) : Except PluginError ExecutionStage :=
  if stage = "resolving" then .ok .resolving
  else if stage = "detecting" then .ok .detecting
  else if stage = "probing" then .ok .probing
  else if stage = "converting" then .ok .converting
  else if stage = "ai" then .ok .ai
  else if stage = "ocr" then .ok .ocr
  else if stage = "rendering" then .ok .rendering
  else if stage = "completed" then .ok .completed
  else .error (.new .protocol "unknown progress stage")

def isAsciiAlphanumeric (c : Char) : Bool :=
  ('0' ≤ c && c ≤ '9') || ('A' ≤ c && c ≤ 'Z') || ('a' ≤ c && c ≤ 'z')

def validToken (value : String) (maximum : Nat) : Bool :=
  value.toList ≠ [] && value.utf8ByteSize ≤ maximum &&
    value.toList.all fun c => isAsciiAlphanumeric c || c = '.' || c = '_' || c = '-'

def isControl (c : Char) : Bool := c.toNat < 32 || (127 ≤ c.toNat && c.toNat < 160)

def eventLimit : PluginError := .new .resourceLimit "plugin event limit exceeded"

/-- A progress event. `report` fails only where a checkpoint does. -/
def onProgress (S : Session δ D) (events : Events D) (version : UInt32) (id : String)
    (sequence : UInt64) (stage : String) (completedUnits totalUnits : Option UInt64)
    (message : Option String) : Except PluginError (Events D) := do
  let eventCount := min (events.eventCount + 1) (2 ^ 32 - 1)
  if 10000 < eventCount ∨ message.any (fun text => 4096 < text.utf8ByteSize) then throw eventLimit
  let lastSequence ← validateEvent version id S.requestId sequence events.lastSequence
  let stage ← parseStage stage
  let report : Report :=
    ⟨stage, completedUnits.map UInt64.toNat, totalUnits.map UInt64.toNat, message⟩
  return { events with eventCount, lastSequence, reports := events.reports ++ [report] }

def readDiagnosticEvent (S : Session δ D) (json : String) : Except PluginError D :=
  match S.fromJson json with
  | none => .error (.new .protocol "invalid diagnostic event")
  | some [record] =>
    match S.tryFrom record with
    | none => .error (.new .protocol "invalid diagnostic event")
    | some diagnostic => .ok diagnostic
  | some _ => .error (.new .protocol "diagnostic event must contain exactly one record")

def onDiagnostic (S : Session δ D) (events : Events D) (version : UInt32) (id : String)
    (sequence : UInt64) (json : String) : Except PluginError (Events D) := do
  let eventCount := min (events.eventCount + 1) (2 ^ 32 - 1)
  let diagnosticBytes := min (events.diagnosticBytes + json.utf8ByteSize) (2 ^ 64 - 1)
  if 10000 < eventCount ∨ S.policy.maxOutputBytes.toNat < diagnosticBytes then throw eventLimit
  let lastSequence ← validateEvent version id S.requestId sequence events.lastSequence
  let diagnostic ← readDiagnosticEvent S json
  return { events with eventCount, diagnosticBytes, lastSequence,
                       diagnostics := events.diagnostics ++ [diagnostic] }

def onResponse (S : Session δ D) (events : Events D) (version : UInt32) (id resultJson : String) :
    Except PluginError (RawPluginExecution D) :=
  if version ≠ protocolV1 ∨ id ≠ S.requestId then
    .error (.new .protocol "terminal response identity mismatch")
  else if S.policy.maxOutputBytes.toNat < resultJson.utf8ByteSize then
    .error (.new .frameTooLarge "nested result exceeds output limit")
  else if 2 ^ 64 ≤ resultJson.utf8ByteSize + events.diagnosticBytes ∨
      S.policy.maxOutputBytes.toNat < resultJson.utf8ByteSize + events.diagnosticBytes then
    .error (.new .frameTooLarge "combined result and diagnostics exceed output limit")
  else .ok ⟨resultJson, events.diagnostics, S.pluginId, S.executableSha256⟩

/-- The error that a plugin returned, without control characters. -/
def returnedError (code message : String) : PluginError :=
  let shown := message.toList.map fun c => if isControl c then ' ' else c
  .new (terminalErrorCode code) ("plugin returned " ++ code ++ ": " ++ String.ofList shown)

def onError (S : Session δ D) (version : UInt32) (id : Option String) (code message : String) :
    PluginError :=
  if version ≠ protocolV1 ∨ id ≠ some S.requestId ∨ ¬ validToken code 64 ∨
      4096 < message.utf8ByteSize then
    .new .protocol "invalid plugin error frame"
  else returnedError code message

/-- What a frame of the event loop leads to: more events, or the terminal response. -/
def onMessage (S : Session δ D) (events : Events D) :
    PluginMessage → Except PluginError (Events D ⊕ RawPluginExecution D)
  | .progress version id sequence stage completedUnits totalUnits message =>
    (onProgress S events version id sequence stage completedUnits totalUnits message).map .inl
  | .diagnostic version id sequence json =>
    (onDiagnostic S events version id sequence json).map .inl
  | .response version id resultJson => (onResponse S events version id resultJson).map .inr
  | .error version id code message => .error (onError S version id code message)
  | .hello .. => .error (.new .protocol "duplicate handshake")

/-! ## The reader thread -/

inductive Reader where
  | header (got : List UInt8)
  | body (length : Nat) (got : List UInt8)
  | full (frame : Received)
  | ended

namespace Reader

/-- The bytes that the next read asks for. -/
def wants : Reader → Nat
  | header got => 4 - got.length
  | body length got => length - got.length
  | full _ => 0
  | ended => 0

/-- The bytes that the reader holds for the body of its frame. -/
def allocated : Reader → Nat
  | body length _ => length
  | _ => 0

def onHeader (maximum : UInt32) : List UInt8 → Reader
  | a :: b :: c :: d :: _ =>
    if outOfLimit maximum (fromLeBytes a b c d) then full (.error .exceedsLimit)
    else body (fromLeBytes a b c d) []
  | got => header got

/-- A read that returned some bytes. -/
def accept (maximum : UInt32) (bytes : List UInt8) : Reader → Reader
  | header got => onHeader maximum (got ++ bytes)
  | body length got =>
    if (got ++ bytes).length < length then body length (got ++ bytes)
    else full (decodeBody PluginMessage.schema (got ++ bytes))
  | r => r

/-- A read that returned no bytes. -/
def finish : Reader → Reader
  | header [] => full (.error .streamEnded)
  | header _ => full (.error .truncatedPrefix)
  | body _ _ => full (.error .truncatedBody)
  | r => r

/-- The reader after its frame is in the channel. -/
def sent : Received → Reader
  | .ok _ => header []
  | .error _ => ended

end Reader

/-! ## The whole system -/

/-- How the host's writes and the exit of the plugin turn out: the text of a failed
write of the greeting, the error of a request that could not be staged or written,
and whether the process exited in time and with success. -/
structure Environment where
  helloWrite : Option String
  requestWrite : Option PluginError
  exit : Option Bool

inductive Phase (D : Type) where
  | greeting
  | handshake
  | requesting
  | conversing (events : Events D)
  | waiting (execution : RawPluginExecution D)
  | draining (execution : RawPluginExecution D) (extra : Bool)
  | done (result : Except PluginError (RawPluginExecution D))

structure System (D : Type) where
  unwritten : List UInt8
  pipe : List UInt8 := []
  closed : Bool := false
  reader : Reader := .header []
  slot : Option Received := none
  phase : Phase D := .greeting

inductive Action where
  | write (count : Nat) | close | read (count : Nat) | send | host
  deriving DecidableEq

def finishDrain (execution : RawPluginExecution D) (extra : Bool) :
    Except PluginError (RawPluginExecution D) :=
  if extra then .error (.new .protocol "frame followed terminal response") else .ok execution

namespace Phase

/-- The host's next step where it waits for no frame. -/
def proceed (env : Environment) : Phase D → Option (Phase D)
  | greeting => match env.helloWrite with
    | none => some handshake
    | some text => some (done (.error (mapWriteError text)))
  | requesting => match env.requestWrite with
    | none => some (conversing {})
    | some error => some (done (.error error))
  | waiting execution =>
    if env.exit = some true then some (draining execution false)
    else some (done (.error (.new .crashed "plugin did not exit successfully after response")))
  | _ => none

/-- `receive_until`, and the drain of `join_after_drain`, with a frame. -/
def onFrame (S : Session δ D) (frame : Received) : Phase D → Option (Phase D)
  | handshake => match frame with
    | .error error => some (done (.error (classifyReceivedFrame S error)))
    | .ok message => match checkHello S message with
      | .ok () => some requesting
      | .error error => some (done (.error error))
  | conversing events => match frame with
    | .error error => some (done (.error (classifyReceivedFrame S error)))
    | .ok message => match onMessage S events message with
      | .ok (.inl events) => some (conversing events)
      | .ok (.inr execution) => some (waiting execution)
      | .error error => some (done (.error error))
  | draining execution extra => some (draining execution (extra || frame.isOk))
  | _ => none

/-- The same with a channel that has lost its sender. -/
def onDisconnect : Phase D → Option (Phase D)
  | handshake => some (done (.error (.new .crashed "plugin protocol stream ended")))
  | conversing _ => some (done (.error (.new .crashed "plugin protocol stream ended")))
  | draining execution extra => some (done (finishDrain execution extra))
  | _ => none

end Phase

def hostStep (S : Session δ D) (env : Environment) (s : System D) : Option (System D) :=
  match s.phase.proceed env with
  | some phase => some { s with phase }
  | none =>
    match s.slot, s.reader with
    | some frame, _ => (s.phase.onFrame S frame).map fun phase => { s with phase, slot := none }
    | none, .ended => s.phase.onDisconnect.map fun phase => { s with phase }
    | none, _ => none

def step (S : Session δ D) (env : Environment) (s : System D) : Action → Option (System D)
  | .write count =>
    if 0 < count ∧ count ≤ s.unwritten.length then
      some { s with unwritten := s.unwritten.drop count, pipe := s.pipe ++ s.unwritten.take count }
    else none
  | .close => if s.unwritten = [] ∧ s.closed = false then some { s with closed := true } else none
  | .read 0 =>
    if s.pipe = [] ∧ s.closed = true ∧ 0 < s.reader.wants then
      some { s with reader := s.reader.finish }
    else none
  | .read count =>
    if count ≤ s.pipe.length ∧ count ≤ s.reader.wants then
      some { s with pipe := s.pipe.drop count,
                    reader := s.reader.accept S.policy.maxFrameBytes (s.pipe.take count) }
    else none
  | .send =>
    match s.reader, s.slot with
    | .full frame, none => some { s with reader := .sent frame, slot := some frame }
    | _, _ => none
  | .host => hostStep S env s

end IntoMarkdown.Plugin
