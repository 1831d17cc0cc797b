import IntoMarkdown.Lib.Base64
import IntoMarkdown.Plugin.Conversation

/-! # The worker's side of a plugin process

The host puts the source into its request or into a file, the worker answers with the
frames of its handler's events and one terminal frame. -/

namespace IntoMarkdown.Plugin
open IntoMarkdown.Lib Json Transition

variable {δ D : Type}

/-! ## Requests -/

structure PluginRequest where
  requestId : String
  inputFormat : String
  sourceName : Option String
  parametersJson : Option String
  source : List UInt8

def validateRequest (request : PluginRequest) (policy : RuntimePolicy) : Except PluginError Unit :=
  if ¬ validToken request.requestId 128 ∨ ¬ validToken request.inputFormat 64 ∨
      request.source = [] ∨ policy.maxFileBytes.toNat < request.source.length ∨
      (request.sourceName.any fun name => 1024 < name.utf8ByteSize || name.toList.contains '\x00') ∨
      (request.parametersJson.any fun value =>
        64 * 1024 < value.utf8ByteSize || value.toList.contains '\x00') then
    .error (.new .resourceLimit "request exceeds process protocol limits")
  else .ok ()

/-- How the source travels: its text inside the frame, or the name of a staged file. -/
structure Transport where
  sourceBase64 : Option String
  sourcePath : Option String
  staged : Option (List UInt8)

def inlineSource (request : PluginRequest) : String := String.ofList (Base64.encode request.source)

def inlineTransport (request : PluginRequest) : Transport := ⟨some (inlineSource request), none, none⟩

def stagedTransport (request : PluginRequest) : Transport :=
  ⟨none, some "source.bin", some request.source⟩

def inlineRequestBytes (request : PluginRequest) : Nat :=
  (inlineSource request).utf8ByteSize + (request.parametersJson.elim 0 String.utf8ByteSize + 4096)

def chooseTransport (request : PluginRequest) (policy : RuntimePolicy) : Transport :=
  if inlineRequestBytes request ≤ policy.maxFrameBytes.toNat then inlineTransport request
  else stagedTransport request

def requestMessage (request : PluginRequest) (policy : RuntimePolicy) (transport : Transport) :
    HostMessage :=
  .request protocolV1 request.requestId request.inputFormat request.sourceName
    request.parametersJson transport.sourceBase64 transport.sourcePath policy.maxOutputBytes

def Fits {α : Type} (schema : Schema α) (maximum : UInt32) (value : α) : Prop :=
  ¬ outOfLimit maximum (Json.write decimal (schema.write value)).length

instance {α : Type} (schema : Schema α) (maximum : UInt32) (value : α) :
    Decidable (Fits schema maximum value) := inferInstanceAs (Decidable (¬ _))

/-- The launch of a plugin that `validate_manifest` accepts, for a request that
`validate_request` accepts and that can be sent with its source in a file. `toJson` is
the envelope of one diagnostic. -/
structure Launch (δ D : Type) extends Session δ D where
  request : PluginRequest
  toJson : D → Option String
  token : validToken pluginId 128 = true
  versions : protocolVersions.length ≤ 8 ∧ protocolV1 ∈ protocolVersions
  digest : nonce.toList.length = 64 ∧ ∀ c ∈ nonce.toList, isAsciiAlphanumeric c = true
  same : requestId = request.requestId
  accepted : validateRequest request policy = .ok ()
  fits : Fits HostMessage.schema policy.maxFrameBytes
    (requestMessage request policy (stagedTransport request))

/-! ## The worker -/

structure WorkerRequest where
  requestId : String
  inputFormat : String
  sourceName : Option String
  parametersJson : Option String
  source : List UInt8
  sourcePath : Option (List UInt8)
  maximumOutputBytes : UInt64

/-- The source as `conversion_handler` hands it on: a staged file is read. -/
def WorkerRequest.bytes (request : WorkerRequest) : List UInt8 :=
  if request.source = [] then request.sourcePath.getD [] else request.source

structure WorkerError where
  code : String
  message : String
  deriving DecidableEq

/-- A call of the event writer. -/
inductive Call (D : Type) where
  | progress (stage : String) (completedUnits totalUnits : Option UInt64) (message : Option String)
  | diagnostic (record : D)

/-- What a handler does: its calls one after another, and its result, which keeps
to the output limit. -/
structure HandlerRun (D : Type) (policy : RuntimePolicy) where
  calls : List (Call D)
  result : Except WorkerError String
  bounded : ∀ json, result = .ok json → json.utf8ByteSize ≤ policy.maxOutputBytes.toNat

section
variable (maximum : UInt32)

def receiveHello (pluginId : String) (input : List UInt8) : Option (String × List UInt8) :=
  match readFrame HostMessage.schema maximum input with
  | .ok (.hello versions expectedId nonce, rest) =>
    if expectedId ≠ pluginId ∨ protocolV1 ∉ versions then none else some (nonce, rest)
  | _ => none

/-- Exactly one of the two transports; a file has the one name that the host uses. -/
def sourceOf (staged : Option (List UInt8)) :
    Option String → Option String → Option (List UInt8 × Option (List UInt8))
  | some encoded, none => do
    let source ← Base64.decode encoded.toList
    guard (String.ofList (Base64.encode source) = encoded)
    return (source, none)
  | none, some path =>
    if path = "source.bin" then staged.map fun file => ([], some file) else none
  | _, _ => none

def receiveRequest (staged : Option (List UInt8)) (input : List UInt8) : Option WorkerRequest :=
  match readFrame HostMessage.schema maximum input with
  | .ok (.request version requestId inputFormat sourceName parametersJson sourceBase64 sourcePath
      maximumOutputBytes, _) =>
    if version ≠ protocolV1 then none
    else (sourceOf staged sourceBase64 sourcePath).map fun source =>
      ⟨requestId, inputFormat, sourceName, parametersJson, source.1, source.2, maximumOutputBytes⟩
  | _ => none

def callMessage (toJson : D → Option String) (requestId : String) (sequence : UInt64) :
    Call D → Option PluginMessage
  | .progress stage completedUnits totalUnits message =>
    some (.progress protocolV1 requestId sequence stage completedUnits totalUnits message)
  | .diagnostic record => (toJson record).map fun json =>
    .diagnostic protocolV1 requestId sequence json

def Call.diagnostics : Call D → List D
  | progress .. => []
  | diagnostic record => [record]

/-- The events that are written, with the diagnostics in them. A sequence number is
used up where its frame is too large. -/
def emit (toJson : D → Option String) (requestId : String) (next : Nat) :
    List (Call D) → List (PluginMessage × List D)
  | [] => []
  | call :: rest =>
    match callMessage toJson requestId (.ofNat next) call with
    | none => emit toJson requestId next rest
    | some message =>
      if 2 ^ 64 ≤ next + 1 then emit toJson requestId next rest
      else
        match writeFrame PluginMessage.schema maximum message with
        | .ok _ => (message, call.diagnostics) :: emit toJson requestId (next + 1) rest
        | .error _ => emit toJson requestId (next + 1) rest

def terminalMessage (requestId : String) (maximumOutputBytes : UInt64) :
    Except WorkerError String → PluginMessage
  | .ok resultJson =>
    if maximumOutputBytes.toNat < resultJson.utf8ByteSize then
      .error protocolV1 (some requestId) "outputLimit" "result exceeds declared output limit"
    else .response protocolV1 requestId resultJson
  | .error error => .error protocolV1 (some requestId) error.code error.message

/-- `write_frame` into the pipe: a frame that is refused leaves no bytes. -/
def written (message : PluginMessage) : List UInt8 :=
  match writeFrame PluginMessage.schema maximum message with
  | .ok bytes => bytes
  | .error _ => []

/-- What the worker writes, and whether it ends without an error. -/
def serveRaw (pluginId : String) (toJson : D → Option String) (staged : Option (List UInt8))
    (input : List UInt8) (calls : List (Call D)) (result : Except WorkerError String) :
    List UInt8 × Bool :=
  match receiveHello maximum pluginId input with
  | none => ([], false)
  | some (nonce, rest) =>
    match writeFrame PluginMessage.schema maximum (.hello protocolV1 pluginId nonce) with
    | .error _ => ([], false)
    | .ok hello =>
      match receiveRequest maximum staged rest with
      | none => (hello, false)
      | some request =>
        let events := (emit maximum toJson request.requestId 1 calls).map Prod.fst
        let terminal := terminalMessage request.requestId request.maximumOutputBytes result
        (hello ++ (events.flatMap (written maximum) ++ written maximum terminal),
          (writeFrame PluginMessage.schema maximum terminal).isOk)

end

/-! ## Both sides -/

namespace Launch
variable (L : Launch δ D)

def transport : Transport := chooseTransport L.request L.policy

def helloMessage : HostMessage := .hello L.protocolVersions L.pluginId L.nonce

def message : HostMessage := requestMessage L.request L.policy L.transport

def hostWritten (message : HostMessage) : List UInt8 :=
  match writeFrame HostMessage.schema L.policy.maxFrameBytes message with
  | .ok bytes => bytes
  | .error _ => []

/-- What the host writes to the worker. -/
def input : List UInt8 := L.hostWritten L.helloMessage ++ L.hostWritten L.message

def served (run : HandlerRun D L.policy) : List UInt8 × Bool :=
  serveRaw L.policy.maxFrameBytes L.pluginId L.toJson L.transport.staged L.input
    run.calls run.result

/-- The process exits with success where the worker ends without an error. -/
def environment (run : HandlerRun D L.policy) : Environment where
  helloWrite :=
    match writeFrame HostMessage.schema L.policy.maxFrameBytes L.helloMessage with
    | .ok _ => none
    | .error error => some (error.text L.describe)
  requestWrite :=
    match writeFrame HostMessage.schema L.policy.maxFrameBytes L.message with
    | .ok _ => none
    | .error error => some (mapWriteError (error.text L.describe))
  exit := some (L.served run).2

def stream (run : HandlerRun D L.policy) : List UInt8 := (L.served run).1

/-- The request that the worker gives to its handler. -/
def received : Option WorkerRequest :=
  match receiveHello L.policy.maxFrameBytes L.pluginId L.input with
  | none => none
  | some (_, rest) => receiveRequest L.policy.maxFrameBytes L.transport.staged rest

def sent (run : HandlerRun D L.policy) : List (PluginMessage × List D) :=
  emit L.policy.maxFrameBytes L.toJson L.request.requestId 1 run.calls

def terminal (run : HandlerRun D L.policy) : PluginMessage :=
  terminalMessage L.request.requestId L.policy.maxOutputBytes run.result

/-- What the handler's run is to the caller of the host. -/
def expected (run : HandlerRun D L.policy) : Except PluginError (RawPluginExecution D) :=
  match run.result with
  | .ok resultJson =>
    .ok ⟨resultJson, (L.sent run).flatMap Prod.snd, L.pluginId, L.executableSha256⟩
  | .error error => .error (returnedError error.code error.message)

end Launch

end IntoMarkdown.Plugin
