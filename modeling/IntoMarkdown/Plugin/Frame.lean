import IntoMarkdown.Lib.JsonSchema
import IntoMarkdown.Lib.JsonText

/-! # Frames of the process protocol

A frame is the length of its body in four bytes, lowest first, and the JSON of one
message. -/

namespace IntoMarkdown.Plugin
open IntoMarkdown.Lib Json

def protocolV1 : UInt32 := 1

/-- The ceiling of a frame whatever the policy is. -/
def absoluteMaxFrameBytes : UInt32 := 64 * 1024 * 1024

/-! ## Messages -/

inductive HostMessage where
  | hello (supportedVersions : List UInt32) (pluginId nonce : String)
  | request (protocolVersion : UInt32) (requestId inputFormat : String)
      (sourceName parametersJson sourceBase64 sourcePath : Option String)
      (maximumOutputBytes : UInt64)
  | cancel (protocolVersion : UInt32) (requestId : String)
  deriving DecidableEq

inductive PluginMessage where
  | hello (selectedVersion : UInt32) (pluginId nonce : String)
  | progress (protocolVersion : UInt32) (requestId : String) (sequence : UInt64) (stage : String)
      (completedUnits totalUnits : Option UInt64) (message : Option String)
  | diagnostic (protocolVersion : UInt32) (requestId : String) (sequence : UInt64)
      (diagnosticJson : String)
  | response (protocolVersion : UInt32) (requestId resultJson : String)
  | error (protocolVersion : UInt32) (requestId : Option String) (code message : String)
  deriving DecidableEq

/-- An object without members that are repeated or unknown. -/
def hasOnly (fields : List String) : Value Nat → Bool
  | .object entries =>
    decide (entries.map Prod.fst).Nodup && entries.all fun entry => fields.contains entry.1
  | _ => false

namespace HostMessage

def write : HostMessage → Value Nat
  | hello supportedVersions pluginId nonce => .object [
    ("type", .string "hello"),
    ("supported_versions", Schema.uint32.list.write supportedVersions),
    ("plugin_id", Schema.string.write pluginId),
    ("nonce", Schema.string.write nonce)]
  | request protocolVersion requestId inputFormat sourceName parametersJson sourceBase64 sourcePath
      maximumOutputBytes => .object [
    ("type", .string "request"),
    ("protocol_version", Schema.uint32.write protocolVersion),
    ("request_id", Schema.string.write requestId),
    ("input_format", Schema.string.write inputFormat),
    ("source_name", Schema.string.writeOption sourceName),
    ("parameters_json", Schema.string.writeOption parametersJson),
    ("source_base64", Schema.string.writeOption sourceBase64),
    ("source_path", Schema.string.writeOption sourcePath),
    ("maximum_output_bytes", Schema.uint64.write maximumOutputBytes)]
  | cancel protocolVersion requestId => .object [
    ("type", .string "cancel"),
    ("protocol_version", Schema.uint32.write protocolVersion),
    ("request_id", Schema.string.write requestId)]

def readHello (v : Value Nat) : Option HostMessage := do
  guard (hasOnly ["type", "supported_versions", "plugin_id", "nonce"] v)
  return hello (← v.member "supported_versions" Schema.uint32.list)
    (← v.member "plugin_id" Schema.string) (← v.member "nonce" Schema.string)

def readRequest (v : Value Nat) : Option HostMessage := do
  guard (hasOnly ["type", "protocol_version", "request_id", "input_format", "source_name",
    "parameters_json", "source_base64", "source_path", "maximum_output_bytes"] v)
  return request (← v.member "protocol_version" Schema.uint32)
    (← v.member "request_id" Schema.string) (← v.member "input_format" Schema.string)
    (← v.optional "source_name" Schema.string) (← v.optional "parameters_json" Schema.string)
    (← v.optional "source_base64" Schema.string) (← v.optional "source_path" Schema.string)
    (← v.member "maximum_output_bytes" Schema.uint64)

def readCancel (v : Value Nat) : Option HostMessage := do
  guard (hasOnly ["type", "protocol_version", "request_id"] v)
  return cancel (← v.member "protocol_version" Schema.uint32)
    (← v.member "request_id" Schema.string)

def read (v : Value Nat) : Option HostMessage := do
  let type ← v.member "type" Schema.string
  if type = "hello" then readHello v
  else if type = "request" then readRequest v
  else if type = "cancel" then readCancel v
  else none

theorem readHello_write (supportedVersions : List UInt32) (pluginId nonce : String) :
    readHello (hello supportedVersions pluginId nonce).write =
      some (hello supportedVersions pluginId nonce) := by
  rw [readHello, Value.member_write (s := Schema.uint32.list) (a := supportedVersions) rfl,
    Value.member_write (s := Schema.string) (a := pluginId) rfl,
    Value.member_write (s := Schema.string) (a := nonce) rfl]
  rfl

theorem readRequest_write (protocolVersion : UInt32) (requestId inputFormat : String)
    (sourceName parametersJson sourceBase64 sourcePath : Option String)
    (maximumOutputBytes : UInt64) :
    readRequest (request protocolVersion requestId inputFormat sourceName parametersJson
        sourceBase64 sourcePath maximumOutputBytes).write =
      some (request protocolVersion requestId inputFormat sourceName parametersJson sourceBase64
        sourcePath maximumOutputBytes) := by
  rw [readRequest, Value.member_write (s := Schema.uint32) (a := protocolVersion) rfl,
    Value.member_write (s := Schema.string) (a := requestId) rfl,
    Value.member_write (s := Schema.string) (a := inputFormat) rfl,
    Value.optional_write (s := Schema.string) (a := sourceName) rfl,
    Value.optional_write (s := Schema.string) (a := parametersJson) rfl,
    Value.optional_write (s := Schema.string) (a := sourceBase64) rfl,
    Value.optional_write (s := Schema.string) (a := sourcePath) rfl,
    Value.member_write (s := Schema.uint64) (a := maximumOutputBytes) rfl]
  rfl

theorem readCancel_write (protocolVersion : UInt32) (requestId : String) :
    readCancel (cancel protocolVersion requestId).write =
      some (cancel protocolVersion requestId) := by
  rw [readCancel, Value.member_write (s := Schema.uint32) (a := protocolVersion) rfl,
    Value.member_write (s := Schema.string) (a := requestId) rfl]
  rfl

theorem read_write (m : HostMessage) : read m.write = some m := by
  unfold read
  cases m with
  | hello supportedVersions pluginId nonce =>
    rw [Value.member_write (s := Schema.string) (a := "hello") rfl]
    exact readHello_write ..
  | request protocolVersion requestId inputFormat sourceName parametersJson sourceBase64 sourcePath
      maximumOutputBytes =>
    rw [Value.member_write (s := Schema.string) (a := "request") rfl]
    exact readRequest_write ..
  | cancel protocolVersion requestId =>
    rw [Value.member_write (s := Schema.string) (a := "cancel") rfl]
    exact readCancel_write ..

theorem depth_write (m : HostMessage) : m.write.depth ≤ 2 := by
  cases m with
  | hello supportedVersions pluginId nonce =>
    apply Value.depth_object
    have hversions := Schema.uint32.list.depth_write supportedVersions
    simp only [List.forall_mem_cons]
    exact ⟨Nat.zero_le _, hversions, Nat.zero_le _, Nat.zero_le _, List.forall_mem_nil _⟩
  | request protocolVersion requestId inputFormat sourceName parametersJson sourceBase64 sourcePath
      maximumOutputBytes =>
    apply Value.depth_object
    have htext := fun text => (Schema.string.depth_writeOption text).trans (Nat.zero_le 1)
    simp only [List.forall_mem_cons]
    exact ⟨Nat.zero_le _, Nat.zero_le _, Nat.zero_le _, Nat.zero_le _, htext _, htext _, htext _,
      htext _, Nat.zero_le _, List.forall_mem_nil _⟩
  | cancel protocolVersion requestId =>
    apply Value.depth_object
    simp only [List.forall_mem_cons]
    exact ⟨Nat.zero_le _, Nat.zero_le _, Nat.zero_le _, List.forall_mem_nil _⟩

def schema : Schema HostMessage where
  write := write
  read := read
  depth := 2
  read_write := read_write
  depth_write := depth_write
  write_ne_null m := by cases m <;> nofun

end HostMessage

namespace PluginMessage

def write : PluginMessage → Value Nat
  | hello selectedVersion pluginId nonce => .object [
    ("type", .string "hello"),
    ("selected_version", Schema.uint32.write selectedVersion),
    ("plugin_id", Schema.string.write pluginId),
    ("nonce", Schema.string.write nonce)]
  | progress protocolVersion requestId sequence stage completedUnits totalUnits message => .object [
    ("type", .string "progress"),
    ("protocol_version", Schema.uint32.write protocolVersion),
    ("request_id", Schema.string.write requestId),
    ("sequence", Schema.uint64.write sequence),
    ("stage", Schema.string.write stage),
    ("completed_units", Schema.uint64.writeOption completedUnits),
    ("total_units", Schema.uint64.writeOption totalUnits),
    ("message", Schema.string.writeOption message)]
  | diagnostic protocolVersion requestId sequence diagnosticJson => .object [
    ("type", .string "diagnostic"),
    ("protocol_version", Schema.uint32.write protocolVersion),
    ("request_id", Schema.string.write requestId),
    ("sequence", Schema.uint64.write sequence),
    ("diagnostic_json", Schema.string.write diagnosticJson)]
  | response protocolVersion requestId resultJson => .object [
    ("type", .string "response"),
    ("protocol_version", Schema.uint32.write protocolVersion),
    ("request_id", Schema.string.write requestId),
    ("result_json", Schema.string.write resultJson)]
  | error protocolVersion requestId code message => .object [
    ("type", .string "error"),
    ("protocol_version", Schema.uint32.write protocolVersion),
    ("request_id", Schema.string.writeOption requestId),
    ("code", Schema.string.write code),
    ("message", Schema.string.write message)]

def readHello (v : Value Nat) : Option PluginMessage := do
  guard (hasOnly ["type", "selected_version", "plugin_id", "nonce"] v)
  return hello (← v.member "selected_version" Schema.uint32)
    (← v.member "plugin_id" Schema.string) (← v.member "nonce" Schema.string)

def readProgress (v : Value Nat) : Option PluginMessage := do
  guard (hasOnly ["type", "protocol_version", "request_id", "sequence", "stage",
    "completed_units", "total_units", "message"] v)
  return progress (← v.member "protocol_version" Schema.uint32)
    (← v.member "request_id" Schema.string) (← v.member "sequence" Schema.uint64)
    (← v.member "stage" Schema.string) (← v.optional "completed_units" Schema.uint64)
    (← v.optional "total_units" Schema.uint64) (← v.optional "message" Schema.string)

def readDiagnostic (v : Value Nat) : Option PluginMessage := do
  guard (hasOnly ["type", "protocol_version", "request_id", "sequence", "diagnostic_json"] v)
  return diagnostic (← v.member "protocol_version" Schema.uint32)
    (← v.member "request_id" Schema.string) (← v.member "sequence" Schema.uint64)
    (← v.member "diagnostic_json" Schema.string)

def readResponse (v : Value Nat) : Option PluginMessage := do
  guard (hasOnly ["type", "protocol_version", "request_id", "result_json"] v)
  return response (← v.member "protocol_version" Schema.uint32)
    (← v.member "request_id" Schema.string) (← v.member "result_json" Schema.string)

def readError (v : Value Nat) : Option PluginMessage := do
  guard (hasOnly ["type", "protocol_version", "request_id", "code", "message"] v)
  return error (← v.member "protocol_version" Schema.uint32)
    (← v.optional "request_id" Schema.string) (← v.member "code" Schema.string)
    (← v.member "message" Schema.string)

def read (v : Value Nat) : Option PluginMessage := do
  let type ← v.member "type" Schema.string
  if type = "hello" then readHello v
  else if type = "progress" then readProgress v
  else if type = "diagnostic" then readDiagnostic v
  else if type = "response" then readResponse v
  else if type = "error" then readError v
  else none

theorem readHello_write (selectedVersion : UInt32) (pluginId nonce : String) :
    readHello (hello selectedVersion pluginId nonce).write =
      some (hello selectedVersion pluginId nonce) := by
  rw [readHello, Value.member_write (s := Schema.uint32) (a := selectedVersion) rfl,
    Value.member_write (s := Schema.string) (a := pluginId) rfl,
    Value.member_write (s := Schema.string) (a := nonce) rfl]
  rfl

theorem readProgress_write (protocolVersion : UInt32) (requestId : String) (sequence : UInt64)
    (stage : String) (completedUnits totalUnits : Option UInt64) (message : Option String) :
    readProgress (progress protocolVersion requestId sequence stage completedUnits totalUnits
        message).write =
      some (progress protocolVersion requestId sequence stage completedUnits totalUnits
        message) := by
  rw [readProgress, Value.member_write (s := Schema.uint32) (a := protocolVersion) rfl,
    Value.member_write (s := Schema.string) (a := requestId) rfl,
    Value.member_write (s := Schema.uint64) (a := sequence) rfl,
    Value.member_write (s := Schema.string) (a := stage) rfl,
    Value.optional_write (s := Schema.uint64) (a := completedUnits) rfl,
    Value.optional_write (s := Schema.uint64) (a := totalUnits) rfl,
    Value.optional_write (s := Schema.string) (a := message) rfl]
  rfl

theorem readDiagnostic_write (protocolVersion : UInt32) (requestId : String) (sequence : UInt64)
    (diagnosticJson : String) :
    readDiagnostic (diagnostic protocolVersion requestId sequence diagnosticJson).write =
      some (diagnostic protocolVersion requestId sequence diagnosticJson) := by
  rw [readDiagnostic, Value.member_write (s := Schema.uint32) (a := protocolVersion) rfl,
    Value.member_write (s := Schema.string) (a := requestId) rfl,
    Value.member_write (s := Schema.uint64) (a := sequence) rfl,
    Value.member_write (s := Schema.string) (a := diagnosticJson) rfl]
  rfl

theorem readResponse_write (protocolVersion : UInt32) (requestId resultJson : String) :
    readResponse (response protocolVersion requestId resultJson).write =
      some (response protocolVersion requestId resultJson) := by
  rw [readResponse, Value.member_write (s := Schema.uint32) (a := protocolVersion) rfl,
    Value.member_write (s := Schema.string) (a := requestId) rfl,
    Value.member_write (s := Schema.string) (a := resultJson) rfl]
  rfl

theorem readError_write (protocolVersion : UInt32) (requestId : Option String)
    (code message : String) :
    readError (error protocolVersion requestId code message).write =
      some (error protocolVersion requestId code message) := by
  rw [readError, Value.member_write (s := Schema.uint32) (a := protocolVersion) rfl,
    Value.optional_write (s := Schema.string) (a := requestId) rfl,
    Value.member_write (s := Schema.string) (a := code) rfl,
    Value.member_write (s := Schema.string) (a := message) rfl]
  rfl

theorem read_write (m : PluginMessage) : read m.write = some m := by
  unfold read
  cases m with
  | hello selectedVersion pluginId nonce =>
    rw [Value.member_write (s := Schema.string) (a := "hello") rfl]
    exact readHello_write ..
  | progress protocolVersion requestId sequence stage completedUnits totalUnits message =>
    rw [Value.member_write (s := Schema.string) (a := "progress") rfl]
    exact readProgress_write ..
  | diagnostic protocolVersion requestId sequence diagnosticJson =>
    rw [Value.member_write (s := Schema.string) (a := "diagnostic") rfl]
    exact readDiagnostic_write ..
  | response protocolVersion requestId resultJson =>
    rw [Value.member_write (s := Schema.string) (a := "response") rfl]
    exact readResponse_write ..
  | error protocolVersion requestId code message =>
    rw [Value.member_write (s := Schema.string) (a := "error") rfl]
    exact readError_write ..

theorem depth_write (m : PluginMessage) : m.write.depth ≤ 1 := by
  cases m with
  | hello selectedVersion pluginId nonce =>
    apply Value.depth_object
    simp only [List.forall_mem_cons]
    exact ⟨Nat.zero_le _, Nat.zero_le _, Nat.zero_le _, Nat.zero_le _, List.forall_mem_nil _⟩
  | progress protocolVersion requestId sequence stage completedUnits totalUnits message =>
    apply Value.depth_object
    have hunits := Schema.uint64.depth_writeOption
    have htext := Schema.string.depth_writeOption message
    simp only [List.forall_mem_cons]
    exact ⟨Nat.zero_le _, Nat.zero_le _, Nat.zero_le _, Nat.zero_le _, Nat.zero_le _, hunits _,
      hunits _, htext, List.forall_mem_nil _⟩
  | diagnostic protocolVersion requestId sequence diagnosticJson =>
    apply Value.depth_object
    simp only [List.forall_mem_cons]
    exact ⟨Nat.zero_le _, Nat.zero_le _, Nat.zero_le _, Nat.zero_le _, Nat.zero_le _,
      List.forall_mem_nil _⟩
  | response protocolVersion requestId resultJson =>
    apply Value.depth_object
    simp only [List.forall_mem_cons]
    exact ⟨Nat.zero_le _, Nat.zero_le _, Nat.zero_le _, Nat.zero_le _, List.forall_mem_nil _⟩
  | error protocolVersion requestId code message =>
    apply Value.depth_object
    have hid := Schema.string.depth_writeOption requestId
    simp only [List.forall_mem_cons]
    exact ⟨Nat.zero_le _, Nat.zero_le _, hid, Nat.zero_le _, Nat.zero_le _, List.forall_mem_nil _⟩

def schema : Schema PluginMessage where
  write := write
  read := read
  depth := 1
  read_write := read_write
  depth_write := depth_write
  write_ne_null m := by cases m <;> nofun

end PluginMessage

/-! ## Framing -/

/-- Why no frame could be written or read. -/
inductive FrameError where
  | streamEnded | truncatedPrefix | exceedsLimit | lengthOverflow | truncatedBody
  | invalidData (body : List UInt8)
  deriving DecidableEq

/-- `u32::to_le_bytes` -/
def toLeBytes (n : Nat) : List UInt8 :=
  [.ofNat n, .ofNat (n / 256), .ofNat (n / 65536), .ofNat (n / 16777216)]

/-- `u32::from_le_bytes` -/
def fromLeBytes (a b c d : UInt8) : Nat :=
  a.toNat + 256 * b.toNat + 65536 * c.toNat + 16777216 * d.toNat

def outOfLimit (maximum : UInt32) (length : Nat) : Prop :=
  length = 0 ∨ maximum.toNat < length ∨ absoluteMaxFrameBytes.toNat < length

instance (maximum : UInt32) (length : Nat) : Decidable (outOfLimit maximum length) :=
  inferInstanceAs (Decidable (_ ∨ _ ∨ _))

variable {α : Type}

def writeFrame (schema : Schema α) (maximum : UInt32) (value : α) :
    Except FrameError (List UInt8) :=
  let bytes := Json.write decimal (schema.write value)
  if 2 ^ 32 ≤ bytes.length then .error .lengthOverflow
  else if outOfLimit maximum bytes.length then .error .exceedsLimit
  else .ok (toLeBytes bytes.length ++ bytes)

/-- The one value of a body, within the default depth of a `serde_json` reader. -/
def decodeBody (schema : Schema α) (bytes : List UInt8) : Except FrameError α :=
  match (readBytes decimal.read 128 bytes).bind schema.read with
  | some value => .ok value
  | none => .error (.invalidData bytes)

def readBody (schema : Schema α) (length : Nat) (bytes : List UInt8) :
    Except FrameError (α × List UInt8) := do
  if bytes.length < length then throw .truncatedBody
  let value ← decodeBody schema (bytes.take length)
  return (value, bytes.drop length)

def readFrame (schema : Schema α) (maximum : UInt32) :
    List UInt8 → Except FrameError (α × List UInt8)
  | [] => .error .streamEnded
  | a :: b :: c :: d :: rest =>
    if outOfLimit maximum (fromLeBytes a b c d) then .error .exceedsLimit
    else readBody schema (fromLeBytes a b c d) rest
  | _ => .error .truncatedPrefix

theorem toLeBytes_fromLeBytes (a b c d : UInt8) : toLeBytes (fromLeBytes a b c d) = [a, b, c, d] := by
  have ha := a.toNat_lt
  have hb := b.toNat_lt
  have hc := c.toNat_lt
  have hd := d.toNat_lt
  simp only [toLeBytes, List.cons.injEq, and_true]
  refine ⟨?_, ?_, ?_, ?_⟩ <;> apply UInt8.toNat_inj.mp <;>
    simp only [UInt8.toNat_ofNat', fromLeBytes] <;> omega

theorem fromLeBytes_toLeBytes {n : Nat} (h : n < 2 ^ 32) :
    fromLeBytes (.ofNat n) (.ofNat (n / 256)) (.ofNat (n / 65536)) (.ofNat (n / 16777216)) = n := by
  simp only [fromLeBytes, UInt8.toNat_ofNat']
  omega

theorem readBody_length {schema : Schema α} {length : Nat} {bytes rest : List UInt8} {value : α}
    (h : readBody schema length bytes = .ok (value, rest)) :
    bytes.length = length + rest.length ∧ decodeBody schema (bytes.take length) = .ok value ∧
      rest = bytes.drop length := by
  unfold readBody at h
  split at h
  · cases h
  · obtain ⟨v, hv, h⟩ := ok_bind h
    cases h
    refine ⟨?_, hv, rfl⟩
    rw [List.length_drop]
    omega

/-- A frame that was read is its prefix and a body within the limit. -/
theorem readFrame_ok {schema : Schema α} {maximum : UInt32} {bytes rest : List UInt8} {value : α}
    (h : readFrame schema maximum bytes = .ok (value, rest)) :
    ∃ body, bytes = toLeBytes body.length ++ body ++ rest ∧ ¬ outOfLimit maximum body.length ∧
      decodeBody schema body = .ok value := by
  match bytes, h with
  | a :: b :: c :: d :: tail, h =>
    simp only [readFrame] at h
    split at h
    · cases h
    · rename_i hlimit
      obtain ⟨hlength, hvalue, rfl⟩ := readBody_length h
      have htake : (tail.take (fromLeBytes a b c d)).length = fromLeBytes a b c d := by
        rw [List.length_take]
        omega
      refine ⟨tail.take (fromLeBytes a b c d), ?_, by rwa [htake], hvalue⟩
      rw [htake, toLeBytes_fromLeBytes, List.append_assoc, List.take_append_drop]
      rfl

theorem readFrame_append {schema : Schema α} {maximum : UInt32} {body rest : List UInt8} {value : α}
    (hlimit : ¬ outOfLimit maximum body.length) (h : decodeBody schema body = .ok value) :
    readFrame schema maximum (toLeBytes body.length ++ body ++ rest) = .ok (value, rest) := by
  have hsmall : body.length < 2 ^ 32 := by
    simp only [outOfLimit, not_or, not_lt] at hlimit
    exact lt_of_le_of_lt hlimit.2.1 maximum.toNat_lt
  simp only [toLeBytes, List.cons_append, List.nil_append, readFrame,
    fromLeBytes_toLeBytes hsmall, if_neg hlimit, readBody, List.length_append]
  rw [if_neg (by omega), List.take_left, List.drop_left, h]
  rfl

/-- What is written is read back. -/
theorem readFrame_writeFrame {schema : Schema α} (hdepth : schema.depth ≤ 128) {maximum : UInt32}
    {value : α} {bytes : List UInt8} (h : writeFrame schema maximum value = .ok bytes)
    (rest : List UInt8) : readFrame schema maximum (bytes ++ rest) = .ok (value, rest) := by
  unfold writeFrame at h
  dsimp only at h
  split at h
  · cases h
  · split at h
    · cases h
    · rename_i hlimit
      cases h
      refine readFrame_append hlimit ?_
      rw [decodeBody, schema.readBytes_write value hdepth, Option.bind_some, schema.read_write]

theorem readFrame_shrinks {schema : Schema α} {maximum : UInt32} {bytes rest : List UInt8}
    {value : α} (h : readFrame schema maximum bytes = .ok (value, rest)) :
    rest.length < bytes.length := by
  obtain ⟨body, rfl, -, -⟩ := readFrame_ok h
  simp only [toLeBytes, List.length_append, List.length_cons]
  omega

/-- The frames of a stream up to the first that cannot be read. -/
def frames (schema : Schema α) (maximum : UInt32) (bytes : List UInt8) :
    List (Except FrameError α) :=
  match _h : readFrame schema maximum bytes with
  | .error e => [.error e]
  | .ok (value, rest) => .ok value :: frames schema maximum rest
  termination_by bytes.length
  decreasing_by exact readFrame_shrinks _h

theorem frames_error {schema : Schema α} {maximum : UInt32} {bytes : List UInt8} {e : FrameError}
    (h : readFrame schema maximum bytes = .error e) :
    frames schema maximum bytes = [.error e] := by
  rw [frames]
  split
  · rename_i e' h'
    rw [h] at h'
    cases h'
    rfl
  · rename_i h'
    rw [h] at h'
    cases h'

theorem frames_ok {schema : Schema α} {maximum : UInt32} {bytes rest : List UInt8} {value : α}
    (h : readFrame schema maximum bytes = .ok (value, rest)) :
    frames schema maximum bytes = .ok value :: frames schema maximum rest := by
  rw [frames]
  split
  · rename_i h'
    rw [h] at h'
    cases h'
  · rename_i h'
    rw [h] at h'
    cases h'
    rfl

end IntoMarkdown.Plugin
