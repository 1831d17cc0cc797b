import IntoMarkdown.Lib.JsonLength
import IntoMarkdown.Plugin.Worker

/-! # What the two sides make of each other

The greetings always fit. Where the request's frame fits, the worker sees the request,
and its stream is the greeting, the events and the terminal frame that fit. -/

namespace IntoMarkdown.Plugin
open IntoMarkdown.Lib Json Transition

variable {δ D : Type}

/-! ## Frames that fit -/

def frameBytes {α : Type} (schema : Schema α) (value : α) : List UInt8 :=
  toLeBytes (Json.write decimal (schema.write value)).length ++
    Json.write decimal (schema.write value)

theorem writeFrame_fits {α : Type} {schema : Schema α} {maximum : UInt32} {value : α}
    (h : Fits schema maximum value) :
    writeFrame schema maximum value = .ok (frameBytes schema value) := by
  have hsmall : (Json.write decimal (schema.write value)).length < 2 ^ 32 := by
    simp only [Fits, outOfLimit, not_or, not_lt] at h
    exact lt_of_le_of_lt h.2.1 maximum.toNat_lt
  unfold writeFrame
  dsimp only
  rw [if_neg (by omega), if_neg h]
  rfl

theorem writeFrame_unfit {α : Type} {schema : Schema α} {maximum : UInt32} {value : α}
    (h : ¬ Fits schema maximum value) : ∃ error, writeFrame schema maximum value = .error error := by
  unfold writeFrame
  dsimp only
  split
  · exact ⟨_, rfl⟩
  · rw [if_pos (not_not.mp h)]
    exact ⟨_, rfl⟩

theorem writeFrame_isOk {α : Type} {schema : Schema α} {maximum : UInt32} {value : α} :
    (writeFrame schema maximum value).isOk = true ↔ Fits schema maximum value := by
  by_cases h : Fits schema maximum value
  · simp [writeFrame_fits h, h, Except.isOk, Except.toBool]
  · obtain ⟨error, herror⟩ := writeFrame_unfit h
    simp [herror, h, Except.isOk, Except.toBool]

theorem isFrame_frameBytes {maximum : UInt32} {message : PluginMessage}
    (h : Fits PluginMessage.schema maximum message) :
    IsFrame maximum message (frameBytes PluginMessage.schema message) := isFrame_write h

theorem written_fits {maximum : UInt32} {message : PluginMessage}
    (h : Fits PluginMessage.schema maximum message) :
    written maximum message = frameBytes PluginMessage.schema message := by
  rw [written, writeFrame_fits h]

theorem written_unfit {maximum : UInt32} {message : PluginMessage}
    (h : ¬ Fits PluginMessage.schema maximum message) : written maximum message = [] := by
  obtain ⟨error, herror⟩ := writeFrame_unfit h
  rw [written, herror]

theorem fits_of_le {α : Type} {schema : Schema α} {policy : RuntimePolicy} {value : α}
    (hpos : 0 < bytesOf (print decimal (schema.write value)))
    (hle : bytesOf (print decimal (schema.write value)) ≤ 1024) :
    Fits schema policy.maxFrameBytes value := by
  have hrange := policy.frameRange
  have hlength : (Json.write decimal (schema.write value)).length =
      bytesOf (print decimal (schema.write value)) := rfl
  simp only [Fits, outOfLimit, hlength]
  omega

theorem alphanumeric_plain {c : Char} (h : isAsciiAlphanumeric c = true) : IsPlainAscii c := by
  simp only [isAsciiAlphanumeric, Bool.or_eq_true, Bool.and_eq_true, decide_eq_true_eq,
    Char.le_def, UInt32.le_iff_toNat_le] at h
  have hq : c ≠ '"' := by
    rintro rfl
    revert h
    decide
  have hb : c ≠ '\\' := by
    rintro rfl
    revert h
    decide
  refine ⟨?_, ?_, hq, hb⟩ <;> rcases h with (h | h) | h <;>
    · have h1 := h.1
      have h2 := h.2
      simp only [Char.reduceVal, UInt32.reduceToNat] at h1 h2
      simp only [Char.toNat]
      omega

theorem token_plain {value : String} {maximum : Nat} (h : validToken value maximum = true) :
    ∀ c ∈ value.toList, IsPlainAscii c := by
  simp only [validToken, Bool.and_eq_true, List.all_eq_true, Bool.or_eq_true,
    decide_eq_true_eq] at h
  intro c hc
  rcases h.2 c hc with ((h | rfl) | rfl) | rfl
  · exact alphanumeric_plain h
  · exact ⟨by decide, by decide, by decide, by decide⟩
  · exact ⟨by decide, by decide, by decide, by decide⟩
  · exact ⟨by decide, by decide, by decide, by decide⟩

theorem token_length {value : String} {maximum : Nat} (h : validToken value maximum = true) :
    value.toList.length ≤ maximum := by
  simp only [validToken, Bool.and_eq_true, decide_eq_true_eq] at h
  have hle := length_le_bytesOf value.toList
  rw [← utf8ByteSize_eq] at hle
  omega

theorem bytesOf_string (s : String) : bytesOf (print decimal (Schema.string.write s)) =
    bytesOf (printString s) := rfl

theorem bytesOf_version (n : UInt32) :
    bytesOf (print decimal (Schema.uint32.write n)) ≤ 10 :=
  bytesOf_digits_le (by decide) (lt_trans n.toNat_lt (by decide))

theorem bytesOf_versions (versions : List UInt32) :
    bytesOf (print decimal (Schema.uint32.list.write versions)) ≤ 11 * versions.length + 2 := by
  have hsum : ((versions.map Schema.uint32.write).map
      fun v => 1 + bytesOf (print decimal v)).sum ≤ 11 * versions.length := by
    induction versions with
    | nil => exact Nat.le_refl 0
    | cons n versions ih =>
      have hn := bytesOf_version n
      simp only [List.map_cons, List.sum_cons, List.length_cons]
      omega
  have hle := bytesOf_array_le decimal (versions.map Schema.uint32.write)
  exact hle.trans (Nat.add_le_add_right hsum 2)

namespace Launch
variable (L : Launch δ D)

theorem bytesOf_pluginId : bytesOf (printString L.pluginId) ≤ 130 := by
  rw [bytesOf_printString (token_plain L.token)]
  have hle := token_length L.token
  omega

theorem bytesOf_nonce : bytesOf (printString L.nonce) ≤ 66 := by
  rw [bytesOf_printString fun c hc => alphanumeric_plain (L.digest.2 c hc), L.digest.1]

/-- The host's greeting fits. -/
theorem hello_fits : Fits HostMessage.schema L.policy.maxFrameBytes L.helloMessage := by
  have hid := L.bytesOf_pluginId
  have hnonce := L.bytesOf_nonce
  have hversions := bytesOf_versions L.protocolVersions
  have hcount := L.versions.1
  have htype : bytesOf (printString "type") = 6 := by decide +kernel
  have hhello : bytesOf (print decimal (.string "hello")) = 7 := by decide +kernel
  have hsupported : bytesOf (printString "supported_versions") = 20 := by decide +kernel
  have hplugin : bytesOf (printString "plugin_id") = 11 := by decide +kernel
  have hkey : bytesOf (printString "nonce") = 7 := by decide +kernel
  have hle := bytesOf_object_le decimal [("type", .string "hello"),
    ("supported_versions", Schema.uint32.list.write L.protocolVersions),
    ("plugin_id", Schema.string.write L.pluginId), ("nonce", Schema.string.write L.nonce)]
  simp only [List.map_cons, List.map_nil, List.sum_cons, List.sum_nil, htype, hhello, hsupported,
    hplugin, hkey, bytesOf_string] at hle
  exact fits_of_le (bytesOf_object_pos decimal _) (hle.trans (by omega))

def greeting : PluginMessage := .hello protocolV1 L.pluginId L.nonce

/-- So does the worker's. -/
theorem greeting_fits : Fits PluginMessage.schema L.policy.maxFrameBytes L.greeting := by
  have hid := L.bytesOf_pluginId
  have hnonce := L.bytesOf_nonce
  have hversion := bytesOf_version protocolV1
  have htype : bytesOf (printString "type") = 6 := by decide +kernel
  have hhello : bytesOf (print decimal (.string "hello")) = 7 := by decide +kernel
  have hselected : bytesOf (printString "selected_version") = 18 := by decide +kernel
  have hplugin : bytesOf (printString "plugin_id") = 11 := by decide +kernel
  have hkey : bytesOf (printString "nonce") = 7 := by decide +kernel
  have hle := bytesOf_object_le decimal [("type", .string "hello"),
    ("selected_version", Schema.uint32.write protocolV1),
    ("plugin_id", Schema.string.write L.pluginId), ("nonce", Schema.string.write L.nonce)]
  simp only [List.map_cons, List.map_nil, List.sum_cons, List.sum_nil, htype, hhello, hselected,
    hplugin, hkey, bytesOf_string] at hle
  exact fits_of_le (bytesOf_object_pos decimal _) (hle.trans (by omega))

/-! ## What the worker receives -/

theorem hostWritten_fits {message : HostMessage}
    (h : Fits HostMessage.schema L.policy.maxFrameBytes message) :
    L.hostWritten message = frameBytes HostMessage.schema message := by
  rw [hostWritten, writeFrame_fits h]

theorem hostWritten_unfit {message : HostMessage}
    (h : ¬ Fits HostMessage.schema L.policy.maxFrameBytes message) :
    L.hostWritten message = [] := by
  obtain ⟨error, herror⟩ := writeFrame_unfit h
  rw [hostWritten, herror]

theorem receiveHello_input : receiveHello L.policy.maxFrameBytes L.pluginId L.input =
    some (L.nonce, L.hostWritten L.message) := by
  rw [receiveHello, input, L.hostWritten_fits L.hello_fits,
    readFrame_writeFrame (by decide) (writeFrame_fits L.hello_fits)]
  simp only [helloMessage]
  rw [if_neg (by simp [L.versions.2])]

/-- The request as the worker sees it. -/
def seen : WorkerRequest where
  requestId := L.request.requestId
  inputFormat := L.request.inputFormat
  sourceName := L.request.sourceName
  parametersJson := L.request.parametersJson
  source := if L.transport.staged = none then L.request.source else []
  sourcePath := L.transport.staged
  maximumOutputBytes := L.policy.maxOutputBytes

theorem transport_cases : L.transport = inlineTransport L.request ∨
    L.transport = stagedTransport L.request := by
  unfold transport chooseTransport
  split
  · exact Or.inl rfl
  · exact Or.inr rfl

theorem sourceOf_transport :
    sourceOf L.transport.staged L.transport.sourceBase64 L.transport.sourcePath =
      some (L.seen.source, L.seen.sourcePath) := by
  unfold seen
  rcases L.transport_cases with h | h <;> rw [h]
  · simp [inlineTransport, sourceOf, inlineSource, Base64.decode_encode]
  · rfl

theorem receiveRequest_fits (h : Fits HostMessage.schema L.policy.maxFrameBytes L.message) :
    receiveRequest L.policy.maxFrameBytes L.transport.staged (L.hostWritten L.message) =
      some L.seen := by
  have hread := readFrame_writeFrame (by decide) (writeFrame_fits h) []
  rw [List.append_nil] at hread
  rw [receiveRequest, L.hostWritten_fits h, hread]
  simp only [message, requestMessage, sourceOf_transport]
  rfl

theorem receiveRequest_unfit (h : ¬ Fits HostMessage.schema L.policy.maxFrameBytes L.message) :
    receiveRequest L.policy.maxFrameBytes L.transport.staged (L.hostWritten L.message) = none := by
  rw [L.hostWritten_unfit h]
  rfl

theorem received_fits (h : Fits HostMessage.schema L.policy.maxFrameBytes L.message) :
    L.received = some L.seen := by
  rw [received, receiveHello_input]
  exact L.receiveRequest_fits h

theorem received_unfit (h : ¬ Fits HostMessage.schema L.policy.maxFrameBytes L.message) :
    L.received = none := by
  rw [received, receiveHello_input]
  exact L.receiveRequest_unfit h

theorem source_ne_nil : L.request.source ≠ [] := by
  have haccepted := L.accepted
  unfold validateRequest at haccepted
  split at haccepted
  · cases haccepted
  · rename_i h
    simp only [not_or] at h
    exact h.2.2.1

theorem seen_bytes : L.seen.bytes = L.request.source := by
  have hne := L.source_ne_nil
  unfold seen WorkerRequest.bytes
  rcases L.transport_cases with h | h <;> rw [h]
  · simp [inlineTransport, hne]
  · simp [stagedTransport]

/-! ## What the worker writes -/

variable {L}

theorem served_fits (h : Fits HostMessage.schema L.policy.maxFrameBytes L.message)
    (run : HandlerRun D L.policy) : L.served run =
      (frameBytes PluginMessage.schema L.greeting ++
        (((L.sent run).map Prod.fst).flatMap (written L.policy.maxFrameBytes) ++
          written L.policy.maxFrameBytes (L.terminal run)),
        (writeFrame PluginMessage.schema L.policy.maxFrameBytes (L.terminal run)).isOk) := by
  rw [served, serveRaw, receiveHello_input]
  simp only [L.receiveRequest_fits h]
  rw [show PluginMessage.hello protocolV1 L.pluginId L.nonce = L.greeting from rfl,
    writeFrame_fits L.greeting_fits]
  rfl

end Launch

end IntoMarkdown.Plugin
