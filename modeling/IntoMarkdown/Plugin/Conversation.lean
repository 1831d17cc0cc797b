import IntoMarkdown.Plugin.Runs

/-! # The conversation that the host accepts

A stream is accepted when its frames are a greeting, events in order and a response,
and when nothing that can be decoded follows. -/

namespace IntoMarkdown.Plugin
open IntoMarkdown.Lib Json Transition

variable {δ D : Type}

/-! ## Conversations -/

def IsFrame (maximum : UInt32) (message : PluginMessage) (bytes : List UInt8) : Prop :=
  ∃ body, bytes = toLeBytes body.length ++ body ∧ ¬ outOfLimit maximum body.length ∧
    decodeBody PluginMessage.schema body = .ok message

namespace PluginMessage

def sequence : PluginMessage → UInt64
  | progress _ _ sequence _ _ _ _ => sequence
  | diagnostic _ _ sequence _ => sequence
  | _ => 0

def diagnosticBytes : PluginMessage → Nat
  | diagnostic _ _ _ json => json.utf8ByteSize
  | _ => 0

end PluginMessage

/-- The one record of a diagnostic event. -/
def diagnosticOf (S : Session δ D) : PluginMessage → Option D
  | .diagnostic _ _ _ json => (readDiagnosticEvent S json).toOption
  | _ => none

/-- An event of this request with valid contents. -/
def ValidEvent (S : Session δ D) : PluginMessage → Prop
  | .progress version id sequence stage _ _ message =>
    version = protocolV1 ∧ id = S.requestId ∧ 0 < sequence ∧ (parseStage stage).isOk ∧
      ∀ text ∈ message, text.utf8ByteSize ≤ 4096
  | .diagnostic version id sequence json =>
    version = protocolV1 ∧ id = S.requestId ∧ 0 < sequence ∧ (readDiagnosticEvent S json).isOk
  | _ => False

theorem ValidEvent.positive {S : Session δ D} {message : PluginMessage}
    (h : ValidEvent S message) : 0 < message.sequence := by
  cases message with
  | progress version id sequence stage completedUnits totalUnits message => exact h.2.2.1
  | diagnostic version id sequence json => exact h.2.2.1
  | response version id resultJson => exact h.elim
  | error version id code message => exact h.elim
  | hello version id nonce => exact h.elim

/-- The messages of a conversation, and what the host returns for them. -/
structure Dialogue (S : Session δ D) (events : List PluginMessage)
    (execution : RawPluginExecution D) : Prop where
  version : protocolV1 ∈ S.protocolVersions
  valid : ∀ message ∈ events, ValidEvent S message
  count : events.length ≤ 10000
  ordered : (events.map PluginMessage.sequence).Pairwise (· < ·)
  output : execution.resultJson.utf8ByteSize + (events.map PluginMessage.diagnosticBytes).sum ≤
    S.policy.maxOutputBytes.toNat
  diagnostics : execution.diagnostics = events.filterMap (diagnosticOf S)
  plugin : execution.pluginId = S.pluginId
  executable : execution.executableSha256 = S.executableSha256

def messagesOf (S : Session δ D) (events : List PluginMessage)
    (execution : RawPluginExecution D) : List PluginMessage :=
  .hello protocolV1 S.pluginId S.nonce :: events ++
    [.response protocolV1 S.requestId execution.resultJson]

/-- The bytes are a whole conversation of the protocol. -/
def Conversation (S : Session δ D) (bytes : List UInt8) (execution : RawPluginExecution D) : Prop :=
  ∃ events parts, Dialogue S events execution ∧
    List.Forall₂ (IsFrame S.policy.maxFrameBytes) (messagesOf S events execution) parts ∧
    bytes = parts.flatten

/-! ## Frames of a stream -/

theorem frames_append {maximum : UInt32} {messages : List PluginMessage} {parts : List (List UInt8)}
    (h : List.Forall₂ (IsFrame maximum) messages parts) (rest : List UInt8) :
    frames PluginMessage.schema maximum (parts.flatten ++ rest) =
      messages.map .ok ++ frames PluginMessage.schema maximum rest := by
  induction h with
  | nil => rfl
  | cons hframe _ ih =>
    obtain ⟨body, rfl, hlimit, hdecode⟩ := hframe
    rw [List.flatten_cons, List.append_assoc, frames_ok (readFrame_append hlimit hdecode), ih]
    rfl

theorem frames_split {maximum : UInt32} {messages : List PluginMessage} {more : List Received}
    {stream : List UInt8}
    (h : frames PluginMessage.schema maximum stream = messages.map .ok ++ more) :
    ∃ parts rest, List.Forall₂ (IsFrame maximum) messages parts ∧ stream = parts.flatten ++ rest ∧
      frames PluginMessage.schema maximum rest = more := by
  induction messages generalizing stream with
  | nil => exact ⟨[], stream, .nil, rfl, h⟩
  | cons message messages ih =>
    cases hread : readFrame PluginMessage.schema maximum stream with
    | error error =>
      rw [frames_error hread] at h
      cases h
    | ok r =>
      obtain ⟨first, tail⟩ := r
      rw [frames_ok hread, List.map_cons, List.cons_append] at h
      obtain ⟨hfirst, htail⟩ := List.cons.inj h
      cases hfirst
      obtain ⟨parts, rest, hparts, rfl, hrest⟩ := ih htail
      obtain ⟨body, rfl, hlimit, hdecode⟩ := readFrame_ok hread
      refine ⟨(toLeBytes body.length ++ body) :: parts, rest,
        .cons ⟨body, rfl, hlimit, hdecode⟩ hparts, ?_, hrest⟩
      simp only [List.flatten_cons, List.append_assoc]

theorem readFrame_streamEnded {maximum : UInt32} {bytes : List UInt8}
    (h : readFrame PluginMessage.schema maximum bytes = .error .streamEnded) : bytes = [] := by
  match bytes, h with
  | [], _ => rfl
  | a :: b :: c :: d :: rest, h =>
    simp only [readFrame, readBody, decodeBody] at h
    split at h
    · cases h
    · split at h
      · cases h
      · split at h <;> cases h

theorem frames_end {maximum : UInt32} {rest : List UInt8}
    (h : frames PluginMessage.schema maximum rest = [.error .streamEnded]) : rest = [] := by
  cases hread : readFrame PluginMessage.schema maximum rest with
  | error error =>
    rw [frames_error hread] at h
    cases h
    exact readFrame_streamEnded hread
  | ok r =>
    rw [frames_ok hread] at h
    cases h

theorem frames_nil (maximum : UInt32) :
    frames PluginMessage.schema maximum [] = [.error .streamEnded] := frames_error rfl

/-- Nothing that can be decoded is at the start of these bytes. -/
theorem frames_quiet {maximum : UInt32} {rest : List UInt8} :
    (frames PluginMessage.schema maximum rest).any Except.isOk = false ↔
      ∀ message tail, readFrame PluginMessage.schema maximum rest ≠ .ok (message, tail) := by
  cases hread : readFrame PluginMessage.schema maximum rest with
  | error error =>
    rw [frames_error hread]
    simp [Except.isOk, Except.toBool]
  | ok r =>
    obtain ⟨message, tail⟩ := r
    rw [frames_ok hread]
    simp [Except.isOk, Except.toBool]

/-! ## Events -/

/-- An event that the event loop takes. -/
structure Advances (S : Session δ D) (events : Events D) (message : PluginMessage)
    (next : Events D) : Prop where
  valid : ValidEvent S message
  count : next.eventCount = events.eventCount + 1
  limit : next.eventCount ≤ 10000
  later : events.lastSequence < message.sequence
  last : next.lastSequence = message.sequence
  bytes : next.diagnosticBytes = events.diagnosticBytes + message.diagnosticBytes
  output : events.diagnosticBytes ≤ S.policy.maxOutputBytes.toNat →
    next.diagnosticBytes ≤ S.policy.maxOutputBytes.toNat
  diagnostics : next.diagnostics = events.diagnostics ++ (diagnosticOf S message).toList

theorem validateEvent_ok {version : UInt32} {id expected : String} {sequence last next : UInt64}
    (h : validateEvent version id expected sequence last = .ok next) :
    version = protocolV1 ∧ id = expected ∧ 0 < sequence ∧ last < sequence ∧ next = sequence := by
  unfold validateEvent at h
  split at h
  · cases h
  · rename_i hvalid
    simp only [not_or, not_not, UInt64.not_le] at hvalid
    cases h
    exact ⟨hvalid.1, hvalid.2.1, UInt64.pos_iff_ne_zero.mpr hvalid.2.2.1, hvalid.2.2.2, rfl⟩

theorem validateEvent_of {id : String} {sequence last : UInt64} (hpos : 0 < sequence)
    (hlater : last < sequence) :
    validateEvent protocolV1 id id sequence last = .ok sequence := by
  rw [validateEvent, if_neg]
  simp only [ne_eq, not_true_eq_false, false_or, not_or, UInt64.not_le]
  exact ⟨UInt64.pos_iff_ne_zero.mp hpos, hlater⟩

theorem any_long {message : Option String} {limit : Nat} :
    ¬ message.any (fun text => limit < text.utf8ByteSize) ↔
      ∀ text ∈ message, text.utf8ByteSize ≤ limit := by
  cases message <;> simp

theorem onProgress_advances {S : Session δ D} {events next : Events D} {version : UInt32}
    {id : String} {sequence : UInt64} {stage : String} {completedUnits totalUnits : Option UInt64}
    {message : Option String}
    (h : onProgress S events version id sequence stage completedUnits totalUnits message =
      .ok next) :
    Advances S events (.progress version id sequence stage completedUnits totalUnits message)
      next := by
  unfold onProgress at h
  dsimp only at h
  split at h
  · cases h
  · rename_i hlimit
    rw [not_or, any_long] at hlimit
    obtain ⟨last, hlast, h⟩ := ok_bind h
    obtain ⟨parsed, hparsed, h⟩ := ok_bind h
    cases h
    obtain ⟨hversion, hid, hpos, hlater, rfl⟩ := validateEvent_ok hlast
    exact
      { valid := ⟨hversion, hid, hpos, by rw [hparsed]; rfl, hlimit.2⟩
        count := by dsimp only; omega
        limit := by dsimp only; omega
        later := hlater
        last := rfl
        bytes := rfl
        output := fun hbytes => hbytes
        diagnostics := (List.append_nil _).symm }

theorem onDiagnostic_advances {S : Session δ D} {events next : Events D} {version : UInt32}
    {id : String} {sequence : UInt64} {json : String}
    (h : onDiagnostic S events version id sequence json = .ok next) :
    Advances S events (.diagnostic version id sequence json) next := by
  have hmaximum := S.policy.maxFrameBytes.toNat_lt
  have houtput := S.policy.outputRange.2
  unfold onDiagnostic at h
  dsimp only at h
  split at h
  · cases h
  · rename_i hlimit
    obtain ⟨last, hlast, h⟩ := ok_bind h
    obtain ⟨diagnostic, hdiagnostic, h⟩ := ok_bind h
    cases h
    obtain ⟨hversion, hid, hpos, hlater, rfl⟩ := validateEvent_ok hlast
    exact
      { valid := ⟨hversion, hid, hpos, by rw [hdiagnostic]; rfl⟩
        count := by dsimp only; omega
        limit := by dsimp only; omega
        later := hlater
        last := rfl
        bytes := by
          simp only [PluginMessage.diagnosticBytes]
          omega
        output := by dsimp only; omega
        diagnostics := by
          rw [diagnosticOf, hdiagnostic]
          rfl }

theorem onMessage_advances {S : Session δ D} {events next : Events D} {message : PluginMessage}
    (h : onMessage S events message = .ok (.inl next)) : Advances S events message next := by
  cases message with
  | progress version id sequence stage completedUnits totalUnits message =>
    obtain ⟨next', hnext, heq⟩ := map_ok h
    cases heq
    exact onProgress_advances hnext
  | diagnostic version id sequence json =>
    obtain ⟨next', hnext, heq⟩ := map_ok h
    cases heq
    exact onDiagnostic_advances hnext
  | response version id resultJson =>
    obtain ⟨execution, _, heq⟩ := map_ok h
    cases heq
  | error version id code message => cases h
  | hello version id nonce => cases h

/-- A valid event in order and within the limits is taken. -/
theorem onMessage_of {S : Session δ D} {events : Events D} {message : PluginMessage}
    (hvalid : ValidEvent S message) (hcount : events.eventCount < 10000)
    (hlater : events.lastSequence < message.sequence)
    (houtput : events.diagnosticBytes + message.diagnosticBytes ≤ S.policy.maxOutputBytes.toNat) :
    ∃ next, onMessage S events message = .ok (.inl next) := by
  cases message with
  | progress version id sequence stage completedUnits totalUnits message =>
    obtain ⟨rfl, rfl, hpos, hstage, hmessage⟩ := hvalid
    obtain ⟨parsed, hparsed⟩ := isOk_iff.mp hstage
    have hlimit : ¬ (10000 < min (events.eventCount + 1) (2 ^ 32 - 1) ∨
        message.any fun text => 4096 < text.utf8ByteSize) := by
      rw [not_or, any_long]
      exact ⟨by omega, hmessage⟩
    simp only [onMessage, onProgress, if_neg hlimit]
    rw [validateEvent_of hpos hlater, hparsed]
    exact ⟨_, rfl⟩
  | diagnostic version id sequence json =>
    obtain ⟨rfl, rfl, hpos, hjson⟩ := hvalid
    obtain ⟨diagnostic, hdiagnostic⟩ := isOk_iff.mp hjson
    have hlimit : ¬ (10000 < min (events.eventCount + 1) (2 ^ 32 - 1) ∨
        S.policy.maxOutputBytes.toNat <
          min (events.diagnosticBytes + json.utf8ByteSize) (2 ^ 64 - 1)) := by
      simp only [PluginMessage.diagnosticBytes] at houtput
      omega
    simp only [onMessage, onDiagnostic, if_neg hlimit]
    rw [validateEvent_of hpos hlater, hdiagnostic]
    exact ⟨_, rfl⟩
  | response version id resultJson => exact hvalid.elim
  | error version id code message => exact hvalid.elim
  | hello version id nonce => exact hvalid.elim

theorem onMessage_response {S : Session δ D} {events : Events D} {message : PluginMessage}
    {execution : RawPluginExecution D} (h : onMessage S events message = .ok (.inr execution)) :
    message = .response protocolV1 S.requestId execution.resultJson ∧
      execution.resultJson.utf8ByteSize + events.diagnosticBytes ≤ S.policy.maxOutputBytes.toNat ∧
      execution = ⟨execution.resultJson, events.diagnostics, S.pluginId, S.executableSha256⟩ := by
  cases message with
  | response version id resultJson =>
    obtain ⟨execution', hresponse, heq⟩ := map_ok h
    cases heq
    unfold onResponse at hresponse
    split at hresponse
    · cases hresponse
    · rename_i hidentity
      split at hresponse
      · cases hresponse
      · split at hresponse
        · cases hresponse
        · rename_i hboth
          simp only [not_or, not_not] at hidentity
          obtain ⟨rfl, rfl⟩ := hidentity
          cases hresponse
          refine ⟨rfl, ?_, rfl⟩
          dsimp only
          omega
  | progress version id sequence stage completedUnits totalUnits message =>
    obtain ⟨next, _, heq⟩ := map_ok h
    cases heq
  | diagnostic version id sequence json =>
    obtain ⟨next, _, heq⟩ := map_ok h
    cases heq
  | error version id code message => cases h
  | hello version id nonce => cases h

theorem onResponse_of {S : Session δ D} {events : Events D} {resultJson : String}
    (h : resultJson.utf8ByteSize + events.diagnosticBytes ≤ S.policy.maxOutputBytes.toNat) :
    onMessage S events (.response protocolV1 S.requestId resultJson) =
      .ok (.inr ⟨resultJson, events.diagnostics, S.pluginId, S.executableSha256⟩) := by
  have hmaximum := S.policy.maxOutputBytes.toNat_lt
  simp only [onMessage, onResponse]
  rw [if_neg (by simp), if_neg (by omega), if_neg (by omega)]
  rfl

/-! ## The event loop -/

/-- These events and the execution's response can come next. -/
structure Follows (S : Session δ D) (before : Events D) (events : List PluginMessage)
    (execution : RawPluginExecution D) : Prop where
  valid : ∀ message ∈ events, ValidEvent S message
  count : before.eventCount + events.length ≤ 10000
  ordered : (before.lastSequence :: events.map PluginMessage.sequence).Pairwise (· < ·)
  output : execution.resultJson.utf8ByteSize +
    (before.diagnosticBytes + (events.map PluginMessage.diagnosticBytes).sum) ≤
      S.policy.maxOutputBytes.toNat
  diagnostics : execution.diagnostics = before.diagnostics ++ events.filterMap (diagnosticOf S)
  plugin : execution.pluginId = S.pluginId
  executable : execution.executableSha256 = S.executableSha256

theorem filterMap_toList {α β : Type} (f : α → Option β) (a : α) (rest : List α) :
    (a :: rest).filterMap f = (f a).toList ++ rest.filterMap f := by
  rw [List.filterMap_cons]
  cases f a <;> rfl

theorem follows_cons {S : Session δ D} {before next : Events D} {message : PluginMessage}
    {events : List PluginMessage} {execution : RawPluginExecution D}
    (h : Advances S before message next) :
    Follows S before (message :: events) execution ↔ Follows S next events execution := by
  have hsum : (((message :: events).map PluginMessage.diagnosticBytes).sum) =
      message.diagnosticBytes + (events.map PluginMessage.diagnosticBytes).sum := rfl
  have hcount := h.count
  have hbytes := h.bytes
  constructor
  · intro hf
    have hlength := hf.count
    have houtput := hf.output
    rw [List.length_cons] at hlength
    exact
      { valid := fun m hm => hf.valid m (List.mem_cons_of_mem _ hm)
        count := by omega
        ordered := by
          rw [h.last]
          exact (List.pairwise_cons.mp hf.ordered).2
        output := by omega
        diagnostics := by
          rw [hf.diagnostics, h.diagnostics, filterMap_toList, List.append_assoc]
        plugin := hf.plugin
        executable := hf.executable }
  · intro hf
    have hlength := hf.count
    have houtput := hf.output
    have hordered := hf.ordered
    rw [h.last] at hordered
    exact
      { valid := List.forall_mem_cons.mpr ⟨h.valid, hf.valid⟩
        count := by
          rw [List.length_cons]
          omega
        ordered := by
          refine List.pairwise_cons.mpr ⟨?_, hordered⟩
          rw [List.map_cons, List.forall_mem_cons]
          refine ⟨h.later, fun n hn => ?_⟩
          exact UInt64.lt_trans h.later ((List.pairwise_cons.mp hordered).1 n hn)
        output := by omega
        diagnostics := by
          rw [hf.diagnostics, h.diagnostics, filterMap_toList, List.append_assoc]
        plugin := hf.plugin
        executable := hf.executable }

theorem await_ok {env : Environment} {execution result : RawPluginExecution D}
    {rest : List Received} : await env execution rest = .ok result ↔
      env.exit = some true ∧ rest.any Except.isOk = false ∧ execution = result := by
  unfold await finishDrain
  split
  · rename_i hexit
    split
    · rename_i hextra
      simp [hextra]
    · rename_i hextra
      simp [hexit, Bool.eq_false_iff.mpr hextra]
  · rename_i hexit
    simp [hexit]

/-- What the event loop takes. -/
theorem converse_ok {S : Session δ D} {env : Environment} {before : Events D}
    (hcount : before.eventCount ≤ 10000)
    (hbytes : before.diagnosticBytes ≤ S.policy.maxOutputBytes.toNat)
    {received : List Received} {execution : RawPluginExecution D}
    (h : converse S env before received = .ok execution) :
    ∃ events rest, received = events.map .ok ++
        .ok (.response protocolV1 S.requestId execution.resultJson) :: rest ∧
      Follows S before events execution ∧ env.exit = some true ∧ rest.any Except.isOk = false := by
  induction received generalizing before with
  | nil => cases h
  | cons frame received ih =>
    cases frame with
    | error error => cases h
    | ok message =>
      rw [converse] at h
      cases hturn : onMessage S before message with
      | error error =>
        rw [hturn] at h
        cases h
      | ok turn =>
        rw [hturn] at h
        cases turn with
        | inl next =>
          have hnext := onMessage_advances hturn
          obtain ⟨events, rest, rfl, hfollows, hend⟩ := ih hnext.limit (hnext.output hbytes) h
          exact ⟨message :: events, rest, rfl, (follows_cons hnext).mpr hfollows, hend⟩
        | inr response =>
          obtain ⟨hexit, hquiet, rfl⟩ := await_ok.mp h
          obtain ⟨rfl, houtput, hresponse⟩ := onMessage_response hturn
          refine ⟨[], received, rfl, ?_, hexit, hquiet⟩
          exact
            { valid := List.forall_mem_nil _
              count := hcount
              ordered := List.pairwise_singleton _ _
              output := houtput
              diagnostics := by rw [hresponse]; exact (List.append_nil _).symm
              plugin := by rw [hresponse]
              executable := by rw [hresponse] }

theorem converse_of {S : Session δ D} {env : Environment} {before : Events D}
    {events : List PluginMessage} {execution : RawPluginExecution D}
    (h : Follows S before events execution) (rest : List Received) :
    converse S env before (events.map .ok ++
        .ok (.response protocolV1 S.requestId execution.resultJson) :: rest) =
      await env execution rest := by
  induction events generalizing before with
  | nil =>
    have hturn : onMessage S before (.response protocolV1 S.requestId execution.resultJson) =
        .ok (.inr ⟨execution.resultJson, before.diagnostics, S.pluginId, S.executableSha256⟩) :=
      onResponse_of h.output
    simp only [List.map_nil, List.nil_append, converse, hturn]
    have hsame : (⟨execution.resultJson, before.diagnostics, S.pluginId, S.executableSha256⟩ :
        RawPluginExecution D) = execution := by
      rw [← h.plugin, ← h.executable, ← List.append_nil before.diagnostics]
      exact congrArg (RawPluginExecution.mk _ · _ _) h.diagnostics.symm
    rw [hsame]
  | cons message events ih =>
    have hcount := h.count
    have houtput := h.output
    have hfirst := (List.pairwise_cons.mp h.ordered).1 _ (List.mem_cons_self ..)
    rw [List.length_cons] at hcount
    simp only [List.map_cons, List.sum_cons] at houtput
    obtain ⟨next, hnext⟩ := onMessage_of (h.valid message (List.mem_cons_self ..))
      (show before.eventCount < 10000 by omega) hfirst (by omega)
    rw [List.map_cons, List.cons_append, converse, hnext]
    exact ih ((follows_cons (onMessage_advances hnext)).mp h)

theorem follows_initial {S : Session δ D} {events : List PluginMessage}
    {execution : RawPluginExecution D} (hversion : protocolV1 ∈ S.protocolVersions) :
    Follows S {} events execution ↔ Dialogue S events execution := by
  constructor
  · intro h
    exact
      { version := hversion
        valid := h.valid
        count := by simpa using h.count
        ordered := (List.pairwise_cons.mp h.ordered).2
        output := by simpa using h.output
        diagnostics := h.diagnostics
        plugin := h.plugin
        executable := h.executable }
  · intro h
    exact
      { valid := h.valid
        count := by simpa using h.count
        ordered := by
          refine List.pairwise_cons.mpr ⟨?_, h.ordered⟩
          rintro n hn
          obtain ⟨message, hmessage, rfl⟩ := List.mem_map.mp hn
          exact (h.valid message hmessage).positive
        output := by simpa using h.output
        diagnostics := h.diagnostics
        plugin := h.plugin
        executable := h.executable }

/-! ## What the host returns -/

/-- The host's greeting and request reach the plugin. -/
def Environment.Written (env : Environment) : Prop :=
  env.helloWrite = none ∧ env.requestWrite = none

theorem checkHello_ok {S : Session δ D} {message : PluginMessage} :
    checkHello S message = .ok () ↔
      message = .hello protocolV1 S.pluginId S.nonce ∧ protocolV1 ∈ S.protocolVersions := by
  cases message with
  | hello selectedVersion pluginId echoed =>
    simp only [checkHello, PluginMessage.hello.injEq]
    split
    · rename_i h
      obtain ⟨rfl, hversion, rfl, rfl⟩ := h
      simp [hversion]
    · rename_i h
      simp only [reduceCtorEq, false_iff]
      rintro ⟨⟨rfl, rfl, rfl⟩, hversion⟩
      exact h ⟨rfl, hversion, rfl, rfl⟩
  | progress version id sequence stage completedUnits totalUnits message => simp [checkHello]
  | diagnostic version id sequence json => simp [checkHello]
  | response version id resultJson => simp [checkHello]
  | error version id code message => simp [checkHello]

/-- The host returns a result where a conversation is followed by nothing that can
be decoded. -/
theorem outcome_ok {S : Session δ D} {env : Environment} {stream : List UInt8}
    {execution : RawPluginExecution D} :
    outcome S env stream = .ok execution ↔ env.Written ∧ env.exit = some true ∧
      ∃ part rest, stream = part ++ rest ∧ Conversation S part execution ∧
        ∀ message tail,
          readFrame PluginMessage.schema S.policy.maxFrameBytes rest ≠ .ok (message, tail) := by
  constructor
  · intro h
    simp only [outcome, greet] at h
    split at h
    · rename_i hhello
      cases hframes : frames PluginMessage.schema S.policy.maxFrameBytes stream with
      | nil =>
        rw [hframes] at h
        cases h
      | cons frame received =>
        rw [hframes] at h
        cases frame with
        | error error => cases h
        | ok message =>
          simp only [shakeHands] at h
          split at h
          · rename_i hcheck
            obtain ⟨rfl, hversion⟩ := checkHello_ok.mp hcheck
            simp only [request] at h
            split at h
            · rename_i hrequest
              obtain ⟨events, more, rfl, hfollows, hexit, hquiet⟩ :=
                converse_ok (Nat.zero_le _) (Nat.zero_le _) h
              have hmessages : frames PluginMessage.schema S.policy.maxFrameBytes stream =
                  (messagesOf S events execution).map .ok ++ more := by
                rw [hframes, messagesOf]
                simp
              obtain ⟨parts, rest, hparts, rfl, hrest⟩ := frames_split hmessages
              refine ⟨⟨hhello, hrequest⟩, hexit, parts.flatten, rest, rfl,
                ⟨events, parts, (follows_initial hversion).mp hfollows, hparts, rfl⟩, ?_⟩
              rw [← frames_quiet, hrest]
              exact hquiet
            · cases h
          · cases h
    · cases h
  · rintro ⟨⟨hhello, hrequest⟩, hexit, part, rest, rfl, ⟨events, parts, hdialogue, hparts, rfl⟩,
      hquiet⟩
    have hfollows := (follows_initial hdialogue.version).mpr hdialogue
    have hcheck : checkHello S (.hello protocolV1 S.pluginId S.nonce) = .ok () :=
      checkHello_ok.mpr ⟨rfl, hdialogue.version⟩
    have hloop : converse S env {} (events.map .ok ++
        .ok (.response protocolV1 S.requestId execution.resultJson) ::
          frames PluginMessage.schema S.policy.maxFrameBytes rest) = .ok execution := by
      rw [converse_of hfollows]
      exact await_ok.mpr ⟨hexit, frames_quiet.mpr hquiet, rfl⟩
    rw [outcome, frames_append hparts, messagesOf]
    simp only [List.cons_append, List.map_cons, List.map_append, List.map_nil, List.append_assoc,
      List.nil_append, greet, hhello, shakeHands, hcheck, request, hrequest]
    exact hloop

theorem response_unique {S : Session δ D} {events others : List PluginMessage}
    {version version' : UInt32} {id id' json json' : String} {more more' : List Received}
    (hvalid : ∀ message ∈ events, ValidEvent S message)
    (hvalid' : ∀ message ∈ others, ValidEvent S message)
    (h : events.map .ok ++ .ok (.response version id json) :: more =
      others.map .ok ++ .ok (.response version' id' json') :: more') : more = more' := by
  induction events generalizing others with
  | nil =>
    cases others with
    | nil => exact (List.cons.inj h).2
    | cons other others =>
      obtain ⟨hfirst, -⟩ := List.cons.inj h
      cases hfirst
      exact (hvalid' _ (List.mem_cons_self ..)).elim
  | cons message events ih =>
    cases others with
    | nil =>
      obtain ⟨hfirst, -⟩ := List.cons.inj h
      cases hfirst
      exact (hvalid _ (List.mem_cons_self ..)).elim
    | cons other others =>
      exact ih (fun m hm => hvalid m (List.mem_cons_of_mem _ hm))
        (fun m hm => hvalid' m (List.mem_cons_of_mem _ hm)) (List.cons.inj h).2

/-- A conversation is not the start of another one. -/
theorem conversation_rest {S : Session δ D} {part rest : List UInt8}
    {execution other : RawPluginExecution D} (h : Conversation S part execution)
    (hwhole : Conversation S (part ++ rest) other) : rest = [] := by
  obtain ⟨events, parts, hdialogue, hparts, rfl⟩ := h
  obtain ⟨others, parts', hdialogue', hparts', hbytes⟩ := hwhole
  have hframes := frames_append hparts rest
  have hframes' := frames_append hparts' []
  rw [List.append_nil, ← hbytes, hframes, messagesOf, messagesOf] at hframes'
  simp only [List.cons_append, List.map_cons, List.map_append, List.map_nil, List.append_assoc,
    List.nil_append, List.cons.injEq, true_and] at hframes'
  refine frames_end ((response_unique hdialogue.valid hdialogue'.valid hframes').trans ?_)
  exact frames_nil _

/-- What the protocol asks of the host, for one stream. -/
structure Guards (S : Session δ D) (env : Environment) (stream : List UInt8) : Prop where
  ends : ∃ result, Returns S env stream result
  finite : ∃ bound, ∀ as s, exec (step S env) (initial D stream) as = some s → as.length ≤ bound
  progress : ∀ s, Reachable (step S env) (initial D stream) s →
    (∃ result, s.phase = .done result) ∨ ∃ a s', step S env s a = some s'
  allocation : ∀ s, Reachable (step S env) (initial D stream) s →
    s.reader.allocated ≤ S.policy.maxFrameBytes.toNat ∧
      s.reader.allocated ≤ absoluteMaxFrameBytes.toNat
  accepts : ∀ result, Returns S env stream result → ∀ execution,
    result = .ok execution ↔ Conversation S stream execution ∧ env.exit = some true

/-- The host's writes reach a plugin that holds a whole conversation, and bytes
after a conversation are a frame. -/
structure Clean (S : Session δ D) (env : Environment) (stream : List UInt8) : Prop where
  written : ∀ execution, Conversation S stream execution → env.exit = some true → env.Written
  followed : ∀ execution part rest, stream = part ++ rest → Conversation S part execution →
    env.exit = some true → env.Written → rest = [] ∨ ∃ message tail,
      readFrame PluginMessage.schema S.policy.maxFrameBytes rest = .ok (message, tail)

def samplePolicy : RuntimePolicy where
  maxFrameBytes := 1024
  maxOutputBytes := 1024
  maxFileBytes := 1
  frameRange := by decide
  outputRange := by decide
  fileRange := by decide

def sampleSession : Session Unit Unit where
  pluginId := "p"
  executableSha256 := "h"
  protocolVersions := [1]
  nonce := "n"
  requestId := "r"
  policy := samplePolicy
  fromJson _ := none
  tryFrom := some
  describe _ := ""

def sampleEnvironment : Environment := ⟨none, none, some true⟩

def sampleExecution : RawPluginExecution Unit := ⟨"1", [], "p", "h"⟩

def sampleParts : List (List UInt8) :=
  (messagesOf sampleSession [] sampleExecution).map fun message =>
    toLeBytes (Json.write decimal message.write).length ++ Json.write decimal message.write

theorem isFrame_write {maximum : UInt32} {message : PluginMessage}
    (h : ¬ outOfLimit maximum (Json.write decimal message.write).length) :
    IsFrame maximum message
      (toLeBytes (Json.write decimal message.write).length ++ Json.write decimal message.write) := by
  refine ⟨_, rfl, h, ?_⟩
  have hread := PluginMessage.schema.readBytes_write message (show 1 ≤ 128 by decide)
  rw [decodeBody, show message.write = PluginMessage.schema.write message from rfl, hread,
    Option.bind_some, PluginMessage.schema.read_write]

theorem sample_conversation : Conversation sampleSession sampleParts.flatten sampleExecution := by
  refine ⟨[], sampleParts, ?_, ?_, rfl⟩
  · exact
      { version := by decide
        valid := List.forall_mem_nil _
        count := by decide
        ordered := .nil
        output := by decide
        diagnostics := rfl
        plugin := rfl
        executable := rfl }
  · refine .cons (isFrame_write ?_) (.cons (isFrame_write ?_) .nil)
    · decide +kernel
    · decide +kernel

end IntoMarkdown.Plugin
