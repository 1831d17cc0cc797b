import IntoMarkdown.Plugin.Exchange

/-! # What is lost between the host and a worker

A run of the worker is lossless where both sides count alike: the frames fit after
their strings are escaped, and the host finds nothing wrong with what was written. -/

namespace IntoMarkdown.Plugin
open IntoMarkdown.Lib Json Transition

variable {δ D : Type}

/-! ## Events that a worker writes -/

/-- An event of this request, whatever its contents are. -/
def OwnEvent (requestId : String) : PluginMessage → Prop
  | .progress version id sequence _ _ _ _ => version = protocolV1 ∧ id = requestId ∧ 0 < sequence
  | .diagnostic version id sequence _ => version = protocolV1 ∧ id = requestId ∧ 0 < sequence
  | _ => False

def PluginMessage.IsTerminal : PluginMessage → Prop
  | response .. => True
  | error .. => True
  | _ => False

/-- Contents that the host accepts. -/
def Contents (S : Session δ D) : PluginMessage → Prop
  | .progress _ _ _ stage _ _ message =>
    (parseStage stage).isOk ∧ ∀ text ∈ message, text.utf8ByteSize ≤ 4096
  | .diagnostic _ _ _ json => (readDiagnosticEvent S json).isOk
  | _ => True

theorem validEvent_iff {S : Session δ D} {message : PluginMessage} :
    ValidEvent S message ↔ OwnEvent S.requestId message ∧ Contents S message := by
  cases message with
  | progress version id sequence stage completedUnits totalUnits message =>
    simp only [ValidEvent, OwnEvent, Contents, and_assoc]
  | diagnostic version id sequence json => simp only [ValidEvent, OwnEvent, Contents, and_assoc]
  | response version id resultJson => simp only [ValidEvent, OwnEvent, false_and]
  | error version id code message => simp only [ValidEvent, OwnEvent, false_and]
  | hello version id nonce => simp only [ValidEvent, OwnEvent, false_and]

structure Emitted (maximum : UInt32) (requestId : String) (next : Nat) (message : PluginMessage) :
    Prop where
  fits : Fits PluginMessage.schema maximum message
  own : OwnEvent requestId message
  later : next ≤ message.sequence.toNat

theorem callMessage_own {toJson : D → Option String} {requestId : String} {next : Nat}
    {call : Call D} {message : PluginMessage} (hpos : 0 < next) (hnext : next + 1 < 2 ^ 64)
    (h : callMessage toJson requestId (.ofNat next) call = some message) :
    OwnEvent requestId message ∧ message.sequence.toNat = next := by
  have htoNat : (UInt64.ofNat next).toNat = next := UInt64.toNat_ofNat_of_lt' (lt_trans (Nat.lt_succ_self next) hnext)
  have hsequence : 0 < UInt64.ofNat next := by
    rw [UInt64.lt_iff_toNat_lt, htoNat]
    exact hpos
  cases call with
  | progress stage completedUnits totalUnits text =>
    cases h
    exact ⟨⟨rfl, rfl, hsequence⟩, htoNat⟩
  | diagnostic record =>
    obtain ⟨json, -, rfl⟩ := Option.map_eq_some_iff.mp h
    exact ⟨⟨rfl, rfl, hsequence⟩, htoNat⟩

theorem emit_emitted {maximum : UInt32} {toJson : D → Option String} {requestId : String}
    {next : Nat} (hpos : 0 < next) (calls : List (Call D)) :
    (∀ e ∈ emit maximum toJson requestId next calls, Emitted maximum requestId next e.1) ∧
      ((emit maximum toJson requestId next calls).map fun e => e.1.sequence).Pairwise (· < ·) := by
  induction calls generalizing next with
  | nil => exact ⟨List.forall_mem_nil _, .nil⟩
  | cons call rest ih =>
    have hskip : ∀ {events : List (PluginMessage × List D)},
        (∀ e ∈ events, Emitted maximum requestId (next + 1) e.1) →
        ∀ e ∈ events, Emitted maximum requestId next e.1 := by
      intro events h e he
      exact { h e he with later := Nat.le_of_succ_le (h e he).later }
    simp only [emit]
    cases hcall : callMessage toJson requestId (.ofNat next) call with
    | none => exact ih hpos
    | some message =>
      dsimp only
      split
      · exact ih hpos
      · rename_i hnext
        obtain ⟨hown, hsequence⟩ := callMessage_own hpos (not_le.mp hnext) hcall
        obtain ⟨hall, hordered⟩ := ih (Nat.succ_pos next)
        by_cases hfits : Fits PluginMessage.schema maximum message
        · rw [writeFrame_fits hfits]
          refine ⟨List.forall_mem_cons.mpr ⟨⟨hfits, hown, hsequence.ge⟩, hskip hall⟩, ?_⟩
          rw [List.map_cons, List.pairwise_cons]
          refine ⟨fun n hn => ?_, hordered⟩
          obtain ⟨e, he, rfl⟩ := List.mem_map.mp hn
          rw [UInt64.lt_iff_toNat_lt, hsequence]
          exact (hall e he).later
        · obtain ⟨error, herror⟩ := writeFrame_unfit hfits
          rw [herror]
          exact ⟨hskip hall, hordered⟩

/-! ## Errors of the host's own -/

/-- The error does not report what the plugin returned. -/
def Foreign (error : PluginError) : Prop := ¬ "plugin returned ".toList <+: error.detail.toList

theorem foreign_new {detail : String} (code : PluginErrorCode)
    (h : ¬ "plugin returned ".toList <+: clip 512 detail.toList) : Foreign (.new code detail) := by
  have hdetail : (PluginError.new code detail).detail.toList = clip 512 detail.toList :=
    String.toList_ofList
  exact fun hstart => h (hdetail ▸ hstart)

theorem foreign_eventLimit : Foreign eventLimit := foreign_new _ (by decide)

theorem foreign_validateEvent {version : UInt32} {id expected : String} {sequence last : UInt64}
    {error : PluginError} (h : validateEvent version id expected sequence last = .error error) :
    Foreign error := by
  unfold validateEvent at h
  split at h <;> cases h
  exact foreign_new _ (by decide)

theorem foreign_parseStage {stage : String} {error : PluginError}
    (h : parseStage stage = .error error) : Foreign error := by
  unfold parseStage at h
  split_ifs at h
  cases h
  exact foreign_new _ (by decide)

theorem foreign_readDiagnosticEvent {S : Session δ D} {json : String} {error : PluginError}
    (h : readDiagnosticEvent S json = .error error) : Foreign error := by
  unfold readDiagnosticEvent at h
  split at h
  · cases h
    exact foreign_new _ (by decide)
  · split at h <;> cases h
    exact foreign_new _ (by decide)
  · cases h
    exact foreign_new _ (by decide)

theorem foreign_classify (S : Session δ D) (error : FrameError) :
    Foreign (classifyReceivedFrame S error) := by
  unfold classifyReceivedFrame
  dsimp only
  apply foreign_new
  split_ifs <;> decide

theorem clip_append {n : Nat} {a : List Char} (h : bytesOf a ≤ n) (b : List Char) :
    a <+: clip n (a ++ b) := by
  induction a generalizing n with
  | nil => exact List.nil_prefix
  | cons c a ih =>
    rw [bytesOf_cons] at h
    rw [List.cons_append, clip, if_pos (by omega)]
    exact List.cons_prefix_cons.mpr ⟨rfl, ih (by omega)⟩

theorem returned_not_foreign (code message : String) : ¬ Foreign (returnedError code message) := by
  rw [Foreign, not_not, returnedError, PluginError.new]
  simp only [String.toList_ofList, String.toList_append, List.append_assoc]
  exact clip_append (by decide) _

/-- What is wrong with an event of the request is the host's finding. -/
theorem foreign_onMessage {S : Session δ D} {events : Events D} {message : PluginMessage}
    {error : PluginError} (hown : OwnEvent S.requestId message)
    (h : onMessage S events message = .error error) : Foreign error := by
  cases message with
  | progress version id sequence stage completedUnits totalUnits message =>
    have h := map_error h
    unfold onProgress at h
    dsimp only at h
    split at h
    · cases h
      exact foreign_eventLimit
    · rcases error_bind h with h | ⟨last, -, h⟩
      · exact foreign_validateEvent h
      · rcases error_bind h with h | ⟨parsed, -, h⟩
        · exact foreign_parseStage h
        · cases h
  | diagnostic version id sequence json =>
    have h := map_error h
    unfold onDiagnostic at h
    dsimp only at h
    split at h
    · cases h
      exact foreign_eventLimit
    · rcases error_bind h with h | ⟨last, -, h⟩
      · exact foreign_validateEvent h
      · rcases error_bind h with h | ⟨diagnostic, -, h⟩
        · exact foreign_readDiagnosticEvent h
        · cases h
  | response version id resultJson => exact hown.elim
  | error version id code message => exact hown.elim
  | hello version id nonce => exact hown.elim

/-! ## The host's event loop on these events -/

/-- The host takes these events. -/
def Admits (S : Session δ D) (before : Events D) (events : List PluginMessage) : Prop :=
  Follows S before events
    ⟨"", before.diagnostics ++ events.filterMap (diagnosticOf S), S.pluginId, S.executableSha256⟩

theorem admits_cons {S : Session δ D} {before next : Events D} {message : PluginMessage}
    {events : List PluginMessage} (h : Advances S before message next) :
    Admits S before (message :: events) ↔ Admits S next events := by
  rw [Admits, follows_cons h, Admits, h.diagnostics, filterMap_toList, List.append_assoc]

theorem converse_admitted {S : Session δ D} {env : Environment} {before : Events D}
    {events : List PluginMessage} (h : Admits S before events) :
    ∃ next : Events D,
      next.diagnosticBytes =
        before.diagnosticBytes + (events.map PluginMessage.diagnosticBytes).sum ∧
      next.diagnostics = before.diagnostics ++ events.filterMap (diagnosticOf S) ∧
      ∀ more, converse S env before (events.map .ok ++ more) = converse S env next more := by
  induction events generalizing before with
  | nil => exact ⟨before, rfl, (List.append_nil _).symm, fun _ => rfl⟩
  | cons message events ih =>
    have hcount := h.count
    have houtput := h.output
    have hfirst := (List.pairwise_cons.mp h.ordered).1 _ (List.mem_cons_self ..)
    rw [List.length_cons] at hcount
    simp only [List.map_cons, List.sum_cons] at houtput
    obtain ⟨first, hturn⟩ := onMessage_of (h.valid message (List.mem_cons_self ..))
      (show before.eventCount < 10000 by omega) hfirst (by omega)
    have hadvances := onMessage_advances hturn
    obtain ⟨next, hbytes, hdiagnostics, hmore⟩ := ih ((admits_cons hadvances).mp h)
    refine ⟨next, ?_, ?_, fun more => ?_⟩
    · rw [hbytes, hadvances.bytes, List.map_cons, List.sum_cons, Nat.add_assoc]
    · rw [hdiagnostics, hadvances.diagnostics, filterMap_toList, List.append_assoc]
    · rw [List.map_cons, List.cons_append, converse, hturn]
      exact hmore more

theorem converse_refused {S : Session δ D} {env : Environment} {before : Events D}
    {events : List PluginMessage} (hown : ∀ message ∈ events, OwnEvent S.requestId message)
    (hcount : before.eventCount ≤ 10000)
    (hbytes : before.diagnosticBytes ≤ S.policy.maxOutputBytes.toNat)
    (h : ¬ Admits S before events) :
    ∃ error, Foreign error ∧
      ∀ more, converse S env before (events.map .ok ++ more) = .error error := by
  induction events generalizing before with
  | nil =>
    refine absurd ?_ h
    exact
      { valid := List.forall_mem_nil _
        count := hcount
        ordered := List.pairwise_singleton _ _
        output := by
          rw [utf8ByteSize_eq]
          simpa using hbytes
        diagnostics := rfl
        plugin := rfl
        executable := rfl }
  | cons message events ih =>
    obtain ⟨hfirst, hrest⟩ := List.forall_mem_cons.mp hown
    cases hturn : onMessage S before message with
    | error error =>
      refine ⟨error, foreign_onMessage hfirst hturn, fun more => ?_⟩
      rw [List.map_cons, List.cons_append, converse, hturn]
    | ok turn =>
      cases turn with
      | inl next =>
        have hadvances := onMessage_advances hturn
        obtain ⟨error, hforeign, hmore⟩ := ih hrest hadvances.limit (hadvances.output hbytes)
          fun hadmits => h ((admits_cons hadvances).mpr hadmits)
        refine ⟨error, hforeign, fun more => ?_⟩
        rw [List.map_cons, List.cons_append, converse, hturn]
        exact hmore more
      | inr execution =>
        obtain ⟨rfl, -, -⟩ := onMessage_response hturn
        exact hfirst.elim

namespace Launch
variable (L : Launch δ D) (run : HandlerRun D L.policy)

def events : List PluginMessage := (L.sent run).map Prod.fst

theorem events_emitted :
    (∀ message ∈ L.events run, Emitted L.policy.maxFrameBytes L.request.requestId 1 message) ∧
      ((L.events run).map PluginMessage.sequence).Pairwise (· < ·) := by
  obtain ⟨hall, hordered⟩ : (∀ e ∈ L.sent run,
      Emitted L.policy.maxFrameBytes L.request.requestId 1 e.1) ∧
        ((L.sent run).map fun e : PluginMessage × List D => e.1.sequence).Pairwise (· < ·) :=
    emit_emitted Nat.one_pos run.calls
  constructor
  · intro message hmessage
    obtain ⟨e, he, rfl⟩ := List.mem_map.mp hmessage
    exact hall e he
  · rw [events, List.map_map]
    exact hordered

theorem events_own : ∀ message ∈ L.events run, OwnEvent L.requestId message := by
  intro message hmessage
  rw [L.same]
  exact ((L.events_emitted run).1 message hmessage).own

/-- Which events the host takes is a matter of their number, contents and size. -/
theorem admits_iff : Admits L.toSession {} (L.events run) ↔
    (L.events run).length ≤ 10000 ∧ (∀ message ∈ L.events run, Contents L.toSession message) ∧
      ((L.events run).map PluginMessage.diagnosticBytes).sum ≤
        L.policy.maxOutputBytes.toNat := by
  have hempty : "".utf8ByteSize = 0 := rfl
  constructor
  · intro h
    refine ⟨by simpa using h.count, fun message hmessage => ?_, ?_⟩
    · exact (validEvent_iff.mp (h.valid message hmessage)).2
    · have houtput := h.output
      dsimp only at houtput
      omega
  · rintro ⟨hcount, hcontents, hbytes⟩
    obtain ⟨hall, hordered⟩ := L.events_emitted run
    exact
      { valid := fun message hmessage =>
          validEvent_iff.mpr ⟨L.events_own run message hmessage, hcontents message hmessage⟩
        count := by simpa using hcount
        ordered := by
          refine List.pairwise_cons.mpr ⟨fun n hn => ?_, hordered⟩
          obtain ⟨message, hmessage, rfl⟩ := List.mem_map.mp hn
          rw [UInt64.lt_iff_toNat_lt]
          exact Nat.lt_of_lt_of_le Nat.one_pos (hall message hmessage).later
        output := by
          dsimp only
          omega
        diagnostics := rfl
        plugin := rfl
        executable := rfl }

/-! ## The worker's stream -/

/-- The terminal frame, where it can be written. -/
def terminalFrames : List PluginMessage :=
  if Fits PluginMessage.schema L.policy.maxFrameBytes (L.terminal run) then [L.terminal run] else []

variable {L run}

theorem forall₂_frameBytes {maximum : UInt32} {messages : List PluginMessage}
    (h : ∀ message ∈ messages, Fits PluginMessage.schema maximum message) :
    List.Forall₂ (IsFrame maximum) messages (messages.map (frameBytes PluginMessage.schema)) := by
  induction messages with
  | nil => exact .nil
  | cons message messages ih =>
    obtain ⟨hfirst, hrest⟩ := List.forall_mem_cons.mp h
    exact .cons (isFrame_frameBytes hfirst) (ih hrest)

theorem flatMap_written {maximum : UInt32} {messages : List PluginMessage}
    (h : ∀ message ∈ messages, Fits PluginMessage.schema maximum message) :
    messages.flatMap (written maximum) =
      (messages.map (frameBytes PluginMessage.schema)).flatten := by
  rw [List.flatMap_def]
  exact congrArg List.flatten (List.map_congr_left fun message hmessage =>
    written_fits (h message hmessage))

theorem frames_stream (h : Fits HostMessage.schema L.policy.maxFrameBytes L.message) :
    frames PluginMessage.schema L.policy.maxFrameBytes (L.stream run) =
      (L.greeting :: (L.events run ++ L.terminalFrames run)).map .ok ++ [.error .streamEnded] := by
  have hevents : ∀ message ∈ L.events run,
      Fits PluginMessage.schema L.policy.maxFrameBytes message :=
    fun message hmessage => ((L.events_emitted run).1 message hmessage).fits
  have hterminal : ∀ message ∈ L.terminalFrames run,
      Fits PluginMessage.schema L.policy.maxFrameBytes message := by
    intro message hmessage
    unfold terminalFrames at hmessage
    split at hmessage
    · rename_i hfits
      rwa [List.mem_singleton.mp hmessage]
    · cases hmessage
  have hwritten : written L.policy.maxFrameBytes (L.terminal run) =
      ((L.terminalFrames run).map (frameBytes PluginMessage.schema)).flatten := by
    unfold terminalFrames
    split
    · rename_i hfits
      simp [written_fits hfits]
    · rename_i hfits
      rw [written_unfit hfits]
      rfl
  have hstream : L.stream run = ((L.greeting :: (L.events run ++ L.terminalFrames run)).map
      (frameBytes PluginMessage.schema)).flatten ++ [] := by
    rw [stream, served_fits h run, ← events, flatMap_written hevents, hwritten]
    simp
  rw [hstream, frames_append (forall₂_frameBytes ?_), frames_nil]
  rw [List.forall_mem_cons, List.forall_mem_append]
  exact ⟨L.greeting_fits, hevents, hterminal⟩

theorem environment_written (h : Fits HostMessage.schema L.policy.maxFrameBytes L.message) :
    (L.environment run).Written := by
  constructor
  · rw [environment, writeFrame_fits L.hello_fits]
  · rw [environment, writeFrame_fits h]

theorem environment_exit (h : Fits HostMessage.schema L.policy.maxFrameBytes L.message) :
    (L.environment run).exit =
      some (decide (Fits PluginMessage.schema L.policy.maxFrameBytes (L.terminal run))) := by
  rw [environment, served_fits h run]
  exact congrArg some (Bool.eq_iff_iff.mpr (writeFrame_isOk.trans decide_eq_true_iff.symm))

theorem outcome_stream (h : Fits HostMessage.schema L.policy.maxFrameBytes L.message) :
    outcome L.toSession (L.environment run) (L.stream run) =
      converse L.toSession (L.environment run) {} ((L.events run).map .ok ++
        ((L.terminalFrames run).map .ok ++ [.error .streamEnded])) := by
  obtain ⟨hhello, hrequest⟩ : (L.environment run).Written := environment_written h
  have hcheck : checkHello L.toSession L.greeting = .ok () :=
    checkHello_ok.mpr ⟨rfl, L.versions.2⟩
  rw [outcome, frames_stream h]
  simp only [List.map_cons, List.cons_append, List.map_append, List.append_assoc, greet, hhello,
    shakeHands, hcheck, Plugin.request, hrequest]

/-! ## Lossless runs -/

def resultBytes : Except WorkerError String → Nat
  | .ok resultJson => resultJson.utf8ByteSize
  | .error _ => 0

end Launch

/-- Where both sides count alike: the request that was chosen fits, the written
events are few, with contents that the host reads as they were meant and, with the
result, within the output limit, and the terminal frame fits and is well formed. -/
structure Agreed (L : Launch δ D) (run : HandlerRun D L.policy) : Prop where
  request : Fits HostMessage.schema L.policy.maxFrameBytes L.message
  count : (L.events run).length ≤ 10000
  contents : ∀ message ∈ L.events run, Contents L.toSession message
  output : Launch.resultBytes run.result +
    ((L.events run).map PluginMessage.diagnosticBytes).sum ≤ L.policy.maxOutputBytes.toNat
  diagnostics : ∀ resultJson, run.result = .ok resultJson →
    (L.events run).filterMap (diagnosticOf L.toSession) = (L.sent run).flatMap Prod.snd
  terminal : Fits PluginMessage.schema L.policy.maxFrameBytes (L.terminal run)
  error : ∀ error, run.result = .error error →
    validToken error.code 64 = true ∧ error.message.utf8ByteSize ≤ 4096

namespace Launch
variable {L : Launch δ D} {run : HandlerRun D L.policy}

theorem terminal_ok {resultJson : String} (h : run.result = .ok resultJson) :
    L.terminal run = .response protocolV1 L.requestId resultJson := by
  rw [terminal, h, terminalMessage, if_neg (by have := run.bounded resultJson h; omega), L.same]

theorem terminal_error {error : WorkerError} (h : run.result = .error error) :
    L.terminal run = .error protocolV1 (some L.requestId) error.code error.message := by
  rw [terminal, h, terminalMessage, L.same]

theorem outcome_admitted (hrequest : Fits HostMessage.schema L.policy.maxFrameBytes L.message)
    (h : Admits L.toSession {} (L.events run)) : ∃ next : Events D,
      next.diagnosticBytes = ((L.events run).map PluginMessage.diagnosticBytes).sum ∧
      next.diagnostics = (L.events run).filterMap (diagnosticOf L.toSession) ∧
      outcome L.toSession (L.environment run) (L.stream run) =
        converse L.toSession (L.environment run) next
          ((L.terminalFrames run).map .ok ++ [.error .streamEnded]) := by
  obtain ⟨next, hbytes, hdiagnostics, hmore⟩ := converse_admitted h
  refine ⟨next, ?_, ?_, (outcome_stream hrequest).trans (hmore _)⟩
  · rw [hbytes]
    exact Nat.zero_add _
  · rw [hdiagnostics]
    exact List.nil_append _

theorem outcome_refused (hrequest : Fits HostMessage.schema L.policy.maxFrameBytes L.message)
    (h : ¬ Admits L.toSession {} (L.events run)) : ∃ error, Foreign error ∧
      outcome L.toSession (L.environment run) (L.stream run) = .error error := by
  obtain ⟨error, hforeign, hmore⟩ := converse_refused (L.events_own run) (Nat.zero_le _)
    (Nat.zero_le _) h
  exact ⟨error, hforeign, (outcome_stream hrequest).trans (hmore _)⟩

theorem outcome_unfit (hrequest : Fits HostMessage.schema L.policy.maxFrameBytes L.message)
    (h : ¬ Fits PluginMessage.schema L.policy.maxFrameBytes (L.terminal run)) :
    ∃ error, Foreign error ∧
      outcome L.toSession (L.environment run) (L.stream run) = .error error := by
  by_cases hadmits : Admits L.toSession {} (L.events run)
  · obtain ⟨next, -, -, houtcome⟩ := outcome_admitted hrequest hadmits
    rw [terminalFrames, if_neg h] at houtcome
    exact ⟨_, foreign_classify _ _, houtcome⟩
  · exact outcome_refused hrequest hadmits

/-- The result of a handler comes back exactly where both sides agree. -/
theorem outcome_result (hrequest : Fits HostMessage.schema L.policy.maxFrameBytes L.message)
    {resultJson : String} (hresult : run.result = .ok resultJson) :
    outcome L.toSession (L.environment run) (L.stream run) = L.expected run ↔
      Admits L.toSession {} (L.events run) ∧
      resultJson.utf8ByteSize + ((L.events run).map PluginMessage.diagnosticBytes).sum ≤
        L.policy.maxOutputBytes.toNat ∧
      (L.events run).filterMap (diagnosticOf L.toSession) = (L.sent run).flatMap Prod.snd ∧
      Fits PluginMessage.schema L.policy.maxFrameBytes (L.terminal run) := by
  have hexit : (L.environment run).exit =
      some (decide (Fits PluginMessage.schema L.policy.maxFrameBytes (L.terminal run))) :=
    environment_exit hrequest
  have hquiet : ([.error .streamEnded] : List Received).any Except.isOk = false := rfl
  have hexpected : L.expected run =
      .ok ⟨resultJson, (L.sent run).flatMap Prod.snd, L.pluginId, L.executableSha256⟩ := by
    rw [expected, hresult]
  rw [hexpected]
  constructor
  · intro h
    by_cases hfits : Fits PluginMessage.schema L.policy.maxFrameBytes (L.terminal run)
    · by_cases hadmits : Admits L.toSession {} (L.events run)
      · obtain ⟨next, hbytes, hdiagnostics, houtcome⟩ := outcome_admitted hrequest hadmits
        rw [h, terminalFrames, if_pos hfits, terminal_ok hresult, List.map_singleton,
          List.singleton_append, converse] at houtcome
        cases hturn : onMessage L.toSession next
            (.response protocolV1 L.requestId resultJson) with
        | error error =>
          rw [hturn] at houtcome
          cases houtcome
        | ok turn =>
          rw [hturn] at houtcome
          cases turn with
          | inl more => cases houtcome
          | inr execution =>
            obtain ⟨-, -, rfl⟩ := await_ok.mp houtcome.symm
            obtain ⟨-, houtput, hexecution⟩ := onMessage_response hturn
            rw [hbytes] at houtput
            have hsame := congrArg RawPluginExecution.diagnostics hexecution
            exact ⟨hadmits, houtput, hdiagnostics.symm.trans hsame.symm, hfits⟩
      · obtain ⟨error, -, houtcome⟩ := outcome_refused hrequest hadmits
        rw [h] at houtcome
        cases houtcome
    · obtain ⟨error, -, houtcome⟩ := outcome_unfit hrequest hfits
      rw [h] at houtcome
      cases houtcome
  · rintro ⟨hadmits, houtput, hsame, hfits⟩
    obtain ⟨next, hbytes, hdiagnostics, houtcome⟩ := outcome_admitted hrequest hadmits
    have hturn := onResponse_of (S := L.toSession) (hbytes ▸ houtput)
    rw [houtcome, terminalFrames, if_pos hfits, terminal_ok hresult, List.map_singleton,
      List.singleton_append, converse, hturn]
    refine await_ok.mpr ⟨?_, hquiet, ?_⟩
    · rw [hexit, decide_eq_true hfits]
    · rw [hdiagnostics, hsame]

/-- So does its error. -/
theorem outcome_failure (hrequest : Fits HostMessage.schema L.policy.maxFrameBytes L.message)
    {error : WorkerError} (hresult : run.result = .error error) :
    outcome L.toSession (L.environment run) (L.stream run) = L.expected run ↔
      Admits L.toSession {} (L.events run) ∧
      Fits PluginMessage.schema L.policy.maxFrameBytes (L.terminal run) ∧
      validToken error.code 64 = true ∧ error.message.utf8ByteSize ≤ 4096 := by
  have hforeign : ∀ other, Foreign other →
      outcome L.toSession (L.environment run) (L.stream run) = .error other →
      outcome L.toSession (L.environment run) (L.stream run) ≠ L.expected run := by
    intro other hother houtcome hsame
    rw [houtcome, expected, hresult] at hsame
    cases hsame
    exact returned_not_foreign _ _ hother
  have hturn : ∀ next : Events D, onMessage L.toSession next (L.terminal run) =
      .error (onError L.toSession protocolV1 (some L.requestId) error.code error.message) := by
    intro next
    rw [terminal_error hresult]
    rfl
  have hreturned : onError L.toSession protocolV1 (some L.requestId) error.code error.message =
      if validToken error.code 64 = true ∧ error.message.utf8ByteSize ≤ 4096 then
        returnedError error.code error.message
      else .new .protocol "invalid plugin error frame" := by
    unfold onError
    by_cases hvalid : validToken error.code 64 = true ∧ error.message.utf8ByteSize ≤ 4096
    · rw [if_pos hvalid, if_neg]
      simp [hvalid]
    · rw [if_neg hvalid, if_pos]
      by_cases htoken : validToken error.code 64 = true
      · have hlong : 4096 < error.message.utf8ByteSize := by
          by_contra hshort
          exact hvalid ⟨htoken, not_lt.mp hshort⟩
        exact Or.inr (Or.inr (Or.inr hlong))
      · exact Or.inr (Or.inr (Or.inl htoken))
  constructor
  · intro h
    by_cases hfits : Fits PluginMessage.schema L.policy.maxFrameBytes (L.terminal run)
    · by_cases hadmits : Admits L.toSession {} (L.events run)
      · refine ⟨hadmits, hfits, ?_⟩
        by_contra hvalid
        obtain ⟨next, -, -, houtcome⟩ := outcome_admitted hrequest hadmits
        rw [terminalFrames, if_pos hfits, List.map_singleton, List.singleton_append, converse,
          hturn, hreturned, if_neg hvalid] at houtcome
        exact hforeign _ (foreign_new _ (by decide)) houtcome h
      · obtain ⟨other, hother, houtcome⟩ := outcome_refused hrequest hadmits
        exact absurd h (hforeign _ hother houtcome)
    · obtain ⟨other, hother, houtcome⟩ := outcome_unfit hrequest hfits
      exact absurd h (hforeign _ hother houtcome)
  · rintro ⟨hadmits, hfits, hvalid⟩
    obtain ⟨next, -, -, houtcome⟩ := outcome_admitted hrequest hadmits
    rw [houtcome, terminalFrames, if_pos hfits, List.map_singleton, List.singleton_append, converse,
      hturn, hreturned, if_pos hvalid, expected, hresult]

variable (L)

theorem greeting_events (run : HandlerRun D L.policy) :
    ∀ message ∈ L.greeting :: L.events run, ¬ message.IsTerminal := by
  rw [List.forall_mem_cons]
  refine ⟨id, fun message hmessage hterminal => ?_⟩
  have hown := L.events_own run message hmessage
  cases message with
  | response version id resultJson => exact hown
  | error version id code message => exact hown
  | progress version id sequence stage completedUnits totalUnits message => exact hterminal
  | diagnostic version id sequence json => exact hterminal
  | hello version id nonce => exact hterminal

theorem terminal_isTerminal (run : HandlerRun D L.policy) : (L.terminal run).IsTerminal := by
  cases hresult : run.result with
  | ok resultJson =>
    rw [terminal_ok hresult]
    trivial
  | error error =>
    rw [terminal_error hresult]
    trivial

end Launch

/-- The worker sees the request as it was given, writes one terminal frame at the
end of its stream, and every run of the host returns what the handler meant. -/
structure Lossless (L : Launch δ D) (run : HandlerRun D L.policy) : Prop where
  delivered : ∃ request, L.received = some request ∧ request.requestId = L.request.requestId ∧
    request.inputFormat = L.request.inputFormat ∧ request.sourceName = L.request.sourceName ∧
    request.parametersJson = L.request.parametersJson ∧ request.bytes = L.request.source
  terminal : ∃ messages terminal,
    frames PluginMessage.schema L.policy.maxFrameBytes (L.stream run) =
      (messages ++ [terminal]).map .ok ++ [.error .streamEnded] ∧
    terminal.IsTerminal ∧ ∀ message ∈ messages, ¬ message.IsTerminal
  returned : ∀ result, Returns L.toSession (L.environment run) (L.stream run) result →
    result = L.expected run

/-- A request whose source fits in the frame. -/
def sampleLaunch : Launch Unit Unit where
  pluginId := "p"
  executableSha256 := "h"
  protocolVersions := [1]
  nonce := String.ofList (List.replicate 64 '0')
  requestId := "r"
  policy := samplePolicy
  fromJson _ := none
  tryFrom := some
  describe _ := ""
  request := ⟨"r", "txt", none, none, [65]⟩
  toJson _ := none
  token := by decide
  versions := by decide
  digest := by
    rw [String.toList_ofList]
    exact ⟨List.length_replicate, fun c hc => by rw [List.eq_of_mem_replicate hc]; decide⟩
  same := rfl
  accepted := rfl
  fits := by decide +kernel

/-- A JSON string of as many escaped quotes. -/
def quotes (count : Nat) : String :=
  String.ofList ('"' :: (List.replicate count ['\\', '"']).flatten ++ ['"'])

theorem bytesOf_pairs (count : Nat) :
    bytesOf (List.replicate count ['\\', '"']).flatten = 2 * count := by
  induction count with
  | zero => rfl
  | succ count ih =>
    rw [List.replicate_succ, List.flatten_cons, bytesOf_append, ih,
      show bytesOf ['\\', '"'] = 2 from rfl]
    omega

theorem bytesOf_escaped (count : Nat) :
    bytesOf ((List.replicate count ['\\', '"']).flatten.flatMap escape) = 4 * count := by
  induction count with
  | zero => rfl
  | succ count ih =>
    rw [List.replicate_succ, List.flatten_cons, List.flatMap_append, bytesOf_append, ih,
      show bytesOf (['\\', '"'].flatMap escape) = 4 from by decide +kernel]
    omega

theorem quotes_bytes (count : Nat) : (quotes count).utf8ByteSize = 2 * count + 2 := by
  rw [utf8ByteSize_eq, quotes, String.toList_ofList, List.cons_append, bytesOf_cons,
    bytesOf_append, bytesOf_pairs, show '"'.utf8Size = 1 from rfl,
    show bytesOf ['"'] = 1 from rfl]
  omega

theorem quotes_printed (count : Nat) : 4 * count < bytesOf (printString (quotes count)) := by
  have hescaped := bytesOf_escaped count
  rw [printString, quotes, String.toList_ofList, printChars]
  simp only [List.cons_append, List.flatMap_cons, List.flatMap_append, bytesOf_cons,
    bytesOf_append, show '"'.utf8Size = 1 from rfl]
  omega

def sampleRun : HandlerRun Unit sampleLaunch.policy where
  calls := []
  result := .ok (quotes 256)
  bounded json h := by
    rw [show json = quotes 256 from (Except.ok.inj h).symm, quotes_bytes]
    decide

end IntoMarkdown.Plugin
