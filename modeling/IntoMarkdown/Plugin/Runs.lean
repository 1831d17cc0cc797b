import IntoMarkdown.Plugin.Host

/-! # Runs of the host

However the pieces of the plugin's stream, the reader thread and the host are
interleaved, a run ends, and it ends with what the frames of the stream give one
after another. -/

namespace IntoMarkdown.Plugin
open IntoMarkdown.Lib Transition

variable {δ D : Type}

/-! ## One frame after another -/

section
variable (S : Session δ D) (env : Environment)

/-- The exit of the process, and the drain of what it wrote after its response. -/
def await (execution : RawPluginExecution D) (frames : List Received) :
    Except PluginError (RawPluginExecution D) :=
  if env.exit = some true then finishDrain execution (frames.any Except.isOk)
  else .error (.new .crashed "plugin did not exit successfully after response")

def converse (events : Events D) : List Received → Except PluginError (RawPluginExecution D)
  | [] => .error (.new .crashed "plugin protocol stream ended")
  | .error error :: _ => .error (classifyReceivedFrame S error)
  | .ok message :: rest => match onMessage S events message with
    | .ok (.inl events) => converse events rest
    | .ok (.inr execution) => await env execution rest
    | .error error => .error error

def request (frames : List Received) : Except PluginError (RawPluginExecution D) :=
  match env.requestWrite with
  | none => converse S env {} frames
  | some error => .error error

def shakeHands : List Received → Except PluginError (RawPluginExecution D)
  | [] => .error (.new .crashed "plugin protocol stream ended")
  | .error error :: _ => .error (classifyReceivedFrame S error)
  | .ok message :: rest => match checkHello S message with
    | .ok () => request S env rest
    | .error error => .error error

def greet (frames : List Received) : Except PluginError (RawPluginExecution D) :=
  match env.helloWrite with
  | none => shakeHands S env frames
  | some text => .error (mapWriteError text)

/-- What a phase ends with when these frames are all that comes. -/
def conclude (frames : List Received) : Phase D → Except PluginError (RawPluginExecution D)
  | .greeting => greet S env frames
  | .handshake => shakeHands S env frames
  | .requesting => request S env frames
  | .conversing events => converse S env events frames
  | .waiting execution => await env execution frames
  | .draining execution extra => finishDrain execution (extra || frames.any Except.isOk)
  | .done result => result

/-- What the whole stream of a plugin gives. -/
def outcome (stream : List UInt8) : Except PluginError (RawPluginExecution D) :=
  greet S env (frames PluginMessage.schema S.policy.maxFrameBytes stream)

def initial (D : Type) (stream : List UInt8) : System D := { unwritten := stream }

/-- The result is one that some run of the host ends with. -/
def Returns (stream : List UInt8) (result : Except PluginError (RawPluginExecution D)) : Prop :=
  ∃ s, Reachable (step S env) (initial D stream) s ∧ s.phase = .done result

end

/-! ## The reader thread -/

/-- The frames that a read result stands for. -/
def after (maximum : UInt32) : Except FrameError (PluginMessage × List UInt8) → List Received
  | .error error => [.error error]
  | .ok (message, rest) => .ok message :: frames PluginMessage.schema maximum rest

theorem frames_eq_after (maximum : UInt32) (bytes : List UInt8) :
    frames PluginMessage.schema maximum bytes =
      after maximum (readFrame PluginMessage.schema maximum bytes) := by
  cases h : readFrame PluginMessage.schema maximum bytes with
  | error e => exact frames_error h
  | ok r => exact frames_ok h

/-- The frames that the reader still has to send, when it can read these bytes. -/
def Reader.pending (maximum : UInt32) (bytes : List UInt8) : Reader → List Received
  | .header got => frames PluginMessage.schema maximum (got ++ bytes)
  | .body length got => after maximum (readBody PluginMessage.schema length (got ++ bytes))
  | .full (.error error) => [.error error]
  | .full (.ok message) => .ok message :: frames PluginMessage.schema maximum bytes
  | .ended => []

def System.pending (maximum : UInt32) (s : System D) : List Received :=
  s.slot.toList ++ s.reader.pending maximum (s.pipe ++ s.unwritten)

/-- The reader is inside a frame, and what it holds for it is within the limits. -/
def Reader.Bounded (maximum : UInt32) : Reader → Prop
  | .header got => got.length < 4
  | .body length got => got.length < length ∧ ¬ outOfLimit maximum length
  | _ => True

theorem readBody_short {length : Nat} {bytes : List UInt8} (h : bytes.length < length) :
    readBody PluginMessage.schema length bytes = .error .truncatedBody := by
  rw [readBody, if_pos h]
  rfl

theorem readBody_full {length : Nat} {bytes rest : List UInt8} (h : bytes.length = length) :
    readBody PluginMessage.schema length (bytes ++ rest) =
      (decodeBody PluginMessage.schema bytes).map fun message => (message, rest) := by
  subst h
  rw [readBody, if_neg (by simp), List.take_left, List.drop_left]
  cases decodeBody PluginMessage.schema bytes <;> rfl

theorem pending_full (maximum : UInt32) (frame : Received) (rest : List UInt8) :
    (Reader.full frame).pending maximum rest =
      after maximum (frame.map fun message => (message, rest)) := by
  cases frame <;> rfl

theorem pending_onHeader {maximum : UInt32} {got : List UInt8} (h : got.length ≤ 4)
    (rest : List UInt8) : (Reader.onHeader maximum got).pending maximum rest =
      frames PluginMessage.schema maximum (got ++ rest) := by
  match got, h with
  | [a, b, c, d], _ =>
    rw [frames_eq_after]
    simp only [Reader.onHeader, List.cons_append, List.nil_append, readFrame]
    split
    · rfl
    · rfl
  | [], _ => rfl
  | [_], _ => rfl
  | [_, _], _ => rfl
  | [_, _, _], _ => rfl

theorem pending_accept {maximum : UInt32} {reader : Reader} {bytes : List UInt8}
    (hwants : bytes.length ≤ reader.wants) (hb : reader.Bounded maximum) (rest : List UInt8) :
    (reader.accept maximum bytes).pending maximum rest = reader.pending maximum (bytes ++ rest) := by
  cases reader with
  | header got =>
    simp only [Reader.wants] at hwants
    simp only [Reader.Bounded] at hb
    simp only [Reader.accept, Reader.pending, ← List.append_assoc]
    exact pending_onHeader (by rw [List.length_append]; omega) rest
  | body length got =>
    simp only [Reader.wants] at hwants
    simp only [Reader.Bounded] at hb
    rw [Reader.accept]
    by_cases hshort : (got ++ bytes).length < length
    · rw [if_pos hshort, Reader.pending, Reader.pending, List.append_assoc]
    · have hlength : (got ++ bytes).length = length := by
        rw [List.length_append] at hshort ⊢
        omega
      rw [if_neg hshort, pending_full, Reader.pending, ← List.append_assoc, readBody_full hlength]
  | full frame =>
    obtain rfl := List.eq_nil_of_length_eq_zero (Nat.le_zero.mp hwants)
    rfl
  | ended => rfl

theorem pending_finish {maximum : UInt32} {reader : Reader} (hwants : 0 < reader.wants)
    (hb : reader.Bounded maximum) :
    reader.finish.pending maximum [] = reader.pending maximum [] := by
  cases reader with
  | header got =>
    rw [Reader.pending, List.append_nil, frames_eq_after]
    match got, hb with
    | [], _ => rfl
    | [_], _ => rfl
    | [_, _], _ => rfl
    | [_, _, _], _ => rfl
  | body length got =>
    rw [Reader.pending, List.append_nil, readBody_short hb.1]
    rfl
  | full frame => cases hwants
  | ended => cases hwants

theorem pending_sent (maximum : UInt32) (frame : Received) (rest : List UInt8) :
    frame :: (Reader.sent frame).pending maximum rest =
      (Reader.full frame).pending maximum rest := by
  cases frame <;> rfl

theorem bounded_onHeader (maximum : UInt32) {got : List UInt8} (h : got.length ≤ 4) :
    (Reader.onHeader maximum got).Bounded maximum := by
  match got, h with
  | [a, b, c, d], _ =>
    simp only [Reader.onHeader]
    split
    · trivial
    · rename_i hlimit
      refine ⟨?_, hlimit⟩
      simp only [outOfLimit, not_or] at hlimit
      exact Nat.pos_of_ne_zero hlimit.1
  | [], _ => exact (by decide : 0 < 4)
  | [_], _ => exact (by decide : 1 < 4)
  | [_, _], _ => exact (by decide : 2 < 4)
  | [_, _, _], _ => exact (by decide : 3 < 4)

theorem bounded_accept {maximum : UInt32} {reader : Reader} {bytes : List UInt8}
    (hwants : bytes.length ≤ reader.wants) (hb : reader.Bounded maximum) :
    (reader.accept maximum bytes).Bounded maximum := by
  cases reader with
  | header got =>
    simp only [Reader.wants] at hwants
    simp only [Reader.Bounded] at hb
    exact bounded_onHeader maximum (by rw [List.length_append]; omega)
  | body length got =>
    simp only [Reader.accept]
    split
    · rename_i hshort
      exact ⟨hshort, hb.2⟩
    · trivial
  | full frame => trivial
  | ended => trivial

theorem bounded_finish {maximum : UInt32} {reader : Reader} (hb : reader.Bounded maximum) :
    reader.finish.Bounded maximum := by
  match reader, hb with
  | .header [], _ => trivial
  | .header (_ :: _), _ => trivial
  | .body _ _, _ => trivial
  | .full _, _ => trivial
  | .ended, _ => trivial

theorem bounded_sent (maximum : UInt32) (frame : Received) :
    (Reader.sent frame).Bounded maximum := by
  cases frame with
  | error e => trivial
  | ok message => exact (by decide : 0 < 4)

/-! ## What a step keeps -/

section
variable {S : Session δ D} {env : Environment}

theorem conclude_proceed {phase next : Phase D} (h : phase.proceed env = some next)
    (frames : List Received) : conclude S env frames phase = conclude S env frames next := by
  cases phase with
  | greeting =>
    rw [conclude, greet]
    rw [Phase.proceed] at h
    cases hwrite : env.helloWrite <;> rw [hwrite] at h <;> cases h <;> rfl
  | requesting =>
    rw [conclude, request]
    rw [Phase.proceed] at h
    cases hwrite : env.requestWrite <;> rw [hwrite] at h <;> cases h <;> rfl
  | waiting execution =>
    rw [conclude, await]
    rw [Phase.proceed] at h
    split at h
    · rename_i hexit
      cases h
      rw [if_pos hexit]
      rfl
    · rename_i hexit
      cases h
      rw [if_neg hexit]
      rfl
  | handshake => cases h
  | conversing events => cases h
  | draining execution extra => cases h
  | done result => cases h

theorem conclude_onFrame {phase next : Phase D} {frame : Received}
    (h : phase.onFrame S frame = some next) (rest : List Received) :
    conclude S env (frame :: rest) phase = conclude S env rest next := by
  cases phase with
  | handshake =>
    cases frame with
    | error error =>
      cases h
      rfl
    | ok message =>
      rw [conclude, shakeHands]
      simp only [Phase.onFrame] at h
      cases hcheck : checkHello S message <;> rw [hcheck] at h <;> cases h <;> rfl
  | conversing events =>
    cases frame with
    | error error =>
      cases h
      rfl
    | ok message =>
      rw [conclude, converse]
      simp only [Phase.onFrame] at h
      cases hturn : onMessage S events message with
      | error error =>
        rw [hturn] at h
        cases h
        rfl
      | ok turn =>
        rw [hturn] at h
        cases turn <;> cases h <;> rfl
  | draining execution extra =>
    cases h
    rw [conclude, conclude, List.any_cons, Bool.or_assoc]
  | greeting => cases h
  | requesting => cases h
  | waiting execution => cases h
  | done result => cases h

theorem conclude_onDisconnect {phase next : Phase D} (h : phase.onDisconnect = some next) :
    conclude S env [] phase = conclude S env [] next := by
  cases phase with
  | handshake =>
    cases h
    rfl
  | conversing events =>
    cases h
    rfl
  | draining execution extra =>
    cases h
    rw [conclude, conclude, List.any_nil, Bool.or_false]
  | greeting => cases h
  | requesting => cases h
  | waiting execution => cases h
  | done result => cases h

/-- What the host is about to conclude is settled from the start. -/
structure Inv (S : Session δ D) (env : Environment) (stream : List UInt8) (s : System D) : Prop where
  same : conclude S env (s.pending S.policy.maxFrameBytes) s.phase = outcome S env stream
  bounded : s.reader.Bounded S.policy.maxFrameBytes
  written : s.closed = true → s.unwritten = []

theorem inv_initial (stream : List UInt8) : Inv S env stream (initial D stream) where
  same := rfl
  bounded := (by decide : 0 < 4)
  written h := by cases h

theorem hostStep_cases {s s' : System D} (h : hostStep S env s = some s') :
    (∃ phase, s.phase.proceed env = some phase ∧ s' = { s with phase }) ∨
    (∃ frame phase, s.slot = some frame ∧ s.phase.onFrame S frame = some phase ∧
      s' = { s with phase, slot := none }) ∨
    (∃ phase, s.slot = none ∧ s.reader = .ended ∧ s.phase.onDisconnect = some phase ∧
      s' = { s with phase }) := by
  unfold hostStep at h
  split at h
  · rename_i phase hphase
    exact Or.inl ⟨phase, hphase, (Option.some.inj h).symm⟩
  · split at h
    · rename_i frame hslot
      obtain ⟨phase, hphase, rfl⟩ := Option.map_eq_some_iff.mp h
      exact Or.inr (Or.inl ⟨frame, phase, hslot, hphase, rfl⟩)
    · rename_i hslot hreader
      obtain ⟨phase, hphase, rfl⟩ := Option.map_eq_some_iff.mp h
      exact Or.inr (Or.inr ⟨phase, hslot, hreader, hphase, rfl⟩)
    · cases h

theorem inv_host {stream : List UInt8} {s s' : System D} (hs : Inv S env stream s)
    (h : hostStep S env s = some s') : Inv S env stream s' := by
  rcases hostStep_cases h with ⟨phase, hphase, rfl⟩ | ⟨frame, phase, hslot, hphase, rfl⟩ |
    ⟨phase, hslot, hreader, hphase, rfl⟩
  · exact ⟨(conclude_proceed hphase _).symm.trans hs.same, hs.bounded, hs.written⟩
  · refine ⟨?_, hs.bounded, hs.written⟩
    have hsame := hs.same
    rw [System.pending, hslot, Option.toList_some, List.singleton_append,
      conclude_onFrame hphase] at hsame
    exact hsame
  · refine ⟨?_, hs.bounded, hs.written⟩
    have hpending : s.pending S.policy.maxFrameBytes = [] := by
      rw [System.pending, hslot, hreader]
      rfl
    have hsame := hs.same
    rw [hpending, conclude_onDisconnect hphase] at hsame
    rw [← hsame]
    exact congrArg (conclude S env · phase) hpending

theorem inv_step {stream : List UInt8} {s s' : System D} {a : Action} (hs : Inv S env stream s)
    (h : step S env s a = some s') : Inv S env stream s' := by
  have keeps : ∀ {t : System D}, t.phase = s.phase →
      t.pending S.policy.maxFrameBytes = s.pending S.policy.maxFrameBytes →
      conclude S env (t.pending S.policy.maxFrameBytes) t.phase = outcome S env stream := by
    intro t hphase hpending
    rw [hphase, hpending]
    exact hs.same
  match a, h with
  | .write count, h =>
    simp only [step] at h
    split at h
    · cases h
      refine ⟨keeps rfl ?_, hs.bounded, fun hclosed => ?_⟩
      · simp only [System.pending, List.append_assoc, List.take_append_drop]
      · rw [hs.written hclosed, List.drop_nil]
    · cases h
  | .close, h =>
    simp only [step] at h
    split at h
    · rename_i hempty
      cases h
      exact ⟨keeps rfl rfl, hs.bounded, fun _ => hempty.1⟩
    · cases h
  | .read 0, h =>
    simp only [step] at h
    split at h
    · rename_i hend
      obtain ⟨hpipe, hclosed, hwants⟩ := hend
      cases h
      refine ⟨keeps rfl ?_, bounded_finish hs.bounded, hs.written⟩
      simp only [System.pending, hpipe, hs.written hclosed, List.append_nil]
      rw [pending_finish hwants hs.bounded]
    · cases h
  | .read (count + 1), h =>
    simp only [step] at h
    split at h
    · rename_i hcount
      cases h
      have hlength : (s.pipe.take (count + 1)).length ≤ s.reader.wants :=
        (List.length_take_le _ _).trans hcount.2
      refine ⟨keeps rfl ?_, bounded_accept hlength hs.bounded, hs.written⟩
      simp only [System.pending]
      rw [pending_accept hlength hs.bounded, ← List.append_assoc, List.take_append_drop]
    · cases h
  | .send, h =>
    simp only [step] at h
    split at h
    · rename_i frame hreader hslot
      cases h
      refine ⟨keeps rfl ?_, bounded_sent _ frame, hs.written⟩
      simp only [System.pending, hslot, hreader, Option.toList_some, Option.toList_none,
        List.singleton_append, List.nil_append]
      exact pending_sent _ frame _
    · cases h
  | .host, h => exact inv_host hs h

theorem inv_reachable {stream : List UInt8} {s : System D}
    (h : Reachable (step S env) (initial D stream) s) : Inv S env stream s :=
  h.invariant (inv_initial stream) fun _ _ _ hs hstep => inv_step hs hstep

/-- All runs that end give one result. -/
theorem eq_outcome_of_returns {stream : List UInt8}
    {result : Except PluginError (RawPluginExecution D)} (h : Returns S env stream result) :
    result = outcome S env stream := by
  obtain ⟨s, hs, hdone⟩ := h
  have hsame := (inv_reachable hs).same
  rw [hdone] at hsame
  exact hsame

/-- The reader never holds more for a body than the limits allow. -/
theorem allocated_le {stream : List UInt8} {s : System D}
    (h : Reachable (step S env) (initial D stream) s) :
    s.reader.allocated ≤ S.policy.maxFrameBytes.toNat ∧
      s.reader.allocated ≤ absoluteMaxFrameBytes.toNat := by
  have hb := (inv_reachable h).bounded
  cases hreader : s.reader with
  | body length got =>
    rw [hreader] at hb
    have hlimit := hb.2
    simp only [outOfLimit, not_or, not_lt] at hlimit
    exact ⟨hlimit.2.1, hlimit.2.2⟩
  | header got => exact ⟨Nat.zero_le _, Nat.zero_le _⟩
  | full frame => exact ⟨Nat.zero_le _, Nat.zero_le _⟩
  | ended => exact ⟨Nat.zero_le _, Nat.zero_le _⟩

/-! ## Runs end -/

def Reader.weight : Reader → Nat
  | header _ => 4
  | body _ _ => 4
  | full (.ok _) => 7
  | full (.error _) => 3
  | ended => 0

def Phase.weight : Phase D → Nat
  | greeting => 6
  | handshake => 5
  | requesting => 4
  | conversing _ => 3
  | waiting _ => 2
  | draining _ _ => 1
  | done _ => 0

/-- What is left to do. Every byte of the pipe pays for the frame that it may
complete. -/
def System.remaining (s : System D) : Nat :=
  5 * s.unwritten.length + 4 * s.pipe.length + (if s.closed then 0 else 1) + s.reader.weight +
    2 * s.slot.toList.length + s.phase.weight

theorem proceed_weight {phase next : Phase D} (h : phase.proceed env = some next) :
    next.weight < phase.weight := by
  cases phase with
  | greeting =>
    rw [Phase.proceed] at h
    cases hwrite : env.helloWrite <;> rw [hwrite] at h <;> cases h
    · exact (by decide : 5 < 6)
    · exact (by decide : 0 < 6)
  | requesting =>
    rw [Phase.proceed] at h
    cases hwrite : env.requestWrite <;> rw [hwrite] at h <;> cases h
    · exact (by decide : 3 < 4)
    · exact (by decide : 0 < 4)
  | waiting execution =>
    rw [Phase.proceed] at h
    split at h <;> cases h
    · exact (by decide : 1 < 2)
    · exact (by decide : 0 < 2)
  | handshake => cases h
  | conversing events => cases h
  | draining execution extra => cases h
  | done result => cases h

theorem onFrame_weight {phase next : Phase D} {frame : Received}
    (h : phase.onFrame S frame = some next) : next.weight ≤ phase.weight := by
  cases phase with
  | handshake =>
    cases frame with
    | error error =>
      cases h
      exact Nat.zero_le _
    | ok message =>
      simp only [Phase.onFrame] at h
      cases hcheck : checkHello S message <;> rw [hcheck] at h <;> cases h
      · exact Nat.zero_le _
      · exact (by decide : 4 ≤ 5)
  | conversing events =>
    cases frame with
    | error error =>
      cases h
      exact Nat.zero_le _
    | ok message =>
      simp only [Phase.onFrame] at h
      cases hturn : onMessage S events message with
      | error error =>
        rw [hturn] at h
        cases h
        exact Nat.zero_le _
      | ok turn =>
        rw [hturn] at h
        cases turn <;> cases h
        · exact Nat.le_refl 3
        · exact (by decide : 2 ≤ 3)
  | draining execution extra =>
    cases h
    exact Nat.le_refl 1
  | greeting => cases h
  | requesting => cases h
  | waiting execution => cases h
  | done result => cases h

theorem onDisconnect_weight {phase next : Phase D} (h : phase.onDisconnect = some next) :
    next.weight < phase.weight := by
  cases phase with
  | handshake =>
    cases h
    exact (by decide : 0 < 5)
  | conversing events =>
    cases h
    exact (by decide : 0 < 3)
  | draining execution extra =>
    cases h
    exact (by decide : 0 < 1)
  | greeting => cases h
  | requesting => cases h
  | waiting execution => cases h
  | done result => cases h

theorem full_weight (frame : Received) : (Reader.full frame).weight ≤ 7 := by
  cases frame with
  | error error => exact (by decide : 3 ≤ 7)
  | ok message => exact Nat.le_refl 7

theorem accept_weight (maximum : UInt32) {reader : Reader} (hwants : 0 < reader.wants)
    (bytes : List UInt8) : (reader.accept maximum bytes).weight ≤ reader.weight + 3 := by
  cases reader with
  | header got =>
    simp only [Reader.accept, Reader.onHeader]
    split
    · split
      · exact (by decide : 3 ≤ 7)
      · exact (by decide : 4 ≤ 7)
    · exact (by decide : 4 ≤ 7)
  | body length got =>
    simp only [Reader.accept]
    split
    · exact (by decide : 4 ≤ 7)
    · exact full_weight _
  | full frame => cases hwants
  | ended => cases hwants

theorem finish_weight {reader : Reader} (hwants : 0 < reader.wants) :
    reader.finish.weight < reader.weight := by
  match reader, hwants with
  | .header [], _ => exact (by decide : 3 < 4)
  | .header (_ :: _), _ => exact (by decide : 3 < 4)
  | .body _ _, _ => exact (by decide : 3 < 4)

theorem sent_weight (frame : Received) :
    (Reader.sent frame).weight + 2 < (Reader.full frame).weight := by
  cases frame with
  | error error => exact (by decide : 2 < 3)
  | ok message => exact (by decide : 6 < 7)

theorem host_remaining {s s' : System D} (h : hostStep S env s = some s') :
    s'.remaining < s.remaining := by
  rcases hostStep_cases h with ⟨phase, hphase, rfl⟩ | ⟨frame, phase, hslot, hphase, rfl⟩ |
    ⟨phase, hslot, hreader, hphase, rfl⟩
  · have hweight := proceed_weight hphase
    simp only [System.remaining]
    omega
  · have hweight := onFrame_weight hphase
    simp only [System.remaining, hslot, Option.toList_some, Option.toList_none, List.length_nil,
      List.length_singleton]
    omega
  · have hweight := onDisconnect_weight hphase
    simp only [System.remaining]
    omega

theorem step_remaining {s s' : System D} {a : Action} (h : step S env s a = some s') :
    s'.remaining < s.remaining := by
  match a, h with
  | .write count, h =>
    simp only [step] at h
    split at h
    · cases h
      simp only [System.remaining, List.length_drop, List.length_append, List.length_take]
      omega
    · cases h
  | .close, h =>
    simp only [step] at h
    split at h
    · rename_i hempty
      cases h
      simp only [System.remaining, hempty.2, if_true, Bool.false_eq_true, if_false]
      omega
    · cases h
  | .read 0, h =>
    simp only [step] at h
    split at h
    · rename_i hend
      cases h
      have hweight := finish_weight hend.2.2
      simp only [System.remaining]
      omega
    · cases h
  | .read (count + 1), h =>
    simp only [step] at h
    split at h
    · rename_i hcount
      cases h
      have hwants := Nat.lt_of_lt_of_le (Nat.succ_pos count) hcount.2
      have hweight := accept_weight S.policy.maxFrameBytes hwants (s.pipe.take (count + 1))
      simp only [System.remaining, List.length_drop]
      omega
    · cases h
  | .send, h =>
    simp only [step] at h
    split at h
    · rename_i frame hreader hslot
      cases h
      have hweight := sent_weight frame
      simp only [System.remaining, hreader, hslot, Option.toList_some, Option.toList_none,
        List.length_nil, List.length_singleton]
      omega
    · cases h
  | .host, h => exact host_remaining h

theorem wants_pos {maximum : UInt32} {reader : Reader} (hb : reader.Bounded maximum)
    (hfull : ∀ frame, reader ≠ .full frame) (hended : reader ≠ .ended) : 0 < reader.wants := by
  cases reader with
  | header got => exact Nat.sub_pos_of_lt hb
  | body length got => exact Nat.sub_pos_of_lt hb.1
  | full frame => exact absurd rfl (hfull frame)
  | ended => exact absurd rfl hended

/-- A host that is not done can go on, or a thread that it waits for can. -/
theorem step_enabled {stream : List UInt8} {s : System D} (hs : Inv S env stream s)
    (hdone : ∀ result, s.phase ≠ .done result) : ∃ a s', step S env s a = some s' := by
  have hproceed : ∀ {phase}, s.phase.proceed env = some phase → ∃ a s', step S env s a = some s' := by
    intro phase hphase
    exact ⟨.host, _, by rw [step, hostStep, hphase]⟩
  have hreceive : s.phase.proceed env = none → (∀ frame, (s.phase.onFrame S frame).isSome) →
      s.phase.onDisconnect.isSome → ∃ a s', step S env s a = some s' := by
    intro hnone hframe hdisconnect
    cases hslot : s.slot with
    | some frame =>
      obtain ⟨phase, hphase⟩ := Option.isSome_iff_exists.mp (hframe frame)
      refine ⟨.host, { s with phase, slot := none }, ?_⟩
      simp only [step, hostStep, hnone, hslot, hphase, Option.map_some]
    | none =>
      by_cases hended : s.reader = .ended
      · obtain ⟨phase, hphase⟩ := Option.isSome_iff_exists.mp hdisconnect
        refine ⟨.host, { s with phase }, ?_⟩
        simp only [step, hostStep, hnone, hslot, hended, hphase, Option.map_some]
      · by_cases hfull : ∃ frame, s.reader = .full frame
        · obtain ⟨frame, hframe⟩ := hfull
          exact ⟨.send, _, by simp only [step, hframe, hslot]; rfl⟩
        · have hwants := wants_pos hs.bounded (not_exists.mp hfull) hended
          cases hpipe : s.pipe with
          | cons b pipe =>
            exact ⟨.read 1, _, by
              rw [step]
              · exact if_pos ⟨by rw [hpipe]; exact Nat.succ_le_succ (Nat.zero_le _), hwants⟩
              · exact Nat.one_ne_zero⟩
          | nil =>
            cases hclosed : s.closed with
            | true => exact ⟨.read 0, _, by rw [step]; exact if_pos ⟨hpipe, hclosed, hwants⟩⟩
            | false =>
              cases hunwritten : s.unwritten with
              | nil => exact ⟨.close, _, by rw [step]; exact if_pos ⟨hunwritten, hclosed⟩⟩
              | cons b rest =>
                exact ⟨.write 1, _, by
                  rw [step]
                  exact if_pos ⟨Nat.one_pos, by
                    rw [hunwritten]
                    exact Nat.succ_le_succ (Nat.zero_le _)⟩⟩
  cases hphase : s.phase with
  | greeting =>
    cases hwrite : env.helloWrite with
    | none => exact hproceed (by rw [hphase, Phase.proceed, hwrite])
    | some text => exact hproceed (by rw [hphase, Phase.proceed, hwrite])
  | requesting =>
    cases hwrite : env.requestWrite with
    | none => exact hproceed (by rw [hphase, Phase.proceed, hwrite])
    | some error => exact hproceed (by rw [hphase, Phase.proceed, hwrite])
  | waiting execution =>
    by_cases hexit : env.exit = some true
    · exact hproceed (by rw [hphase, Phase.proceed, if_pos hexit])
    · exact hproceed (by rw [hphase, Phase.proceed, if_neg hexit])
  | handshake =>
    refine hreceive ?_ ?_ ?_ <;> rw [hphase]
    · rfl
    · rintro (error | message)
      · rfl
      · simp only [Phase.onFrame]
        split <;> rfl
    · rfl
  | conversing events =>
    refine hreceive ?_ ?_ ?_ <;> rw [hphase]
    · rfl
    · rintro (error | message)
      · rfl
      · simp only [Phase.onFrame]
        split <;> rfl
    · rfl
  | draining execution extra =>
    refine hreceive ?_ ?_ ?_ <;> rw [hphase]
    · rfl
    · exact fun _ => rfl
    · rfl
  | done result => exact absurd hphase (hdone result)

theorem inv_remaining {stream : List UInt8} (s : System D) (a : Action) (s' : System D)
    (hs : Inv S env stream s) (h : step S env s a = some s') :
    Inv S env stream s' ∧ s'.remaining < s.remaining :=
  ⟨inv_step hs h, step_remaining h⟩

/-- Some run ends, with the result of the whole stream. -/
theorem returns_outcome (stream : List UInt8) : Returns S env stream (outcome S env stream) := by
  have hstart : Inv S env stream (initial D stream) := inv_initial stream
  obtain ⟨t, ht, hinv, result, hdone⟩ : ∃ t, Reachable (step S env) (initial D stream) t ∧
      Inv S env stream t ∧ ∃ result, t.phase = .done result :=
    exists_reachable inv_remaining (fun s hs hnot => step_enabled hs (not_exists.mp hnot)) hstart
  have hsame := hinv.same
  rw [hdone] at hsame
  exact ⟨t, ht, hdone.trans (congrArg Phase.done hsame)⟩

/-- No run goes on for ever. -/
theorem run_length_le {stream : List UInt8} {as : List Action} {s : System D}
    (h : Transition.exec (step S env) (initial D stream) as = some s) :
    as.length ≤ 5 * stream.length + 11 := by
  have hstart : Inv S env stream (initial D stream) := inv_initial stream
  have hle := exec_length_le inv_remaining hstart h
  simp only [System.remaining, initial, Reader.weight, Phase.weight, List.length_nil,
    Option.toList_none, Bool.false_eq_true, if_false] at hle
  omega

end

end IntoMarkdown.Plugin
