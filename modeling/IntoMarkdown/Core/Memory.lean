import IntoMarkdown.Core.Progress
import IntoMarkdown.Lib.Slots

/-! # Request memory accounting

The reservations, backings and credits of one pool of contexts. `Arc`s are
table entries with a strong count, and `Weak`s are indices. Every atomic access
of a call is one step, so calls on different guards interleave freely; a call
that borrows a reservation mutably is a phase of its slot, as is the credit
guard that keeps the borrow. -/

namespace IntoMarkdown.Core.Memory
open Transition Slots Progress

def u64Modulus : Nat := 2 ^ 64

inductive ResourceKind where
  | memory | temporary
  deriving DecidableEq, Repr

/-- The two limits of the pool, `u64` both. -/
structure ResourceLimits where
  maxMemoryBytes : Nat
  maxTemporaryBytes : Nat
  memory_lt : maxMemoryBytes < u64Modulus
  temporary_lt : maxTemporaryBytes < u64Modulus

structure MemoryBacking where
  bytes : Nat
  strong : Nat := 1
  /-- `Drop for MemoryBacking` has read `bytes`. -/
  freed : Bool := false
  deriving DecidableEq, Repr

structure MemoryCredit where
  backing : Nat
  bytes : Nat := 0
  strong : Nat := 1
  deriving DecidableEq, Repr

/-- A context as its callers hold it: `credit` is its `memory_credit`, which
only the context inside a credit guard has. -/
structure Context where
  shared : Nat
  credit : Option Nat := none
  deriving DecidableEq, Repr

structure ResourceReservation where
  context : Context
  kind : ResourceKind
  bytes : Nat
  globalMemoryBacking : Option Nat
  activeMemoryCredit : Option Nat := none
  deriving DecidableEq, Repr

/-- A counter that a reservation is charged to. -/
inductive Account where
  | memory | temporary
  | credit (c : Nat)
  deriving DecidableEq, Repr

/-- The counter chosen by `reserve`, `grow`, `shrink` and `drop`. -/
def accountOf (kind : ResourceKind) (context : Context) : Account :=
  match kind, context.credit with
  | .temporary, _ => .temporary
  | .memory, none => .memory
  | .memory, some c => .credit c

def ResourceReservation.account (r : ResourceReservation) : Account :=
  accountOf r.kind r.context

/-- The charge of a `reserve` or `grow` in progress. -/
inductive Charge where
  /-- About to read the limit. -/
  | account
  /-- About to update the counter. -/
  | charge (counter : Account) (limit : Nat)
  /-- Charged, about to raise the peak. -/
  | peak (counter : Account) (current : Nat)
  deriving DecidableEq, Repr

/-- What a drop still has to do. -/
inductive Release where
  /-- Drop an `Arc<MemoryCredit>`. -/
  | credit (c : Nat)
  /-- Drop an `Arc<MemoryBacking>`. -/
  | backing (b : Nat)
  /-- `Drop for MemoryBacking` reads `bytes`. -/
  | load (b : Nat)
  /-- `Drop for MemoryBacking` subtracts them. -/
  | sub (bytes : Nat)
  deriving DecidableEq, Repr

/-- What currently borrows or consumes a reservation. -/
inductive Phase where
  | idle
  | growCheck (bytes : Nat)
  | growUpgrade (bytes : Nat)
  | grow (bytes : Nat) (charge : Charge)
  /-- Charged, about to raise the reservation's own count. -/
  | growSettled (bytes : Nat)
  | growBacking (bytes : Nat)
  | shrinkUpgrade (bytes : Nat)
  | shrinkBacking (bytes : Nat)
  | shrinkCounter (bytes : Nat)
  | lendUpgrade (context : Context)
  | lendAttach (context : Context)
  /-- A credit guard with this context is alive. -/
  | lent (context : Context)
  /-- The guard is being dropped. -/
  | returning (todo : List Release)
  /-- The call fails, after the drop of the upgraded `Arc`. -/
  | failing (error : ConversionError) (todo : List Release)
  /-- The drop of a reservation without a backing subtracts its bytes. -/
  | dropCounter
  /-- The fields of the reservation are being dropped. -/
  | dropping (todo : List Release)
  | dropped
  deriving DecidableEq, Repr

structure Slot where
  reservation : ResourceReservation
  phase : Phase := .idle
  deriving DecidableEq, Repr

inductive ReservePhase where
  | check
  | charging (charge : Charge)
  /-- Charged, about to build the guard. -/
  | build
  | done
  deriving DecidableEq, Repr

/-- A `reserve` call. -/
structure Reserve where
  context : Context
  kind : ResourceKind
  bytes : Nat
  phase : ReservePhase := .check
  deriving DecidableEq, Repr

/-- Who a call in progress belongs to. -/
inductive Caller where
  | slot (r : Nat)
  | reserve (j : Nat)
  deriving DecidableEq, Repr

/-- The result of a call. -/
abbrev Outcome := Except ConversionError Unit

structure State where
  limits : ResourceLimits
  memoryBytes : Nat := 0
  memoryPeakBytes : Nat := 0
  temporaryBytes : Nat := 0
  temporaryPeakBytes : Nat := 0
  /-- How many `ExecutionShared` there are: the root's and one for each fork. -/
  shareds : Nat := 1
  backings : List MemoryBacking := []
  credits : List MemoryCredit := []
  slots : List Slot := []
  reserves : List Reserve := []
  /-- Recorded: an atomic addition or subtraction has wrapped. -/
  wrapped : Bool := false
  /-- Recorded: the call in progress has changed a counter. -/
  touched : Caller → Bool := fun _ => false
  /-- Recorded: the results of the finished calls, and whether each call had
  changed a counter. -/
  finished : List (Outcome × Bool) := []

def initial (limits : ResourceLimits) : State := { limits }

/-! ## Tables -/

def State.backingBytes (s : State) (b : Nat) : Nat := (s.backings[b]?).elim 0 (·.bytes)
def State.backingStrong (s : State) (b : Nat) : Nat := (s.backings[b]?).elim 0 (·.strong)
def State.creditBytes (s : State) (c : Nat) : Nat := (s.credits[c]?).elim 0 (·.bytes)
def State.creditStrong (s : State) (c : Nat) : Nat := (s.credits[c]?).elim 0 (·.strong)
def State.creditBacking (s : State) (c : Nat) : Option Nat := (s.credits[c]?).map (·.backing)

/-- `AtomicU64::fetch_add`. -/
def fetchAdd (current amount : Nat) : Nat := (current + amount) % u64Modulus

/-- `AtomicU64::fetch_sub`. -/
def fetchSub (current amount : Nat) : Nat := (current + u64Modulus - amount) % u64Modulus

def State.counter (s : State) : Account → Nat
  | .memory => s.memoryBytes
  | .temporary => s.temporaryBytes
  | .credit c => s.creditBytes c

def State.setCounter (s : State) (counter : Account) (value : Nat) : State :=
  match counter with
  | .memory => { s with memoryBytes := value }
  | .temporary => { s with temporaryBytes := value }
  | .credit c =>
    match s.credits[c]? with
    | some credit => { s with credits := s.credits.set c { credit with bytes := value } }
    | none => s

def State.subCounter (s : State) (counter : Account) (amount : Nat) : State :=
  { s.setCounter counter (fetchSub (s.counter counter) amount) with
    wrapped := s.wrapped || s.counter counter < amount }

def State.raisePeak (s : State) (counter : Account) (current : Nat) : State :=
  match counter with
  | .memory => { s with memoryPeakBytes := max s.memoryPeakBytes current }
  | .temporary => { s with temporaryPeakBytes := max s.temporaryPeakBytes current }
  | .credit _ => s

/-! ## Calls -/

def limitName : ResourceKind → String
  | .memory => "max_memory_bytes"
  | .temporary => "max_temporary_bytes"

/-- `checked_charge`, without the peak. -/
def checkedCharge (s : State) (counter : Account) (amount limit : Nat) (name : String) :
    Except ConversionError State :=
  let current := s.counter counter
  if current + amount < u64Modulus ∧ current + amount ≤ limit then
    .ok (s.setCounter counter (current + amount))
  else
    .error (.resourceLimit name s!"{current} + {amount} exceeds {limit}")

def State.limit (s : State) : Account → Nat
  | .memory => s.limits.maxMemoryBytes
  | .temporary => s.limits.maxTemporaryBytes
  | .credit c => (s.creditBacking c).elim 0 s.backingBytes

/-- One atomic step of a charge: the limit is read (from the credit's backing,
if there is one), the counter is updated, the peak is raised if the counter has
one. The charge is over when nothing is returned to go on with. -/
def chargeStep (s : State) (kind : ResourceKind) (context : Context) (bytes : Nat) :
    Charge → Except ConversionError (State × Option Charge)
  | .account =>
    let counter := accountOf kind context
    .ok (s, some (.charge counter (s.limit counter)))
  | .charge counter limit =>
    match checkedCharge s counter bytes limit (limitName kind) with
    | .error e => .error e
    | .ok s' =>
      match counter with
      | .credit _ => .ok (s', none)
      | _ => .ok (s', some (.peak counter (s.counter counter + bytes)))
  | .peak counter current => .ok (s.raisePeak counter current, none)

/-- One atomic step of a drop, and what it leads to. -/
def releaseStep (s : State) : Release → State × List Release
  | .credit c =>
    match s.credits[c]? with
    | some credit =>
      ({ s with credits := s.credits.set c { credit with strong := credit.strong - 1 } },
        if credit.strong = 1 then [.backing credit.backing] else [])
    | none => (s, [])
  | .backing b =>
    match s.backings[b]? with
    | some backing =>
      ({ s with backings := s.backings.set b { backing with strong := backing.strong - 1 } },
        if backing.strong = 1 then [.load b] else [])
    | none => (s, [])
  | .load b =>
    match s.backings[b]? with
    | some backing =>
      ({ s with backings := s.backings.set b { backing with freed := true } },
        [.sub backing.bytes])
    | none => (s, [])
  | .sub bytes => (s.subCounter .memory bytes, [])

def State.setSlot (s : State) (r : Nat) (slot : Slot) : State :=
  { s with slots := s.slots.set r slot }

/-- The end of a call on a slot. -/
def State.finish (s : State) (r : Nat) (slot : Slot) (outcome : Outcome) :
    State × Option Outcome :=
  (s.setSlot r { slot with phase := .idle }, some outcome)

/-- The call goes on. -/
def State.goOn (s : State) (r : Nat) (slot : Slot) (phase : Phase) : State × Option Outcome :=
  (s.setSlot r { slot with phase := phase }, none)

/-- `ensure_credit_inactive` and its like in `with_memory_credit`: an upgraded
`Arc` is dropped again. -/
def upgrade (s : State) (r : ResourceReservation) : Option (State × Nat) :=
  match r.activeMemoryCredit with
  | none => none
  | some c =>
    match s.credits[c]? with
    | some credit =>
      if 0 < credit.strong then
        some ({ s with credits := s.credits.set c { credit with strong := credit.strong + 1 } }, c)
      else none
    | none => none

def lendError : String :=
  "preflight credit requires an authentic same-context memory reservation"

def lendUnbackedError : String :=
  "preflight credit requires a globally charged memory reservation"

def lendActiveError : String :=
  "preflight reservation already backs a live memory credit"

def resizeError : String :=
  "cannot resize a preflight reservation while credited children are live"

def ResourceReservation.belongsToMemoryContext (r : ResourceReservation) (context : Context) :
    Bool :=
  r.kind = .memory && r.context.shared = context.shared && r.context.credit = context.credit

/-- The next atomic step of the call that a slot is in, with the outcome when
the call ends. `interrupted` is what the checkpoint returns, where the step is
a checkpoint. -/
def slotStep (s : State) (r : Nat) (slot : Slot) (interrupted : Option Interruption) :
    Option (State × Option Outcome) :=
  let reservation := slot.reservation
  match slot.phase with
  | .idle | .lent _ | .dropped => none
  | .growCheck bytes =>
    match interrupted with
    | some i => some (s.finish r slot (.error (.interrupted i)))
    | none => some (s.goOn r slot (.growUpgrade bytes))
  | .growUpgrade bytes =>
    match upgrade s reservation with
    | some (s', c) => some (s'.goOn r slot (.failing (.internal resizeError) [.credit c]))
    | none =>
      if reservation.bytes + bytes < u64Modulus then some (s.goOn r slot (.grow bytes .account))
      else some (s.finish r slot (.error (.resourceLimit (limitName reservation.kind)
        "resource reservation overflowed")))
  | .grow bytes charge =>
    match chargeStep s reservation.kind reservation.context bytes charge with
    | .ok (s', some charge') => some (s'.goOn r slot (.grow bytes charge'))
    | .ok (s', none) => some (s'.goOn r slot (.growSettled bytes))
    | .error e => some (s.finish r slot (.error e))
  | .growSettled bytes =>
    let slot := { slot with
      reservation := { reservation with bytes := reservation.bytes + bytes } }
    match reservation.globalMemoryBacking with
    | some _ => some (s.goOn r slot (.growBacking bytes))
    | none => some (s.finish r slot (.ok ()))
  | .growBacking bytes => do
    let b ← reservation.globalMemoryBacking
    let backing ← s.backings[b]?
    let s' : State := { s with
      backings := s.backings.set b { backing with bytes := fetchAdd backing.bytes bytes }
      wrapped := s.wrapped || u64Modulus ≤ backing.bytes + bytes }
    return s'.finish r slot (.ok ())
  | .shrinkUpgrade bytes =>
    match upgrade s reservation with
    | some (s', c) => some (s'.goOn r slot (.failing (.internal resizeError) [.credit c]))
    | none =>
      if bytes ≤ reservation.bytes then
        let slot := { slot with
          reservation := { reservation with bytes := reservation.bytes - bytes } }
        match reservation.globalMemoryBacking with
        | some _ => some (s.goOn r slot (.shrinkBacking bytes))
        | none => some (s.goOn r slot (.shrinkCounter bytes))
      else some (s.finish r slot (.error (.resourceLimit (limitName reservation.kind)
        "resource reservation underflowed")))
  | .shrinkBacking bytes => do
    let b ← reservation.globalMemoryBacking
    let backing ← s.backings[b]?
    let s' : State := { s with
      backings := s.backings.set b { backing with bytes := fetchSub backing.bytes bytes }
      wrapped := s.wrapped || backing.bytes < bytes }
    return s'.goOn r slot (.shrinkCounter bytes)
  | .shrinkCounter bytes =>
    some ((s.subCounter reservation.account bytes).finish r slot (.ok ()))
  | .lendUpgrade context =>
    if reservation.belongsToMemoryContext context then
      match reservation.globalMemoryBacking with
      | none => some (s.finish r slot (.error (.internal lendUnbackedError)))
      | some _ =>
        match upgrade s reservation with
        | some (s', c) => some (s'.goOn r slot (.failing (.internal lendActiveError) [.credit c]))
        | none => some (s.goOn r slot (.lendAttach context))
    else some (s.finish r slot (.error (.internal lendError)))
  | .lendAttach context => do
    let b ← reservation.globalMemoryBacking
    let backing ← s.backings[b]?
    let slot := { slot with
      reservation := { reservation with activeMemoryCredit := some s.credits.length }
      phase := .lent { context with credit := some s.credits.length } }
    let s' : State := { s with
      backings := s.backings.set b { backing with strong := backing.strong + 1 }
      credits := s.credits ++ [{ backing := b }] }
    return (s'.setSlot r slot, some (.ok ()))
  | .failing e (x :: rest) =>
    let (s', more) := releaseStep s x
    some (s'.goOn r slot (.failing e (more ++ rest)))
  | .failing e [] => some (s.finish r slot (.error e))
  | .returning (x :: rest) =>
    let (s', more) := releaseStep s x
    some (s'.goOn r slot (.returning (more ++ rest)))
  | .returning [] => some (s.finish r slot (.ok ()))
  | .dropCounter =>
    some ((s.subCounter reservation.account reservation.bytes).goOn r slot
      (.dropping (reservation.context.credit.map Release.credit).toList))
  | .dropping (x :: rest) =>
    let (s', more) := releaseStep s x
    some (s'.goOn r slot (.dropping (more ++ rest)))
  | .dropping [] => some (s.setSlot r { slot with phase := .dropped }, some (.ok ()))

def State.setReserve (s : State) (j : Nat) (call : Reserve) (phase : ReservePhase) : State :=
  { s with reserves := s.reserves.set j { call with phase := phase } }

/-- `Arc::clone` of the credit of a context, if it has one. -/
def State.cloneCredit (s : State) (context : Context) : State :=
  match context.credit with
  | none => s
  | some c =>
    match s.credits[c]? with
    | none => s
    | some credit =>
      { s with credits := s.credits.set c { credit with strong := credit.strong + 1 } }

/-- The end of `reserve`: the reservation, with a backing of its own when it is
charged to the whole pool. -/
def build (s : State) (call : Reserve) : State :=
  match accountOf call.kind call.context with
  | .memory => { s with
      backings := s.backings ++ [{ bytes := call.bytes }]
      slots := s.slots ++ [{ reservation :=
        { context := call.context
          kind := call.kind
          bytes := call.bytes
          globalMemoryBacking := some s.backings.length } }] }
  | _ => { s.cloneCredit call.context with
      slots := s.slots ++ [{ reservation :=
        { context := call.context
          kind := call.kind
          bytes := call.bytes
          globalMemoryBacking := none } }] }

/-- The next atomic step of a `reserve` call. -/
def reserveStep (s : State) (j : Nat) (call : Reserve) (interrupted : Option Interruption) :
    Option (State × Option Outcome) :=
  match call.phase with
  | .done => none
  | .check =>
    match interrupted with
    | some i => some (s.setReserve j call .done, some (.error (.interrupted i)))
    | none => some (s.setReserve j call (.charging .account), none)
  | .charging charge =>
    match chargeStep s call.kind call.context call.bytes charge with
    | .ok (s', some charge') => some (s'.setReserve j call (.charging charge'), none)
    | .ok (s', none) => some (s'.setReserve j call .build, none)
    | .error e => some (s.setReserve j call .done, some (.error e))
  | .build => some ((build s call).setReserve j call .done, some (.ok ()))

/-- A context that a caller can hold: of the root or a fork, or inside a guard. -/
def validContext (s : State) (context : Context) : Bool :=
  context.shared < s.shareds &&
    (context.credit.isNone || s.slots.any fun slot => slot.phase = .lent context)

inductive Action where
  | fork
  | reserve (context : Context) (kind : ResourceKind) (bytes : Nat)
  | reserveStep (j : Nat) (interrupted : Option Interruption)
  | grow (r : Nat) (bytes : Nat)
  | shrink (r : Nat) (bytes : Nat)
  | withMemoryCredit (context : Context) (r : Nat)
  | drop (r : Nat)
  | dropCredit (r : Nat)
  | slotStep (r : Nat) (interrupted : Option Interruption)

/-- A call begins; nothing has been changed by it. -/
def State.untouch (s : State) (caller : Caller) : State :=
  { s with touched := fun d => if d = caller then false else s.touched d }

/-- A call on an idle reservation begins. -/
def begin (s : State) (r : Nat) (phase : ResourceReservation → Phase) : Option State := do
  let slot ← s.slots[r]?
  if slot.phase = .idle then
    return (s.setSlot r { slot with phase := phase slot.reservation }).untouch (.slot r)
  else none

/-- `Drop for ResourceReservation`: the backing owns the charge, if there is one. -/
def dropPhase (r : ResourceReservation) : Phase :=
  match r.globalMemoryBacking with
  | some b => .dropping ((r.context.credit.map Release.credit).toList ++ [.backing b])
  | none => .dropCounter

/-- A guard is dropped: no `reserve` through its context is in progress. -/
def dropCredit (s : State) (r : Nat) : Option State := do
  let slot ← s.slots[r]?
  match slot.phase with
  | .lent context =>
    if s.reserves.all fun call => call.phase = .done || call.context.credit ≠ context.credit then
      return (s.setSlot r { slot with
        phase := .returning (context.credit.map Release.credit).toList }).untouch (.slot r)
    else none
  | _ => none

/-- Every counter of the pool. -/
def counters (s : State) : List Nat × List Nat × List Nat × List Nat :=
  ([s.memoryBytes, s.memoryPeakBytes, s.temporaryBytes, s.temporaryPeakBytes],
    s.backings.map (·.bytes), s.credits.map (·.bytes), s.slots.map (·.reservation.bytes))

/-- The records of one atomic step of a call. -/
def record (s : State) (caller : Caller) (out : State × Option Outcome) : State :=
  let touched := s.touched caller || counters out.1 ≠ counters s
  { out.1 with
    touched := fun d => if d = caller then touched else s.touched d
    finished := s.finished ++ (out.2.map fun outcome => (outcome, touched)).toList }

def step (s : State) : Action → Option State
  | .fork => some { s with shareds := s.shareds + 1 }
  | .reserve context kind bytes =>
    if validContext s context && bytes < u64Modulus then
      let s' : State := { s with reserves := s.reserves ++ [{ context, kind, bytes }] }
      some (s'.untouch (.reserve s.reserves.length))
    else none
  | .reserveStep j interrupted => do
    let call ← s.reserves[j]?
    let out ← reserveStep s j call interrupted
    return record s (.reserve j) out
  | .grow r bytes => if bytes < u64Modulus then begin s r fun _ => .growCheck bytes else none
  | .shrink r bytes => begin s r fun _ => .shrinkUpgrade bytes
  | .withMemoryCredit context r =>
    if validContext s context then begin s r fun _ => .lendUpgrade context else none
  | .drop r => begin s r dropPhase
  | .dropCredit r => dropCredit s r
  | .slotStep r interrupted => do
    let slot ← s.slots[r]?
    let out ← slotStep s r slot interrupted
    return record s (.slot r) out

end IntoMarkdown.Core.Memory
