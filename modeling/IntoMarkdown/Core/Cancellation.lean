import IntoMarkdown.Lib.OrderedMap
import IntoMarkdown.Lib.Slots
import IntoMarkdown.Lib.Transition

/-! # Cancellation wake-ups

One cancellation token shared by any number of contexts and futures. Every
atomic access and every critical section on the waiters mutex is one step; a
poll holds the mutex over the several atomic reads of its checkpoint, so those
are steps of their own. -/

namespace IntoMarkdown.Core.Cancellation
open Transition Slots

/-- The identity of a task's waker. -/
abbrev Waker := Nat

/-- What a finished poll returned; `panicked` when the inner future unwound. -/
inductive PollResult where
  | pending | ready | panicked
  deriving DecidableEq, Repr

/-- Where a `CheckedFuture` stands. The phases from `loadAvailable` to `insert`
hold the waiters mutex. -/
inductive Phase where
  /-- Not being polled; the result of the last poll, if there was one. -/
  | idle (last : Option PollResult)
  /-- About to load `deadline_timer_available`. -/
  | loadAvailable
  /-- About to load `cancelled`. -/
  | loadCancelled
  /-- About to load `timed_out`. -/
  | loadTimedOut
  /-- About to compare the clock with the deadline. -/
  | readClock
  /-- About to store `timed_out`. -/
  | storeTimedOut
  /-- The checkpoint failed: about to remove the waiter and unlock. -/
  | remove
  /-- The checkpoint passed: about to insert the waiter and unlock. -/
  | insert
  /-- The inner future is being polled. -/
  | inner
  /-- The inner future is ready: about to lock and remove the waiter. -/
  | finish
  | dropped
  deriving DecidableEq, Repr

structure CheckedFuture where
  shared : Nat
  ignoreRequestControls : Bool
  waiterId : Nat
  registered : Bool := false
  /-- The waker of the poll in progress, or of the last one. -/
  task : Waker := 0
  phase : Phase := .idle none
  deriving DecidableEq, Repr

/-- The part of `ExecutionShared` that a checkpoint reads. -/
structure ExecutionShared where
  deadline : Option Nat
  deadlineTimerAvailable : Bool
  timedOut : Bool := false
  deriving DecidableEq, Repr

/-- Who runs `wake_waiters`. -/
inductive Origin where
  | cancel
  | timer (shared : Nat)
  deriving DecidableEq, Repr

/-- A `cancel` call or a deadline timer. -/
inductive Thread where
  /-- `cancel` is about to swap the flag. -/
  | swap
  /-- The timer waits for its deadline. -/
  | waiting (shared : Nat) (deadline : Nat)
  /-- The timer is about to load `cancelled`. -/
  | loadCancelled (shared : Nat)
  /-- The timer is about to store `timed_out`. -/
  | storeTimedOut (shared : Nat)
  /-- `wake_waiters` is about to lock the map and take it. -/
  | take (origin : Origin)
  /-- `wake_waiters` has these waiters left to wake. -/
  | wake (origin : Origin) (waiters : List (Nat × Waker))
  /-- The call or the timer is over; `woke` says whether it ran `wake_waiters`. -/
  | returned (origin : Origin) (woke : Bool)
  deriving DecidableEq, Repr

/-- What a run records beside the state of the program. -/
inductive Event where
  | registered (future : Nat) (task : Waker)
  | woke (task : Waker)
  deriving DecidableEq, Repr

structure State where
  cancelled : Bool := false
  waiters : OrderedMap Nat Waker := OrderedMap.empty
  nextWaiter : Nat := 0
  /-- The future whose poll holds the waiters mutex. -/
  lock : Option Nat := none
  now : Nat := 0
  shareds : List ExecutionShared := []
  futures : List CheckedFuture := []
  threads : List Thread := []
  /-- Newest first. -/
  log : List Event := []

def initial : State := {}

def State.setFuture (s : State) (i : Nat) (f : CheckedFuture) : State :=
  { s with futures := s.futures.set i f }

def State.setThread (s : State) (n : Nat) (t : Thread) : State :=
  { s with threads := s.threads.set n t }

/-- `next_waiter` is an `AtomicU64` and wraps. -/
def waiterIds : Nat := 2 ^ 64

/-- `new_with_timer_spawner_and_counters` on this token: a timer thread runs for
a deadline in the future, when it can be spawned. -/
def newContext (s : State) (deadline : Option Nat) (spawned : Bool) : State :=
  match deadline.filter (· > s.now) with
  | none => { s with
      shareds := s.shareds ++ [{ deadline := deadline, deadlineTimerAvailable := true }] }
  | some d => { s with
      shareds := s.shareds ++ [{ deadline := deadline, deadlineTimerAvailable := spawned }]
      threads :=
        if spawned then s.threads ++ [.waiting s.shareds.length d] else s.threads }

/-- `ExecutionContext::run`. -/
def run (s : State) (shared : Nat) (ignoreRequestControls : Bool) : State :=
  { s with
    nextWaiter := (s.nextWaiter + 1) % waiterIds
    futures := s.futures ++ [{
      shared := shared
      ignoreRequestControls := ignoreRequestControls
      waiterId := s.nextWaiter }] }

/-- The next atomic step of a poll in progress, up to the poll of the inner
future and after it. -/
def advance (s : State) (i : Nat) (f : CheckedFuture) (shared : ExecutionShared) :
    Option State :=
  match f.phase with
  | .loadAvailable =>
    some (s.setFuture i { f with
      phase := if shared.deadlineTimerAvailable then .loadCancelled else .remove })
  | .loadCancelled =>
    some (s.setFuture i { f with phase := if s.cancelled then .remove else .loadTimedOut })
  | .loadTimedOut =>
    some (s.setFuture i { f with
      phase := if shared.timedOut then .storeTimedOut else .readClock })
  | .readClock =>
    some (s.setFuture i { f with
      phase := if shared.deadline.any (· ≤ s.now) then .storeTimedOut else .insert })
  | .storeTimedOut =>
    some { s.setFuture i { f with phase := .remove } with
      shareds := s.shareds.set f.shared { shared with timedOut := true } }
  | .remove =>
    some { s.setFuture i { f with registered := false, phase := .idle (some .ready) } with
      waiters := s.waiters.erase f.waiterId
      lock := none }
  | .insert =>
    some { s.setFuture i { f with registered := true, phase := .inner } with
      waiters := s.waiters.insert f.waiterId f.task
      lock := none
      log := .registered i f.task :: s.log }
  | .finish =>
    if s.lock = none then
      some { s.setFuture i { f with registered := false, phase := .idle (some .ready) } with
        waiters := s.waiters.erase f.waiterId }
    else none
  | .idle _ | .inner | .dropped => none

/-- The next atomic step of a `cancel` call or a deadline timer. -/
def threadStep (s : State) (n : Nat) : Thread → Option State
  | .swap =>
    some { s.setThread n (if s.cancelled then .returned .cancel false else .take .cancel) with
      cancelled := true }
  | .waiting shared deadline =>
    some (s.setThread n
      (if deadline ≤ s.now then .loadCancelled shared else .returned (.timer shared) false))
  | .loadCancelled shared =>
    some (s.setThread n
      (if s.cancelled then .returned (.timer shared) false else .storeTimedOut shared))
  | .storeTimedOut shared =>
    (s.shareds[shared]?).map fun c =>
      { s.setThread n (.take (.timer shared)) with
        shareds := s.shareds.set shared { c with timedOut := true } }
  | .take origin =>
    if s.lock = none then
      some { s.setThread n (.wake origin s.waiters.entries) with waiters := OrderedMap.empty }
    else none
  | .wake origin [] => some (s.setThread n (.returned origin true))
  | .wake origin (entry :: rest) =>
    some { s.setThread n (.wake origin rest) with log := .woke entry.2 :: s.log }
  | .returned _ _ => none

inductive Action where
  | tick
  | newContext (deadline : Option Nat) (spawned : Bool)
  /-- `ctx.run(future)`, on the context itself or on its `cleanup_scope`. -/
  | run (shared : Nat) (ignoreRequestControls : Bool)
  /-- A poll with this waker locks the waiters map. -/
  | poll (future : Nat) (task : Waker)
  | advance (future : Nat)
  /-- The inner future's poll ends. -/
  | inner (future : Nat) (result : PollResult)
  | drop (future : Nat)
  /-- A `cancel` call begins. -/
  | cancel
  | thread (n : Nat)
  /-- The timer is stopped, or finds its context gone. -/
  | stopTimer (n : Nat)

/-- A poll locks the map; a context that ignores the request controls has
nothing to check. -/
def beginPoll (s : State) (i : Nat) (task : Waker) (f : CheckedFuture) : Option State :=
  match f.phase with
  | .idle _ =>
    if s.lock = none then
      some { s.setFuture i { f with
          task := task
          phase := if f.ignoreRequestControls then .insert else .loadAvailable } with
        lock := some i }
    else none
  | _ => none

def endInner (s : State) (i : Nat) (f : CheckedFuture) (result : PollResult) : Option State :=
  if f.phase = .inner then
    some (s.setFuture i { f with
      phase := match result with
        | .ready => .finish
        | .pending => .idle (some .pending)
        | .panicked => .idle (some .panicked) })
  else none

/-- `Drop for CheckedFuture`. -/
def dropFuture (s : State) (i : Nat) (f : CheckedFuture) : Option State :=
  match f.phase with
  | .idle _ =>
    if f.registered then
      if s.lock = none then
        some { s.setFuture i { f with phase := .dropped } with
          waiters := s.waiters.erase f.waiterId }
      else none
    else some (s.setFuture i { f with phase := .dropped })
  | _ => none

def step (s : State) : Action → Option State
  | .tick => some { s with now := s.now + 1 }
  | .newContext deadline spawned => some (newContext s deadline spawned)
  | .run shared ignoreRequestControls =>
    if shared < s.shareds.length then some (run s shared ignoreRequestControls) else none
  | .poll i task => (s.futures[i]?).bind (beginPoll s i task)
  | .advance i => do
    let f ← s.futures[i]?
    let shared ← s.shareds[f.shared]?
    advance s i f shared
  | .inner i result => (s.futures[i]?).bind fun f => endInner s i f result
  | .drop i => (s.futures[i]?).bind (dropFuture s i)
  | .cancel => some { s with threads := s.threads ++ [.swap] }
  | .thread n => (s.threads[n]?).bind (threadStep s n)
  | .stopTimer n => do
    match ← s.threads[n]? with
    | .waiting shared _ => some (s.setThread n (.returned (.timer shared) false))
    | _ => none

/-! ## What a run promises -/

def Thread.taken : Thread → List (Nat × Waker)
  | .wake _ waiters => waiters
  | _ => []

/-- A running `wake_waiters` has taken this entry and will wake it. -/
def BeingWoken (s : State) (entry : Nat × Waker) : Prop :=
  ∃ (n : Nat) (t : Thread), s.threads[n]? = some t ∧ entry ∈ t.taken

/-- `task` is the waker of the newest registration of future `i`. -/
def Registered (i : Nat) (task : Waker) (log : List Event) : Prop :=
  ∃ later earlier, log = later ++ .registered i task :: earlier ∧
    ∀ task', .registered i task' ∉ later

/-- The waker of the newest registration of future `i` has been invoked since. -/
def WokenSince (i : Nat) (task : Waker) (log : List Event) : Prop :=
  ∃ later earlier, log = later ++ .registered i task :: earlier ∧
    (∀ task', .registered i task' ∉ later) ∧ .woke task ∈ later

/-- The phases that have passed the load of `cancelled`. -/
def Phase.admitted : Phase → Bool
  | .loadTimedOut | .readClock | .insert => true
  | _ => false

def Phase.holdsLock : Phase → Bool
  | .loadAvailable | .loadCancelled | .loadTimedOut | .readClock | .storeTimedOut | .remove
  | .insert => true
  | _ => false

/-- The phases in which the newest registration is that of the poll with waker
`task`. -/
def Phase.waiting : Phase → Bool
  | .inner | .idle (some .pending) => true
  | _ => false

/-- The `cancel` call that set the flag is past its critical section. -/
def Thread.swept : Thread → Bool
  | .wake .cancel _ | .returned .cancel true => true
  | _ => false

/-- The `cancel` call that set the flag has taken the waiters. -/
def Swept (s : State) : Prop :=
  ∃ (n : Nat) (t : Thread), s.threads[n]? = some t ∧ t.swept

/-! ## The log -/

theorem registered_cons_self (i : Nat) (task : Waker) (log : List Event) :
    Registered i task (.registered i task :: log) :=
  ⟨[], log, rfl, by simp⟩

theorem Registered.cons {i : Nat} {task : Waker} {log : List Event} {e : Event}
    (h : Registered i task log) (he : ∀ task', e ≠ .registered i task') :
    Registered i task (e :: log) := by
  obtain ⟨later, earlier, rfl, hlater⟩ := h
  refine ⟨e :: later, earlier, rfl, fun task' hm => ?_⟩
  rcases List.mem_cons.mp hm with hm | hm
  · exact he task' hm.symm
  · exact hlater task' hm

theorem WokenSince.cons {i : Nat} {task : Waker} {log : List Event} {e : Event}
    (h : WokenSince i task log) (he : ∀ task', e ≠ .registered i task') :
    WokenSince i task (e :: log) := by
  obtain ⟨later, earlier, rfl, hlater, hw⟩ := h
  refine ⟨e :: later, earlier, rfl, fun task' hm => ?_, List.mem_cons_of_mem _ hw⟩
  rcases List.mem_cons.mp hm with hm | hm
  · exact he task' hm.symm
  · exact hlater task' hm

theorem Registered.woke {i : Nat} {task : Waker} {log : List Event}
    (h : Registered i task log) : WokenSince i task (.woke task :: log) := by
  obtain ⟨later, earlier, rfl, hlater⟩ := h
  exact ⟨.woke task :: later, earlier, rfl, by simpa using hlater, List.mem_cons_self ..⟩

/-! ## Invariant of every run -/

/-- What holds of future `i`. The last field is about the time after `cancel`
has taken the waiters: a checkpoint that honours the request controls then
fails, so such a future neither passes one nor is in the map. -/
structure FutureInv (s : State) (i : Nat) (f : CheckedFuture) : Prop where
  id : f.waiterId = i % waiterIds
  lock : f.phase.holdsLock → s.lock = some i
  ready : f.phase = .idle (some .ready) → f.registered = false
  waiting : f.phase.waiting → Registered i f.task s.log ∧
    (WokenSince i f.task s.log ∨ (f.waiterId, f.task) ∈ s.waiters ∨
      BeingWoken s (f.waiterId, f.task))
  swept : Swept s → f.ignoreRequestControls = false →
    f.phase.admitted = false ∧ ∀ task, (f.waiterId, task) ∉ s.waiters

structure Invariant (s : State) : Prop where
  nextWaiter : s.nextWaiter = s.futures.length % waiterIds
  futures : ∀ (i : Nat) (f : CheckedFuture), s.futures[i]? = some f → FutureInv s i f
  owned : ∀ e ∈ s.waiters, ∃ (i : Nat) (f : CheckedFuture), s.futures[i]? = some f ∧
    f.waiterId = e.1 ∧ f.registered = true ∧ f.phase ≠ .dropped
  cancelled : ∀ (n : Nat) (t : Thread), s.threads[n]? = some t →
    t = .take .cancel ∨ t.swept → s.cancelled = true

theorem initial_invariant : Invariant initial where
  nextWaiter := rfl
  futures := by simp [initial]
  owned := by simp [initial]
  cancelled := by simp [initial]

/-- While at most `2 ^ 64` futures have been created, an id names one future. -/
theorem Invariant.waiterId_inj {s : State} (hi : Invariant s)
    (few : s.futures.length ≤ waiterIds) {i j : Nat} {f g : CheckedFuture}
    (hf : s.futures[i]? = some f) (hg : s.futures[j]? = some g)
    (h : f.waiterId = g.waiterId) : i = j := by
  have hfi := (hi.futures i f hf).id
  have hgj := (hi.futures j g hg).id
  have hi := lt_length_of_some hf
  have hj := lt_length_of_some hg
  rw [hfi, hgj, Nat.mod_eq_of_lt (by omega), Nat.mod_eq_of_lt (by omega)] at h
  exact h

/-! ## Steps of a future -/

/-- A step of future `i`: it may take or release the mutex, write its own entry
of the map and record its own registration, and nothing else. -/
structure FutureChange (s s' : State) (i : Nat) (f f' : CheckedFuture) : Prop where
  futures : s'.futures = s.futures.set i f'
  threads : s'.threads = s.threads
  cancelled : s'.cancelled = s.cancelled
  nextWaiter : s'.nextWaiter = s.nextWaiter
  lock : s'.lock = s.lock ∨ s.lock = none ∨ s.lock = some i
  waiters : ∀ e, e.1 ≠ f.waiterId → (e ∈ s'.waiters ↔ e ∈ s.waiters)
  log : s'.log = s.log ∨ ∃ task, s'.log = .registered i task :: s.log
  owned : (∃ task, (f.waiterId, task) ∈ s'.waiters) → f'.registered = true ∧ f'.phase ≠ .dropped
  waiterId : f'.waiterId = f.waiterId

theorem FutureChange.swept {s s' : State} {i : Nat} {f f' : CheckedFuture}
    (c : FutureChange s s' i f f') : Swept s' ↔ Swept s := by
  simp only [Swept, c.threads]

theorem FutureChange.beingWoken {s s' : State} {i : Nat} {f f' : CheckedFuture}
    (c : FutureChange s s' i f f') (e : Nat × Waker) : BeingWoken s' e ↔ BeingWoken s e := by
  simp only [BeingWoken, c.threads]

/-- Nothing that concerns another future changes. -/
theorem FutureInv.other {s s' : State} {i j : Nat} {f f' g : CheckedFuture}
    (h : FutureInv s j g) (c : FutureChange s s' i f f') (hij : j ≠ i)
    (hid : g.waiterId ≠ f.waiterId) : FutureInv s' j g where
  id := h.id
  lock := by
    intro hl
    have hj := h.lock hl
    rcases c.lock with hs | hs | hs
    · rw [hs, hj]
    · simp [hj] at hs
    · rw [hj] at hs
      exact absurd (Option.some.inj hs) hij
  ready := h.ready
  waiting := by
    intro hw
    obtain ⟨hreg, hcov⟩ := h.waiting hw
    rw [c.waiters (g.waiterId, g.task) hid, c.beingWoken]
    rcases c.log with hl | ⟨task, hl⟩
    · rw [hl]
      exact ⟨hreg, hcov⟩
    · rw [hl]
      have hne : ∀ task', Event.registered i task ≠ .registered j task' := by
        intro task' he
        exact hij (Event.registered.inj he).1.symm
      exact ⟨hreg.cons hne, hcov.imp_left fun hs => hs.cons hne⟩
  swept := by
    intro hs hg
    obtain ⟨ha, hm⟩ := h.swept (c.swept.mp hs) hg
    exact ⟨ha, fun task ht => hm task ((c.waiters (g.waiterId, task) hid).mp ht)⟩

theorem Invariant.futureStep {s s' : State} {i : Nat} {f : CheckedFuture}
    (hi : Invariant s) (few : s.futures.length ≤ waiterIds) (hf : s.futures[i]? = some f)
    (f' : CheckedFuture) (c : FutureChange s s' i f f') (hself : FutureInv s' i f') : Invariant s' where
  nextWaiter := by rw [c.nextWaiter, hi.nextWaiter, c.futures, List.length_set]
  futures := by
    intro j g hg
    rw [c.futures] at hg
    rcases getElem?_set_some hg with ⟨rfl, rfl⟩ | ⟨hij, hg⟩
    · exact hself
    · exact (hi.futures j g hg).other c hij fun h => hij (hi.waiterId_inj few hg hf h)
  owned := by
    intro e he
    rw [c.futures]
    by_cases hid : e.1 = f.waiterId
    · have hown := c.owned ⟨e.2, by rw [← hid]; exact he⟩
      exact ⟨i, f', getElem?_set_self hf, c.waiterId.trans hid.symm, hown⟩
    · obtain ⟨j, g, hg, hge, hreg⟩ := hi.owned e ((c.waiters e hid).mp he)
      have hij : j ≠ i := by
        rintro rfl
        rw [hf] at hg
        exact hid (by rw [← hge, Option.some.inj hg])
      exact ⟨j, g, by rw [getElem?_set_ne hij, hg], hge, hreg⟩
  cancelled := by rw [c.threads, c.cancelled]; exact hi.cancelled

theorem Invariant.swept_cancelled {s : State} (hi : Invariant s) (h : Swept s) :
    s.cancelled = true := by
  obtain ⟨n, t, ht, hs⟩ := h
  exact hi.cancelled n t ht (Or.inr hs)

theorem Invariant.owned_self {s : State} (hi : Invariant s) (few : s.futures.length ≤ waiterIds)
    {i : Nat} {f : CheckedFuture} (hf : s.futures[i]? = some f) {task : Waker}
    (h : (f.waiterId, task) ∈ s.waiters) : f.registered = true ∧ f.phase ≠ .dropped := by
  obtain ⟨j, g, hg, hid, hreg⟩ := hi.owned _ h
  obtain rfl := hi.waiterId_inj few hg hf hid
  rw [hf] at hg
  obtain rfl := Option.some.inj hg
  exact hreg

section FutureSteps
variable {s : State} {i : Nat} {f : CheckedFuture}

/-- The start of a poll, and a step of its checkpoint: the mutex is held
afterwards, and only a phase that had passed the load of `cancelled` is
followed by another such phase once the waiters have been taken. -/
theorem Invariant.lockedStep (hi : Invariant s) (few : s.futures.length ≤ waiterIds)
    (hf : s.futures[i]? = some f) (task : Waker) {p : Phase} (shareds : List ExecutionShared)
    (hlock : s.lock = none ∨ s.lock = some i) (hp : p.holdsLock)
    (hadmitted : p.admitted → Swept s → f.ignoreRequestControls = false → f.phase.admitted) :
    Invariant { s.setFuture i { f with task := task, phase := p } with
      lock := some i
      shareds := shareds } := by
  have hinv := hi.futures i f hf
  have hwaiting : p.waiting = false := by cases p <;> simp_all [Phase.holdsLock, Phase.waiting]
  have hidle : ∀ last, p ≠ .idle last := by
    rintro last rfl
    simp [Phase.holdsLock] at hp
  refine hi.futureStep few hf { f with task := task, phase := p }
    ⟨rfl, rfl, rfl, rfl, Or.inr hlock, fun e _ => Iff.rfl, Or.inl rfl, ?_, rfl⟩ ?_
  · rintro ⟨task, ht⟩
    refine ⟨(hi.owned_self few hf ht).1, ?_⟩
    rintro rfl
    simp [Phase.holdsLock] at hp
  · refine ⟨hinv.id, fun _ => rfl, fun h => absurd h (hidle _), ?_, ?_⟩
    · intro h
      simp [hwaiting] at h
    · intro hs hh
      obtain ⟨ha, hm⟩ := hinv.swept hs hh
      refine ⟨?_, hm⟩
      cases hpa : p.admitted with
      | false => rfl
      | true => rw [hadmitted hpa hs hh] at ha; exact ha

/-- A poll that returns, or a drop that removes the registration. -/
theorem Invariant.eraseStep (hi : Invariant s) (few : s.futures.length ≤ waiterIds)
    (hf : s.futures[i]? = some f) (registered : Bool) {p : Phase}
    (hlock : s.lock = none ∨ s.lock = some i)
    (hp : p = .dropped ∨ p = .idle (some .ready) ∧ registered = false) :
    Invariant { s.setFuture i { f with registered := registered, phase := p } with
      waiters := s.waiters.erase f.waiterId
      lock := none } := by
  have hinv := hi.futures i f hf
  have hgone : ∀ task, (f.waiterId, task) ∉ s.waiters.erase f.waiterId := by simp
  refine hi.futureStep few hf { f with registered := registered, phase := p }
    ⟨rfl, rfl, rfl, rfl, Or.inr hlock, fun e he => by simp [he], Or.inl rfl, ?_, rfl⟩ ?_
  · rintro ⟨task, ht⟩
    exact absurd ht (hgone task)
  · refine ⟨hinv.id, ?_, ?_, ?_, ?_⟩
    · rcases hp with rfl | ⟨rfl, -⟩ <;> simp [Phase.holdsLock]
    · rcases hp with rfl | ⟨rfl, hr⟩
      · simp
      · exact fun _ => hr
    · rcases hp with rfl | ⟨rfl, -⟩ <;> simp [Phase.waiting]
    · intro hs hh
      refine ⟨?_, hgone⟩
      rcases hp with rfl | ⟨rfl, -⟩ <;> rfl

theorem Invariant.insertStep (hi : Invariant s) (few : s.futures.length ≤ waiterIds)
    (hf : s.futures[i]? = some f) (hp : f.phase = .insert) :
    Invariant { s.setFuture i { f with registered := true, phase := .inner } with
      waiters := s.waiters.insert f.waiterId f.task
      lock := none
      log := .registered i f.task :: s.log } := by
  have hinv := hi.futures i f hf
  have hlock : s.lock = some i := hinv.lock (by simp [hp, Phase.holdsLock])
  refine hi.futureStep few hf { f with registered := true, phase := .inner }
    ⟨rfl, rfl, rfl, rfl, Or.inr (Or.inr hlock), ?_, Or.inr ⟨f.task, rfl⟩, ?_, rfl⟩ ?_
  · intro e he
    have hne : e ≠ (f.waiterId, f.task) := fun h => he (by rw [h])
    simp [he, hne]
  · exact fun _ => ⟨rfl, by simp⟩
  · refine ⟨hinv.id, by simp [Phase.holdsLock], by simp, fun _ => ⟨?_, ?_⟩, ?_⟩
    · exact registered_cons_self i f.task s.log
    · exact Or.inr (Or.inl (by simp))
    · intro hs hh
      -- a future that honours the request controls does not get here any more
      have ha := (hinv.swept hs hh).1
      simp [hp, Phase.admitted] at ha

/-- The end of the inner future's poll, and the drop of an unregistered future. -/
theorem Invariant.quietStep (hi : Invariant s) (few : s.futures.length ≤ waiterIds)
    (hf : s.futures[i]? = some f) {p : Phase} (hlock : p.holdsLock = false)
    (hready : p ≠ .idle (some .ready)) (hadmitted : p.admitted = false)
    (hwaiting : p.waiting → f.phase.waiting) (hdropped : p = .dropped → f.registered = false) :
    Invariant (s.setFuture i { f with phase := p }) := by
  have hinv := hi.futures i f hf
  refine hi.futureStep few hf { f with phase := p }
    ⟨rfl, rfl, rfl, rfl, Or.inl rfl, fun e _ => Iff.rfl, Or.inl rfl, ?_, rfl⟩ ?_
  · rintro ⟨task, ht⟩
    have hreg := (hi.owned_self few hf ht).1
    refine ⟨hreg, fun hd => ?_⟩
    rw [hdropped hd] at hreg
    cases hreg
  · refine ⟨hinv.id, ?_, ?_, ?_, ?_⟩
    · intro h
      rw [hlock] at h
      cases h
    · exact fun h => absurd h hready
    · exact fun h => hinv.waiting (hwaiting h)
    · exact fun hs hh => ⟨hadmitted, (hinv.swept hs hh).2⟩

end FutureSteps

theorem beginPoll_invariant {s s' : State} (hi : Invariant s)
    (few : s.futures.length ≤ waiterIds) {i : Nat} {task : Waker} {f : CheckedFuture}
    (hf : s.futures[i]? = some f) (h : beginPoll s i task f = some s') : Invariant s' := by
  unfold beginPoll at h
  split at h
  · split at h
    · rename_i hlock
      obtain rfl := Option.some.inj h
      refine hi.lockedStep few hf task s.shareds (Or.inl hlock) ?_ ?_
      · split <;> rfl
      · intro ha _ hh
        simp [hh, Phase.admitted] at ha
    · cases h
  · cases h

theorem advance_invariant {s s' : State} (hi : Invariant s)
    (few : s.futures.length ≤ waiterIds) {i : Nat} {f : CheckedFuture} {shared : ExecutionShared}
    (hf : s.futures[i]? = some f) (h : advance s i f shared = some s') : Invariant s' := by
  have hinv := hi.futures i f hf
  -- the steps of a checkpoint hold the mutex before and after
  have hcheck : ∀ {p : Phase} {shareds : List ExecutionShared}, f.phase.holdsLock →
      p.holdsLock →
      (p.admitted → Swept s → f.ignoreRequestControls = false → f.phase.admitted) →
      Invariant { s.setFuture i { f with phase := p } with shareds := shareds } := by
    intro p shareds hl hp ha
    have hlock := hinv.lock hl
    have hnext := hi.lockedStep few hf f.task shareds (Or.inr hlock) hp ha
    rw [← hlock] at hnext
    exact hnext
  unfold advance at h
  split at h
  case h_1 hphase =>
    obtain rfl := Option.some.inj h
    refine hcheck (by simp [hphase, Phase.holdsLock]) (by split <;> rfl) ?_
    intro ha
    split at ha <;> simp [Phase.admitted] at ha
  case h_2 hphase =>
    obtain rfl := Option.some.inj h
    refine hcheck (by simp [hphase, Phase.holdsLock]) (by split <;> rfl) ?_
    intro ha hs
    simp [hi.swept_cancelled hs, Phase.admitted] at ha
  case h_3 hphase =>
    obtain rfl := Option.some.inj h
    exact hcheck (by simp [hphase, Phase.holdsLock]) (by split <;> rfl)
      fun _ _ _ => by simp [hphase, Phase.admitted]
  case h_4 hphase =>
    obtain rfl := Option.some.inj h
    exact hcheck (by simp [hphase, Phase.holdsLock]) (by split <;> rfl)
      fun _ _ _ => by simp [hphase, Phase.admitted]
  case h_5 hphase =>
    obtain rfl := Option.some.inj h
    exact hcheck (by simp [hphase, Phase.holdsLock]) rfl fun ha => by simp [Phase.admitted] at ha
  case h_6 hphase =>
    obtain rfl := Option.some.inj h
    exact hi.eraseStep few hf false (Or.inr (hinv.lock (by simp [hphase, Phase.holdsLock])))
      (Or.inr ⟨rfl, rfl⟩)
  case h_7 hphase =>
    obtain rfl := Option.some.inj h
    exact hi.insertStep few hf hphase
  case h_8 =>
    split at h
    · rename_i hlock
      obtain rfl := Option.some.inj h
      have hnext := hi.eraseStep few hf false (Or.inl hlock) (Or.inr ⟨rfl, rfl⟩)
      rw [← hlock] at hnext
      exact hnext
    · cases h
  all_goals cases h

theorem endInner_invariant {s s' : State} (hi : Invariant s)
    (few : s.futures.length ≤ waiterIds) {i : Nat} {f : CheckedFuture} {result : PollResult}
    (hf : s.futures[i]? = some f) (h : endInner s i f result = some s') : Invariant s' := by
  unfold endInner at h
  split at h
  · rename_i hp
    obtain rfl := Option.some.inj h
    cases result with
    | _ => exact hi.quietStep few hf rfl (by simp) rfl (by simp [hp, Phase.waiting]) (by simp)
  · cases h

theorem dropFuture_invariant {s s' : State} (hi : Invariant s)
    (few : s.futures.length ≤ waiterIds) {i : Nat} {f : CheckedFuture}
    (hf : s.futures[i]? = some f) (h : dropFuture s i f = some s') : Invariant s' := by
  unfold dropFuture at h
  split at h
  · split at h
    · split at h
      · rename_i hlock
        obtain rfl := Option.some.inj h
        have hnext := hi.eraseStep few hf f.registered (Or.inl hlock) (Or.inl rfl)
        rw [← hlock] at hnext
        exact hnext
      · cases h
    · rename_i hreg
      obtain rfl := Option.some.inj h
      exact hi.quietStep few hf rfl (by simp) rfl (by simp [Phase.waiting])
        fun _ => by simpa using hreg
  · cases h

/-! ## Steps of a `cancel` call or a timer -/

/-- A step of thread `n`. It leaves the futures and the mutex alone; what is in
the map or being woken stays so or has been woken, and only the critical
section of `cancel`, with the mutex free, puts the thread past it. -/
structure ThreadChange (s s' : State) (n : Nat) (t t' : Thread) : Prop where
  futures : s'.futures = s.futures
  nextWaiter : s'.nextWaiter = s.nextWaiter
  lock : s'.lock = s.lock
  threads : s'.threads = s.threads.set n t'
  cancelled : s.cancelled = true → s'.cancelled = true
  waiters : ∀ e ∈ s'.waiters, e ∈ s.waiters
  log : s'.log = s.log ∨ ∃ task, s'.log = .woke task :: s.log
  kept : ∀ e, e ∈ s.waiters ∨ e ∈ t.taken →
    e ∈ s'.waiters ∨ e ∈ t'.taken ∨ s'.log = .woke e.2 :: s.log
  started : t' = .take .cancel ∨ t'.swept → s'.cancelled = true
  swept : t'.swept → t.swept ∨ s.lock = none ∧ s'.waiters = OrderedMap.empty

theorem ThreadChange.swept_before {s s' : State} {n : Nat} {t t' : Thread}
    (c : ThreadChange s s' n t t') (ht : s.threads[n]? = some t) (h : Swept s') :
    Swept s ∨ s.lock = none ∧ s'.waiters = OrderedMap.empty := by
  obtain ⟨m, u, hu, hs⟩ := h
  rw [c.threads] at hu
  rcases getElem?_set_some hu with ⟨rfl, rfl⟩ | ⟨-, hu⟩
  · exact (c.swept hs).imp_left fun h => ⟨m, t, ht, h⟩
  · exact Or.inl ⟨m, u, hu, hs⟩

/-- A registration that was covered still is. -/
theorem ThreadChange.covered {s s' : State} {n : Nat} {t t' : Thread}
    (c : ThreadChange s s' n t t') (ht : s.threads[n]? = some t) {i : Nat} {e : Nat × Waker}
    (hreg : Registered i e.2 s.log)
    (h : WokenSince i e.2 s.log ∨ e ∈ s.waiters ∨ BeingWoken s e) :
    Registered i e.2 s'.log ∧
      (WokenSince i e.2 s'.log ∨ e ∈ s'.waiters ∨ BeingWoken s' e) := by
  have hnot : ∀ {task task' : Waker}, Event.woke task ≠ .registered i task' := by simp
  have hreg' : Registered i e.2 s'.log := by
    rcases c.log with hl | ⟨task, hl⟩
    · rw [hl]; exact hreg
    · rw [hl]; exact hreg.cons fun _ => hnot
  have hstill : ∀ {u : Thread}, e ∈ u.taken → s'.threads[n]? = some u → BeingWoken s' e :=
    fun hu hn => ⟨n, _, hn, hu⟩
  have hmoved : e ∈ s.waiters ∨ e ∈ t.taken →
      WokenSince i e.2 s'.log ∨ e ∈ s'.waiters ∨ BeingWoken s' e := by
    intro he
    rcases c.kept e he with he | he | he
    · exact Or.inr (Or.inl he)
    · exact Or.inr (Or.inr (hstill he (by rw [c.threads]; exact getElem?_set_self ht)))
    · exact Or.inl (by rw [he]; exact hreg.woke)
  refine ⟨hreg', ?_⟩
  rcases h with h | h | ⟨m, u, hu, he⟩
  · left
    rcases c.log with hl | ⟨task, hl⟩
    · rw [hl]; exact h
    · rw [hl]; exact h.cons fun _ => hnot
  · exact hmoved (Or.inl h)
  · by_cases hm : m = n
    · subst hm
      rw [ht] at hu
      obtain rfl := Option.some.inj hu
      exact hmoved (Or.inr he)
    · refine Or.inr (Or.inr ⟨m, u, ?_, he⟩)
      rw [c.threads, getElem?_set_ne hm, hu]

theorem Invariant.threadChange {s s' : State} {n : Nat} {t : Thread} (hi : Invariant s)
    (ht : s.threads[n]? = some t) (t' : Thread) (c : ThreadChange s s' n t t') : Invariant s' where
  nextWaiter := by rw [c.nextWaiter, c.futures]; exact hi.nextWaiter
  futures := by
    intro i f hf
    rw [c.futures] at hf
    have hinv := hi.futures i f hf
    refine ⟨hinv.id, ?_, hinv.ready, ?_, ?_⟩
    · intro h
      rw [c.lock]
      exact hinv.lock h
    · intro h
      obtain ⟨hreg, hcov⟩ := hinv.waiting h
      exact c.covered ht (e := (f.waiterId, f.task)) hreg hcov
    · intro hs hh
      rcases c.swept_before ht hs with hs | ⟨hlock, hempty⟩
      · obtain ⟨ha, hm⟩ := hinv.swept hs hh
        exact ⟨ha, fun task h => hm task (c.waiters _ h)⟩
      · -- the mutex is free, so no future is between its check and its registration
        refine ⟨?_, by simp [hempty]⟩
        cases hp : f.phase with
        | loadTimedOut | readClock | insert =>
          have := hinv.lock (by simp [hp, Phase.holdsLock])
          simp [hlock] at this
        | _ => rfl
  owned := by
    intro e he
    rw [c.futures]
    exact hi.owned e (c.waiters e he)
  cancelled := by
    intro m u hu hs
    rw [c.threads] at hu
    rcases getElem?_set_some hu with ⟨rfl, rfl⟩ | ⟨-, hu⟩
    · exact c.started hs
    · exact c.cancelled (hi.cancelled m u hu hs)

/-- A step outside `wake_waiters`. -/
theorem ThreadChange.outside {s : State} {n : Nat} {t t' : Thread} (cancelled : Bool)
    (shareds : List ExecutionShared) (htaken : t.taken = []) (hswept : t'.swept = false)
    (hcancelled : s.cancelled = true → cancelled = true)
    (hstarted : t' = .take .cancel → cancelled = true) :
    ThreadChange s { s.setThread n t' with cancelled := cancelled, shareds := shareds }
      n t t' where
  futures := rfl
  nextWaiter := rfl
  lock := rfl
  threads := rfl
  cancelled := hcancelled
  waiters := fun _ h => h
  log := Or.inl rfl
  kept := by
    intro e he
    rw [htaken] at he
    exact Or.inl (he.resolve_right List.not_mem_nil)
  started := by
    intro h
    rw [hswept] at h
    exact hstarted (h.resolve_right Bool.false_ne_true)
  swept := by
    intro h
    rw [hswept] at h
    cases h

theorem threadStep_invariant {s s' : State} (hi : Invariant s) {n : Nat} {t : Thread}
    (ht : s.threads[n]? = some t) (h : threadStep s n t = some s') : Invariant s' := by
  cases t with
  | swap =>
    obtain rfl := Option.some.inj h
    refine hi.threadChange ht _
      (ThreadChange.outside true s.shareds rfl ?_ (fun _ => rfl) (fun _ => rfl))
    split <;> rfl
  | waiting shared deadline =>
    obtain rfl := Option.some.inj h
    refine hi.threadChange ht _
      (ThreadChange.outside s.cancelled s.shareds rfl ?_ id ?_)
    · split <;> rfl
    · split <;> simp
  | loadCancelled shared =>
    obtain rfl := Option.some.inj h
    refine hi.threadChange ht _
      (ThreadChange.outside s.cancelled s.shareds rfl ?_ id ?_)
    · split <;> rfl
    · split <;> simp
  | storeTimedOut shared =>
    obtain ⟨c, -, rfl⟩ := Option.map_eq_some_iff.mp h
    exact hi.threadChange ht _
      (ThreadChange.outside s.cancelled _ rfl rfl id (by simp))
  | take origin =>
    simp only [threadStep] at h
    split at h
    · rename_i hlock
      obtain rfl := Option.some.inj h
      refine hi.threadChange ht (.wake origin s.waiters.entries)
        ⟨rfl, rfl, rfl, rfl, id, by simp, Or.inl rfl, ?_, ?_, fun _ => Or.inr ⟨hlock, rfl⟩⟩
      · intro e he
        exact Or.inr (Or.inl (he.resolve_right List.not_mem_nil))
      · rintro (h | h)
        · cases h
        · cases origin with
          | cancel => exact hi.cancelled n _ ht (Or.inl rfl)
          | timer shared => cases h
    · cases h
  | wake origin waiters =>
    have hstarted : (Thread.wake origin waiters).swept → s.cancelled = true :=
      fun h => hi.cancelled n _ ht (Or.inr h)
    cases waiters with
    | nil =>
      obtain rfl := Option.some.inj h
      refine hi.threadChange ht (.returned origin true)
        ⟨rfl, rfl, rfl, rfl, id, fun _ h => h, Or.inl rfl, ?_, ?_, ?_⟩
      · exact fun e he => Or.inl (he.resolve_right List.not_mem_nil)
      · rintro (h | h)
        · cases h
        · cases origin with
          | cancel => exact hstarted rfl
          | timer shared => cases h
      · cases origin with
        | cancel => exact fun _ => Or.inl rfl
        | timer shared => exact fun h => by cases h
    | cons entry rest =>
      obtain rfl := Option.some.inj h
      refine hi.threadChange ht (.wake origin rest)
        ⟨rfl, rfl, rfl, rfl, id, fun _ h => h, Or.inr ⟨entry.2, rfl⟩, ?_, ?_, ?_⟩
      · rintro e (he | he)
        · exact Or.inl he
        · rcases List.mem_cons.mp he with rfl | he
          · exact Or.inr (Or.inr rfl)
          · exact Or.inr (Or.inl he)
      · rintro (h | h)
        · cases h
        · cases origin with
          | cancel => exact hstarted rfl
          | timer shared => cases h
      · cases origin with
        | cancel => exact fun _ => Or.inl rfl
        | timer shared => exact fun h => by cases h
  | returned origin woke => cases h

/-! ## New contexts, futures and `cancel` calls -/

/-- A new thread that has not reached its critical section changes nothing. -/
theorem Invariant.spawn {s : State} (hi : Invariant s) {t : Thread} (ht : t.swept = false)
    (hc : t ≠ .take .cancel) (shareds : List ExecutionShared) :
    Invariant { s with shareds := shareds, threads := s.threads ++ [t] } := by
  have hswept : Swept { s with shareds := shareds, threads := s.threads ++ [t] } → Swept s := by
    rintro ⟨m, u, hu, hs⟩
    rcases getElem?_snoc_some hu with ⟨-, rfl⟩ | hu
    · rw [ht] at hs; cases hs
    · exact ⟨m, u, hu, hs⟩
  refine ⟨hi.nextWaiter, fun i f hf => ?_, hi.owned, ?_⟩
  · have hinv := hi.futures i f hf
    refine ⟨hinv.id, hinv.lock, hinv.ready, fun h => ?_, fun hs => hinv.swept (hswept hs)⟩
    obtain ⟨hreg, hcov⟩ := hinv.waiting h
    refine ⟨hreg, hcov.imp_right (Or.imp_right ?_)⟩
    rintro ⟨m, u, hu, he⟩
    exact ⟨m, u, getElem?_snoc_of_some hu, he⟩
  · intro m u hu hs
    rcases getElem?_snoc_some hu with ⟨-, rfl⟩ | hu
    · rcases hs with hs | hs
      · exact absurd hs hc
      · rw [ht] at hs; cases hs
    · exact hi.cancelled m u hu hs

theorem Invariant.shareds {s : State} (hi : Invariant s) (now : Nat)
    (shareds : List ExecutionShared) : Invariant { s with now := now, shareds := shareds } :=
  ⟨hi.nextWaiter, fun i f hf =>
    have h := hi.futures i f hf
    ⟨h.id, h.lock, h.ready, h.waiting, h.swept⟩, hi.owned, hi.cancelled⟩

theorem newContext_invariant {s : State} (hi : Invariant s) (deadline : Option Nat)
    (spawned : Bool) : Invariant (newContext s deadline spawned) := by
  unfold newContext
  split
  · exact hi.shareds s.now _
  · cases spawned with
    | true => exact hi.spawn rfl (by simp) _
    | false => exact hi.shareds s.now _

theorem run_invariant {s : State} {shared : Nat} {ignoreRequestControls : Bool} (hi : Invariant s)
    (few : (run s shared ignoreRequestControls).futures.length ≤ waiterIds) :
    Invariant (run s shared ignoreRequestControls) := by
  have hlen : s.futures.length < waiterIds := by
    simp only [run, List.length_append, List.length_singleton] at few
    omega
  have hid : s.nextWaiter = s.futures.length := by
    rw [hi.nextWaiter, Nat.mod_eq_of_lt hlen]
  refine ⟨?_, fun i f hf => ?_, ?_, hi.cancelled⟩
  · simp [run, hid]
  · rcases getElem?_snoc_some hf with ⟨rfl, rfl⟩ | hf
    · refine ⟨hi.nextWaiter, by simp [Phase.holdsLock], by simp, by simp [Phase.waiting], ?_⟩
      refine fun _ _ => ⟨rfl, fun task ht => ?_⟩
      -- an entry under the new id would belong to an older future
      obtain ⟨j, g, hg, hgid, -⟩ := hi.owned _ ht
      have hj := lt_length_of_some hg
      have hgj := (hi.futures j g hg).id
      rw [Nat.mod_eq_of_lt (by omega)] at hgj
      simp only at hgid
      omega
    · have h := hi.futures i f hf
      exact ⟨h.id, h.lock, h.ready, h.waiting, h.swept⟩
  · intro e he
    obtain ⟨i, f, hf, h⟩ := hi.owned e he
    exact ⟨i, f, getElem?_snoc_of_some hf, h⟩

theorem threadStep_futures {s s' : State} {n : Nat} {t : Thread}
    (h : threadStep s n t = some s') : s'.futures = s.futures := by
  unfold threadStep at h
  split at h
  case h_4 =>
    obtain ⟨c, -, rfl⟩ := Option.map_eq_some_iff.mp h
    rfl
  case h_5 =>
    split at h
    · obtain rfl := Option.some.inj h
      rfl
    · cases h
  case h_8 => cases h
  all_goals
    obtain rfl := Option.some.inj h
    rfl

/-- Futures are created and never forgotten. -/
theorem futures_length_le {s s' : State} {a : Action} (h : step s a = some s') :
    s.futures.length ≤ s'.futures.length := by
  cases a with
  | tick | cancel =>
    obtain rfl := Option.some.inj h
    exact Nat.le_refl _
  | newContext deadline spawned =>
    obtain rfl := Option.some.inj h
    unfold newContext
    split <;> exact Nat.le_refl _
  | run shared ignoreRequestControls =>
    simp only [step] at h
    split at h
    · obtain rfl := Option.some.inj h
      simp [run]
    · cases h
  | poll i task =>
    obtain ⟨f, -, h⟩ := Option.bind_eq_some_iff.mp h
    simp only [beginPoll] at h
    split at h
    · split at h
      · obtain rfl := Option.some.inj h
        simp [State.setFuture]
      · cases h
    · cases h
  | advance i =>
    obtain ⟨f, -, h⟩ := Option.bind_eq_some_iff.mp h
    obtain ⟨c, -, h⟩ := Option.bind_eq_some_iff.mp h
    simp only [advance] at h
    split at h
    case h_8 =>
      split at h
      · obtain rfl := Option.some.inj h
        simp [State.setFuture]
      · cases h
    all_goals first
      | cases h; done
      | obtain rfl := Option.some.inj h
        simp [State.setFuture]
  | inner i result =>
    obtain ⟨f, -, h⟩ := Option.bind_eq_some_iff.mp h
    simp only [endInner] at h
    split at h
    · obtain rfl := Option.some.inj h
      simp [State.setFuture]
    · cases h
  | drop i =>
    obtain ⟨f, -, h⟩ := Option.bind_eq_some_iff.mp h
    simp only [dropFuture] at h
    split at h
    · split at h
      · split at h
        · obtain rfl := Option.some.inj h
          simp [State.setFuture]
        · cases h
      · obtain rfl := Option.some.inj h
        simp [State.setFuture]
    · cases h
  | thread n =>
    obtain ⟨t, -, h⟩ := Option.bind_eq_some_iff.mp h
    rw [threadStep_futures h]
  | stopTimer n =>
    obtain ⟨t, -, h⟩ := Option.bind_eq_some_iff.mp h
    split at h
    · obtain rfl := Option.some.inj h
      exact Nat.le_refl _
    · cases h

theorem step_invariant {s s' : State} {a : Action} (hi : Invariant s)
    (few : s'.futures.length ≤ waiterIds) (h : step s a = some s') : Invariant s' := by
  have few₀ : s.futures.length ≤ waiterIds := Nat.le_trans (futures_length_le h) few
  cases a with
  | tick =>
    obtain rfl := Option.some.inj h
    exact hi.shareds _ s.shareds
  | newContext deadline spawned =>
    obtain rfl := Option.some.inj h
    exact newContext_invariant hi deadline spawned
  | run shared ignoreRequestControls =>
    simp only [step] at h
    split at h
    · obtain rfl := Option.some.inj h
      exact run_invariant hi few
    · cases h
  | poll i task =>
    obtain ⟨f, hf, h⟩ := Option.bind_eq_some_iff.mp h
    exact beginPoll_invariant hi few₀ hf h
  | advance i =>
    obtain ⟨f, hf, h⟩ := Option.bind_eq_some_iff.mp h
    obtain ⟨c, -, h⟩ := Option.bind_eq_some_iff.mp h
    exact advance_invariant hi few₀ hf h
  | inner i result =>
    obtain ⟨f, hf, h⟩ := Option.bind_eq_some_iff.mp h
    exact endInner_invariant hi few₀ hf h
  | drop i =>
    obtain ⟨f, hf, h⟩ := Option.bind_eq_some_iff.mp h
    exact dropFuture_invariant hi few₀ hf h
  | cancel =>
    obtain rfl := Option.some.inj h
    exact hi.spawn rfl (by simp) s.shareds
  | thread n =>
    obtain ⟨t, ht, h⟩ := Option.bind_eq_some_iff.mp h
    exact threadStep_invariant hi ht h
  | stopTimer n =>
    obtain ⟨t, ht, h⟩ := Option.bind_eq_some_iff.mp h
    split at h
    · obtain rfl := Option.some.inj h
      exact hi.threadChange ht _ (ThreadChange.outside s.cancelled s.shareds rfl rfl id (by simp))
    · cases h

theorem reachable_invariant {s : State} (h : Reachable step initial s)
    (few : s.futures.length ≤ waiterIds) : Invariant s :=
  h.invariant (I := fun s => s.futures.length ≤ waiterIds → Invariant s)
    (fun _ => initial_invariant)
    (fun _ _ _ hi hs few => step_invariant (hi (Nat.le_trans (futures_length_le hs) few)) few hs)
    few

/-! ## Wake-ups -/

/-- Every future that honours the request controls and whose last poll returned
`Pending` has had that poll's waker invoked since it registered, or a running
`wake_waiters` has taken the waker and is about to invoke it. -/
def Notified (s : State) : Prop :=
  ∀ (i : Nat) (f : CheckedFuture), s.futures[i]? = some f → f.ignoreRequestControls = false →
    f.phase = .idle (some .pending) →
    WokenSince i f.task s.log ∨ BeingWoken s (f.waiterId, f.task)

/-- No future that returned `Ready` or was dropped has an entry under its id. -/
def NoStaleEntry (s : State) : Prop :=
  ∀ (i : Nat) (f : CheckedFuture), s.futures[i]? = some f →
    f.phase = .idle (some .ready) ∨ f.phase = .dropped → ∀ task, (f.waiterId, task) ∉ s.waiters

theorem notified_of_swept {s : State} (hi : Invariant s) (hs : Swept s) : Notified s := by
  intro i f hf hh hp
  have hinv := hi.futures i f hf
  rcases (hinv.waiting (by rw [hp]; rfl)).2 with hw | hm | hb
  · exact Or.inl hw
  · exact absurd hm ((hinv.swept hs hh).2 f.task)
  · exact Or.inr hb

theorem noStaleEntry {s : State} (hi : Invariant s) (few : s.futures.length ≤ waiterIds) :
    NoStaleEntry s := by
  intro i f hf hp task ht
  obtain ⟨hreg, hdropped⟩ := hi.owned_self few hf ht
  rcases hp with hp | hp
  · rw [(hi.futures i f hf).ready hp] at hreg
    cases hreg
  · exact hdropped hp

/-- A poll of future `i` with waker `task` that passes its checkpoint and
returns `Pending`. -/
def pollPending (i : Nat) (task : Waker) : List Action :=
  [.poll i task, .advance i, .advance i, .advance i, .advance i, .advance i, .inner i .pending]

/-- One pending future, and a `cancel` call that runs to its end. -/
def cancelledRun : List Action :=
  .newContext none true :: .run 0 false :: pollPending 0 7 ++
    [.cancel, .thread 0, .thread 0, .thread 0, .thread 0]

/-- The guarantee without its exceptions: for contexts that ignore the request
controls too, after any `cancel` call, and with no waker still to be invoked. -/
def NoLostWakeup (s : State) : Prop :=
  s.cancelled = true → (∃ woke, Thread.returned .cancel woke ∈ s.threads) →
    ∀ (i : Nat) (f : CheckedFuture), s.futures[i]? = some f → f.phase = .idle (some .pending) →
      WokenSince i f.task s.log

theorem WokenSince.mem {i : Nat} {task : Waker} {log : List Event}
    (h : WokenSince i task log) : .woke task ∈ log := by
  obtain ⟨later, earlier, rfl, -, hw⟩ := h
  exact List.mem_append_left _ hw

/-- A future on a `cleanup_scope` registers after the flag has been set. -/
def cleanupRun : List Action :=
  [.newContext none true, .run 0 true, .cancel, .thread 0, .thread 0, .thread 0,
    .poll 0 7, .advance 0, .inner 0 .pending]

/-- The deadline timer of a second context has taken the waker, and `cancel`
returns before the timer invokes it. -/
def timerRun : List Action :=
  .newContext none true :: .newContext (some 1) true :: .run 0 false :: pollPending 0 7 ++
    [.tick, .thread 0, .thread 0, .thread 0, .thread 0,
      .cancel, .thread 1, .thread 1, .thread 1]

/-- A second `cancel` returns while the first one has only set the flag. -/
def secondCancelRun : List Action :=
  .newContext none true :: .run 0 false :: pollPending 0 7 ++
    [.cancel, .thread 0, .cancel, .thread 1]

/-- One registered future, `n + 1` more, and the drop of the last one. -/
def wrappedRun (n : Nat) : List Action :=
  (.newContext none true :: .run 0 false :: pollPending 0 7) ++
    List.replicate (n + 1) (.run 0 false) ++ [.drop (n + 1)]

theorem exec_runs {s : State} {shared : Nat} (hshared : shared < s.shareds.length) (n : Nat) :
    ∃ s', exec step s (List.replicate n (.run shared false)) = some s' ∧
      s'.shareds = s.shareds ∧ s'.waiters = s.waiters ∧
      s'.futures.length = s.futures.length + n ∧
      (s.nextWaiter < waiterIds → s'.nextWaiter = (s.nextWaiter + n) % waiterIds) := by
  induction n with
  | zero => exact ⟨s, rfl, rfl, rfl, rfl, fun h => (Nat.mod_eq_of_lt h).symm⟩
  | succ n ih =>
    obtain ⟨s', hs, hc, hw, hlen, hnext⟩ := ih
    refine ⟨run s' shared false, ?_, hc, hw, ?_, fun h => ?_⟩
    · rw [List.replicate_succ']
      exact exec_snoc hs (by rw [step, if_pos (by rw [hc]; exact hshared)])
    · simp [run, hlen, Nat.add_assoc]
    · simp [run, hnext h, Nat.add_assoc]

theorem step_drop_unregistered {s : State} {i : Nat} {f : CheckedFuture} {last : Option PollResult}
    (hf : s.futures[i]? = some f) (hp : f.phase = .idle last) (hr : f.registered = false) :
    step s (.drop i) = some (s.setFuture i { f with phase := .dropped }) := by
  simp [step, hf, dropFuture, hp, hr]

/-- The id of the first future is given out again, and the drop of the last
future leaves the entry under it. -/
theorem wrapped_id_keeps_entry {n : Nat} (hn : n + 1 = waiterIds) :
    ∃ s, exec step initial (wrappedRun n) = some s ∧ ¬ NoStaleEntry s := by
  obtain ⟨s₀, hs₀, hshared, hentry, hlen₀, hnext₀⟩ : ∃ s₀ : State,
      exec step initial (.newContext none true :: .run 0 false :: pollPending 0 7) = some s₀ ∧
        0 < s₀.shareds.length ∧ (0, 7) ∈ s₀.waiters ∧ s₀.futures.length = 1 ∧
        s₀.nextWaiter = 1 :=
    ⟨_, rfl, by decide, List.mem_singleton_self _, rfl, rfl⟩
  have hone : s₀.nextWaiter < waiterIds := by rw [hnext₀, waiterIds]; omega
  obtain ⟨s₁, hs₁, hshared₁, hentry₁, hlen₁, hnext₁⟩ := exec_runs hshared n
  -- the last of the new futures gets id `(1 + (2 ^ 64 - 1)) % 2 ^ 64 = 0`
  have hzero : s₁.nextWaiter = 0 := by
    rw [hnext₁ hone, hnext₀, Nat.add_comm, hn, Nat.mod_self]
  have hlast : s₁.futures.length = n + 1 := by
    rw [hlen₁, hlen₀, Nat.add_comm]
  have hruns : exec step initial ((.newContext none true :: .run 0 false :: pollPending 0 7) ++
      List.replicate (n + 1) (.run 0 false)) = some (run s₁ 0 false) := by
    rw [exec_append, hs₀, List.replicate_succ']
    exact exec_snoc hs₁ (by rw [step, if_pos (by rw [hshared₁]; exact hshared)])
  have hf : (run s₁ 0 false).futures[s₁.futures.length]? = some
      { shared := 0, ignoreRequestControls := false, waiterId := s₁.nextWaiter } :=
    getElem?_snoc_length
  rw [hlast, hzero] at hf
  refine ⟨_, exec_snoc hruns (step_drop_unregistered hf rfl rfl), fun h => ?_⟩
  refine h (n + 1) _ (getElem?_set_self hf) (Or.inr rfl) 7 ?_
  rw [← hentry₁] at hentry
  exact hentry

end IntoMarkdown.Core.Cancellation
