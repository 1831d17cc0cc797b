import IntoMarkdown.Core.Error
import IntoMarkdown.Lib.Transition

/-! # Progress reports and their mailbox

`report` filters and publishes under the progress lock, and the dispatcher's
worker pops the bounded mailbox whenever it is scheduled. Both are atomic
steps of one transition system; the events handed to the listener and the
reports that passed the filter are recorded beside the code's own state. -/

namespace IntoMarkdown.Core.Progress
open Transition

inductive ExecutionStage where
  | resolving | detecting | probing | converting | ocr | ai | rendering | completed
  deriving DecidableEq, Repr

def ExecutionStage.rank : ExecutionStage → Nat
  | .resolving => 0
  | .detecting => 1
  | .probing => 2
  | .converting | .ocr | .ai => 3
  | .rendering => 4
  | .completed => 5

def ExecutionStage.baseBasisPoints : ExecutionStage → Nat
  | .resolving => 0
  | .detecting => 1500
  | .probing => 3000
  | .converting | .ocr | .ai => 4500
  | .rendering => 8000
  | .completed => 10000

structure ProgressEvent where
  stage : ExecutionStage
  basisPoints : Nat
  completedUnits : Option Nat
  totalUnits : Option Nat
  message : Option String
  deriving DecidableEq, Repr

/-- The last accepted report, kept under the progress lock. -/
structure ProgressState where
  rank : Nat := 0
  stage : Option ExecutionStage := none
  basisPoints : Nat := 0
  started : Bool := false
  completed : Bool := false
  sequence : Nat := 0
  completedUnits : Option Nat := none
  totalUnits : Option Nat := none
  message : Option String := none
  deriving DecidableEq, Repr

/-- `ProgressMailboxInner`: the queue shared with the worker. -/
structure Mailbox where
  queue : List ProgressEvent := []
  newestSequence : Nat := 0
  closed : Bool := false
  deriving DecidableEq, Repr

def u64Max : Nat := 2 ^ 64 - 1
def u16Max : Nat := 2 ^ 16 - 1
def mailboxCapacity : Nat := 8

/-- Arguments of one `report` call. -/
structure Report where
  stage : ExecutionStage
  completedUnits : Option Nat
  totalUnits : Option Nat
  message : Option String
  deriving DecidableEq, Repr

/-- Thousandths of the stage, `u16::try_from(..).unwrap_or(1_000)`. -/
def stageFraction : Option Nat → Option Nat → Nat
  | some completed, some total =>
    if total > 0 then
      let fraction := min completed total * 1000 / total
      if fraction ≤ u16Max then fraction else 1000
    else 0
  | _, _ => 0

def basisPointsOf (r : Report) : Nat :=
  if r.stage = .completed then 10000
  else min (r.stage.baseBasisPoints + min (stageFraction r.completedUnits r.totalUnits) 999) u16Max

/-- `ProgressDispatcher::publish`: an equal newest stage is overwritten, and a
full mailbox gives up its newest entry. -/
def publish (inner : Mailbox) (sequence : Nat) (event : ProgressEvent) : Mailbox :=
  if inner.closed || sequence ≤ inner.newestSequence then inner
  else
    { queue :=
        if inner.queue.getLast?.any (·.stage == event.stage) then
          inner.queue.dropLast ++ [event]
        else if inner.queue.length < mailboxCapacity then inner.queue ++ [event]
        else inner.queue.dropLast ++ [event]
      newestSequence := sequence
      closed := event.stage = .completed }

/-- One execution context with a listener. `accepted` and `delivered` are
records of the run, not state of the program; `live` is false once the context
has been dropped. -/
structure Context where
  progress : ProgressState := {}
  mailbox : Mailbox := {}
  live : Bool := true
  accepted : List ProgressEvent := []
  delivered : List ProgressEvent := []
  deriving DecidableEq, Repr

/-- The event a report publishes, after `basis_points.max(progress.basis_points)`. -/
def eventOf (p : ProgressState) (r : Report) : ProgressEvent :=
  { stage := r.stage
    basisPoints := max (basisPointsOf r) p.basisPoints
    completedUnits := r.completedUnits
    totalUnits := r.totalUnits
    message := r.message }

/-- The two early returns of `report` that leave everything unchanged. -/
def ignored (p : ProgressState) (r : Report) : Bool :=
  p.completed || (p.started && r.stage.rank < p.rank) ||
    (p.started && p.stage == some r.stage && (eventOf p r).basisPoints == p.basisPoints &&
      p.completedUnits == r.completedUnits && p.totalUnits == r.totalUnits &&
      p.message == r.message)

def recordReport (p : ProgressState) (r : Report) : ProgressState :=
  { rank := r.stage.rank
    stage := some r.stage
    basisPoints := (eventOf p r).basisPoints
    started := true
    completed := r.stage = .completed
    sequence := min (p.sequence + 1) u64Max
    completedUnits := r.completedUnits
    totalUnits := r.totalUnits
    message := r.message }

/-- `ExecutionContext::report`; `checkpoint` is what the pre-publication
checkpoint returned. -/
def report (checkpoint : Except Interruption Unit) (r : Report) (s : Context) :
    Except Interruption Context := do
  checkpoint
  if ignored s.progress r then return s
  let progress := recordReport s.progress r
  let event := eventOf s.progress r
  return { s with
    progress := progress
    mailbox := publish s.mailbox progress.sequence event
    accepted := s.accepted ++ [event] }

inductive Action where
  | report (checkpoint : Except Interruption Unit) (r : Report)
  | pop
  | drop

/-- Atomic steps: a whole `report` (it holds the progress lock), one pop of the
worker, and the drop of the context, which only closes the mailbox. -/
def step (s : Context) : Action → Option Context
  | .report checkpoint r =>
    if s.live then
      match report checkpoint r s with
      | .ok s' => some s'
      | .error _ => some s
    else none
  | .pop =>
    match s.mailbox.queue with
    | [] => none
    | event :: rest => some { s with
        mailbox := { s.mailbox with queue := rest }
        delivered := s.delivered ++ [event] }
  | .drop =>
    if s.live then some { s with mailbox := { s.mailbox with closed := true }, live := false }
    else none

def initial : Context := {}

/-! ## What one accepted report does -/

theorem stageFraction_le (c t : Option Nat) : stageFraction c t ≤ 1000 := by
  unfold stageFraction
  split
  · split
    · rename_i completed total ht
      have hle : min completed total * 1000 / total ≤ 1000 := by
        apply Nat.div_le_of_le_mul
        have := Nat.mul_le_mul_right 1000 (Nat.min_le_right completed total)
        exact this
      simp only
      split <;> omega
    · omega
  · omega

theorem basisPointsOf_le (r : Report) : basisPointsOf r ≤ 10000 := by
  unfold basisPointsOf
  split
  · exact Nat.le_refl _
  · have hb : r.stage.baseBasisPoints ≤ 8000 := by
      cases hs : r.stage <;> simp_all [ExecutionStage.baseBasisPoints]
    omega

/-- The context after a report that passes the filter. -/
def accept (s : Context) (r : Report) : Context :=
  { s with
    progress := recordReport s.progress r
    mailbox := publish s.mailbox (recordReport s.progress r).sequence (eventOf s.progress r)
    accepted := s.accepted ++ [eventOf s.progress r] }

theorem step_report {s : Context} {r : Report} (hlive : s.live = true)
    (hr : ignored s.progress r = false) :
    step s (.report (.ok ()) r) = some (accept s r) := by
  simp [step, hlive, report, bind, Except.bind, hr, pure, Except.pure, accept]

/-- A step is one of: nothing, an accepted report, a pop, a drop. -/
theorem step_cases {s s' : Context} {a : Action} (h : step s a = some s') :
    s' = s ∨
    (∃ r, s.live = true ∧ ignored s.progress r = false ∧ s' = accept s r) ∨
    (∃ event rest, s.mailbox.queue = event :: rest ∧
      s' = { s with
        mailbox := { s.mailbox with queue := rest }
        delivered := s.delivered ++ [event] }) ∨
    (s.live = true ∧
      s' = { s with mailbox := { s.mailbox with closed := true }, live := false }) := by
  cases a with
  | report checkpoint r =>
    simp only [step] at h
    split at h
    · rename_i hlive
      cases checkpoint with
      | error e =>
        left
        simpa [report, bind, Except.bind] using h.symm
      | ok u =>
        cases hi : ignored s.progress r with
        | true =>
          left
          simpa [report, bind, Except.bind, hi, pure, Except.pure] using h.symm
        | false =>
          right; left
          refine ⟨r, hlive, hi, ?_⟩
          simpa [report, bind, Except.bind, hi, pure, Except.pure, accept] using h.symm
    · cases h
  | pop =>
    simp only [step] at h
    split at h
    · cases h
    · rename_i event rest hq
      exact Or.inr (Or.inr (Or.inl ⟨event, rest, hq, by simpa using h.symm⟩))
  | drop =>
    simp only [step] at h
    split at h
    · rename_i hlive
      exact Or.inr (Or.inr (Or.inr ⟨hlive, by simpa using h.symm⟩))
    · cases h

/-- An open mailbox that has not seen `sequence` yet takes the event as its
newest entry, giving up at most the previous newest one. -/
theorem publish_open {inner : Mailbox} {sequence : Nat} (event : ProgressEvent)
    (hopen : inner.closed = false) (hnew : inner.newestSequence < sequence)
    (hcap : inner.queue.length ≤ mailboxCapacity) :
    ∃ kept, kept.Sublist inner.queue ∧ kept.length < mailboxCapacity ∧
      publish inner sequence event =
        { queue := kept ++ [event]
          newestSequence := sequence
          closed := event.stage = .completed } := by
  have hguard : (inner.closed || sequence ≤ inner.newestSequence) = false := by
    simp [hopen]; omega
  have hdrop : inner.queue.dropLast.length < mailboxCapacity := by
    simp only [List.length_dropLast, mailboxCapacity] at hcap ⊢
    omega
  unfold publish
  rw [hguard]
  simp only [Bool.false_eq_true, ↓reduceIte]
  split
  · exact ⟨inner.queue.dropLast, List.dropLast_sublist _, hdrop, rfl⟩
  · split
    · rename_i hlen
      exact ⟨inner.queue, List.Sublist.refl _, hlen, rfl⟩
    · exact ⟨inner.queue.dropLast, List.dropLast_sublist _, hdrop, rfl⟩

/-- A sequence number that is not new leaves the mailbox alone. -/
theorem publish_stale {inner : Mailbox} {sequence : Nat} (event : ProgressEvent)
    (hold : sequence ≤ inner.newestSequence) : publish inner sequence event = inner := by
  unfold publish
  rw [if_pos (by simp [hold])]

theorem ignored_eq_false {p : ProgressState} {r : Report} (h : ignored p r = false) :
    p.completed = false ∧ (p.started = true → p.rank ≤ r.stage.rank) := by
  simp only [ignored, Bool.or_eq_false_iff] at h
  obtain ⟨⟨hc, hr⟩, -⟩ := h
  refine ⟨hc, fun hs => ?_⟩
  simpa [hs] using hr

/-! ## Invariant of every run -/

/-- Accepted reports never go back, and a `Completed` report is the last. -/
def Ordered (events : List ProgressEvent) : Prop :=
  events.Pairwise fun a b =>
    a.stage.rank ≤ b.stage.rank ∧ a.basisPoints ≤ b.basisPoints ∧ a.stage ≠ .completed

structure Invariant (s : Context) : Prop where
  fresh : s.progress.started = false → s.accepted = []
  ordered : Ordered s.accepted
  below : ∀ e ∈ s.accepted, e.stage.rank ≤ s.progress.rank ∧ e.basisPoints ≤ s.progress.basisPoints
  bounded : s.progress.basisPoints ≤ 10000
  unfinished : s.progress.completed = false → ∀ e ∈ s.accepted, e.stage ≠ .completed
  finished : s.progress.completed = true →
    ∃ before e, s.accepted = before ++ [e] ∧ e.stage = .completed
  openWhile : s.live = true → s.progress.completed = false → s.mailbox.closed = false
  sequence : s.progress.sequence = min s.accepted.length u64Max
  newest : s.mailbox.newestSequence = s.progress.sequence
  capacity : s.mailbox.queue.length ≤ mailboxCapacity
  recorded : (s.delivered ++ s.mailbox.queue).Sublist (s.accepted.take u64Max)
  last : s.accepted.length ≤ u64Max →
    (s.delivered ++ s.mailbox.queue).getLast? = s.accepted.getLast?

theorem initial_invariant : Invariant initial where
  fresh := fun _ => rfl
  ordered := List.Pairwise.nil
  below := by simp [initial]
  bounded := Nat.zero_le _
  unfinished := by simp [initial]
  finished := by simp [initial]
  openWhile := fun _ _ => rfl
  sequence := by simp [initial]
  newest := rfl
  capacity := Nat.zero_le _
  recorded := by simp [initial]
  last := fun _ => rfl

/-- Appending the event of an accepted report keeps the order. -/
theorem ordered_append {s : Context} (hi : Invariant s) {r : Report}
    (hr : ignored s.progress r = false) :
    Ordered (s.accepted ++ [eventOf s.progress r]) := by
  obtain ⟨hopen, hrank⟩ := ignored_eq_false hr
  refine List.pairwise_append.mpr ⟨hi.ordered, List.pairwise_singleton _ _, ?_⟩
  intro a ha b hb
  obtain rfl := List.mem_singleton.mp hb
  have hstarted : s.progress.started = true := by
    cases hs : s.progress.started with
    | true => rfl
    | false => simp [hi.fresh hs] at ha
  obtain ⟨h1, h2⟩ := hi.below a ha
  exact ⟨Nat.le_trans h1 (hrank hstarted), Nat.le_trans h2 (Nat.le_max_right _ _),
    hi.unfinished hopen a ha⟩

theorem below_append {s : Context} (hi : Invariant s) {r : Report}
    (hr : ignored s.progress r = false) :
    ∀ e ∈ s.accepted ++ [eventOf s.progress r],
      e.stage.rank ≤ r.stage.rank ∧ e.basisPoints ≤ (eventOf s.progress r).basisPoints := by
  intro e he
  rcases List.mem_append.mp he with he | he
  · have hp := List.pairwise_append.mp (ordered_append hi hr)
    obtain ⟨h1, h2, -⟩ := hp.2.2 e he _ (List.mem_singleton_self _)
    exact ⟨h1, h2⟩
  · obtain rfl := List.mem_singleton.mp he
    exact ⟨Nat.le_refl _, Nat.le_refl _⟩

/-- The mailbox after an accepted report: the event is its newest entry while
the sequence counter still grows, and nothing changes once it is saturated. -/
theorem publish_accepted {s : Context} (hi : Invariant s) {r : Report}
    (hlive : s.live = true) (hr : ignored s.progress r = false) :
    let event := eventOf s.progress r
    let inner := publish s.mailbox (recordReport s.progress r).sequence event
    (s.accepted.length < u64Max ∧ ∃ kept, kept.Sublist s.mailbox.queue ∧
        kept.length < mailboxCapacity ∧
        inner = ⟨kept ++ [event], s.accepted.length + 1, event.stage = .completed⟩) ∨
      (u64Max ≤ s.accepted.length ∧ inner = s.mailbox) := by
  intro event inner
  have hopen := hi.openWhile hlive (ignored_eq_false hr).1
  have hseq := hi.sequence
  have hnew := hi.newest
  have hrec : (recordReport s.progress r).sequence = min (s.progress.sequence + 1) u64Max := rfl
  by_cases hlen : s.accepted.length < u64Max
  · left
    have hsucc : (recordReport s.progress r).sequence = s.accepted.length + 1 := by omega
    obtain ⟨kept, h1, h2, h3⟩ := publish_open event hopen
      (show s.mailbox.newestSequence < s.accepted.length + 1 by omega) hi.capacity
    exact ⟨hlen, kept, h1, h2, by simpa only [inner, hsucc] using h3⟩
  · right
    refine ⟨by omega, publish_stale event ?_⟩
    omega

theorem report_invariant {s : Context} (hi : Invariant s) {r : Report}
    (hlive : s.live = true) (hr : ignored s.progress r = false) :
    Invariant (accept s r) := by
  have hseq := hi.sequence
  have hbound : (eventOf s.progress r).basisPoints ≤ 10000 :=
    Nat.max_le.mpr ⟨basisPointsOf_le r, hi.bounded⟩
  have hrec : (recordReport s.progress r).sequence =
      min (s.accepted ++ [eventOf s.progress r]).length u64Max := by
    simp only [recordReport, List.length_append, List.length_singleton]
    omega
  have hstage : (recordReport s.progress r).completed = false → r.stage ≠ .completed := by
    simp [recordReport]
  constructor
  case fresh => intro h; simp [accept, recordReport] at h
  case ordered => exact ordered_append hi hr
  case below => exact below_append hi hr
  case bounded => exact hbound
  case unfinished =>
    intro hu e he
    rcases List.mem_append.mp he with he | he
    · exact hi.unfinished (ignored_eq_false hr).1 e he
    · obtain rfl := List.mem_singleton.mp he
      exact hstage hu
  case finished =>
    intro hf
    exact ⟨s.accepted, eventOf s.progress r, rfl, by simpa [accept, recordReport, eventOf] using hf⟩
  case sequence => exact hrec
  all_goals
    rcases publish_accepted hi hlive hr with ⟨hlen, kept, hk, hcap, hin⟩ | ⟨hlen, hin⟩
    all_goals simp only [accept, hin]
  case openWhile.inl =>
    intro _ hu
    exact decide_eq_false (hstage hu)
  case openWhile.inr => exact fun hl _ => hi.openWhile hl (ignored_eq_false hr).1
  case newest.inl =>
    rw [hrec]
    simp only [List.length_append, List.length_singleton]
    omega
  case newest.inr =>
    rw [hrec, hi.newest, hseq]
    simp only [List.length_append, List.length_singleton]
    omega
  case capacity.inl =>
    simp only [List.length_append, List.length_singleton]
    omega
  case capacity.inr => exact hi.capacity
  case recorded.inl =>
    have hs := hi.recorded
    rw [List.take_of_length_le (by omega)] at hs
    rw [List.take_of_length_le (by simp only [List.length_append, List.length_singleton]; omega),
      ← List.append_assoc]
    exact List.Sublist.append
      ((List.Sublist.append (List.Sublist.refl _) hk).trans hs) (List.Sublist.refl _)
  case recorded.inr =>
    rw [List.take_append_of_le_length hlen]
    exact hi.recorded
  case last.inl => intro _; simp
  case last.inr =>
    intro h
    simp only [List.length_append, List.length_singleton] at h
    omega

theorem step_invariant {s s' : Context} {a : Action} (hi : Invariant s)
    (h : step s a = some s') : Invariant s' := by
  rcases step_cases h with rfl | ⟨r, hlive, hr, rfl⟩ | ⟨event, rest, hq, rfl⟩ | ⟨hlive, rfl⟩
  · exact hi
  · exact report_invariant hi hlive hr
  · have hcap := hi.capacity
    have hrec := hi.recorded
    have hlast := hi.last
    rw [hq] at hcap hrec hlast
    exact { hi with
      capacity := by simp only [List.length_cons] at hcap; simp only; omega
      recorded := by simpa using hrec
      last := by simpa using hlast }
  · exact { hi with openWhile := fun hl => by simp at hl }

theorem reachable_invariant {s : Context} (h : Reachable step initial s) : Invariant s :=
  h.invariant initial_invariant fun _ _ _ hi hs => step_invariant hi hs

/-! ## Delivery -/

/-- What a listener may rely on in a state: delivered events are accepted
reports in order, never going back, with nothing after `Completed`; and an
accepted `Completed` report waits at the end of the queue until it is popped. -/
structure Delivery (s : Context) : Prop where
  accepted : s.delivered.Sublist s.accepted
  ranks : s.delivered.Pairwise fun a b => a.stage.rank ≤ b.stage.rank
  points : s.delivered.Pairwise fun a b => a.basisPoints ≤ b.basisPoints
  bounded : ∀ e ∈ s.delivered, e.basisPoints ≤ 10000
  terminal : ∀ before e after, s.delivered = before ++ e :: after →
    e.stage = .completed → after = []
  capacity : s.mailbox.queue.length ≤ mailboxCapacity
  retained : ∀ e ∈ s.accepted, e.stage = .completed →
    s.mailbox.queue.getLast? = some e ∨ e ∈ s.delivered

theorem Ordered.sublist {xs ys : List ProgressEvent} (h : Ordered ys) (hs : xs.Sublist ys) :
    Ordered xs := List.Pairwise.sublist hs h

theorem Ordered.terminal {xs before after : List ProgressEvent} {e : ProgressEvent}
    (h : Ordered xs) (hx : xs = before ++ e :: after) (he : e.stage = .completed) :
    after = [] := by
  subst hx
  cases after with
  | nil => rfl
  | cons b after =>
    have hp := (List.pairwise_cons.mp (List.pairwise_append.mp h).2.1).1 b (List.mem_cons_self ..)
    exact absurd he hp.2.2

/-- The newest accepted report is the newest of what was delivered or queued,
so a `Completed` one is queued last or has been delivered. -/
theorem Invariant.retained {s : Context} (hi : Invariant s)
    (hlen : s.accepted.length ≤ u64Max) {e : ProgressEvent} (he : e ∈ s.accepted)
    (hc : e.stage = .completed) :
    s.mailbox.queue.getLast? = some e ∨ e ∈ s.delivered := by
  obtain ⟨before, after, hacc⟩ := List.append_of_mem he
  obtain rfl := hi.ordered.terminal hacc hc
  have hlast := hi.last hlen
  rw [hacc, List.getLast?_append, List.getLast?_append] at hlast
  cases hq : s.mailbox.queue.getLast? with
  | some q =>
    left
    simpa [hq] using hlast
  | none =>
    right
    have hd : s.delivered.getLast? = some e := by simpa [hq] using hlast
    exact List.mem_of_getLast? hd

/-- A saturated sequence counter loses the `Completed` report: everything that
ever reached the mailbox was accepted before it. -/
theorem Invariant.lost {s : Context} (hi : Invariant s) (hc : s.progress.completed = true)
    (hlen : u64Max < s.accepted.length) :
    ∃ e ∈ s.accepted, e.stage = .completed ∧
      ¬ (s.mailbox.queue.getLast? = some e ∨ e ∈ s.delivered) := by
  obtain ⟨before, e, hacc, he⟩ := hi.finished hc
  refine ⟨e, by simp [hacc], he, fun hmem => ?_⟩
  have hrec := hi.recorded
  have htake : s.accepted.take u64Max = before.take u64Max := by
    rw [hacc] at hlen ⊢
    simp only [List.length_append, List.length_singleton] at hlen
    exact List.take_append_of_le_length (by omega)
  rw [htake] at hrec
  have hbefore : e ∈ before := by
    refine List.take_subset _ _ (hrec.subset ?_)
    rcases hmem with hq | hd
    · exact List.mem_append_right _ (List.mem_of_getLast? hq)
    · exact List.mem_append_left _ hd
  have hord := hi.ordered
  rw [hacc] at hord
  exact ((List.pairwise_append.mp hord).2.2 e hbefore e (List.mem_singleton_self _)).2.2 he

/-- In every reachable state the listener's guarantees hold exactly when a
`Completed` report, if one was accepted, was among the first `2 ^ 64 - 1`. -/
theorem delivery_iff {s : Context} (h : Reachable step initial s) :
    Delivery s ↔ (s.progress.completed = true → s.accepted.length ≤ u64Max) := by
  have hi := reachable_invariant h
  constructor
  · intro hd hc
    refine Nat.le_of_not_lt fun hlen => ?_
    obtain ⟨e, he, hstage, hno⟩ := hi.lost hc hlen
    exact hno (hd.retained e he hstage)
  · intro hlen
    have hsub : s.delivered.Sublist s.accepted :=
      ((List.sublist_append_left _ _).trans hi.recorded).trans (List.take_sublist _ _)
    have hord := hi.ordered.sublist hsub
    exact {
      accepted := hsub
      ranks := hord.imp fun h => h.1
      points := hord.imp fun h => h.2.1
      bounded := fun e he =>
        Nat.le_trans (hi.below e (hsub.subset he)).2 hi.bounded
      terminal := fun before e after hx => hord.terminal hx
      capacity := hi.capacity
      retained := fun e he hstage => by
        cases hc : s.progress.completed with
        | false => exact absurd hstage (hi.unfinished hc e he)
        | true => exact hi.retained (hlen hc) he hstage }

/-! ## Two runs: one the worker finishes, one that saturates the counter -/

/-- Transcription of media of unknown length: report `i` says that `i` samples
are done. -/
def sampleReport (i : Nat) : Action :=
  .report (.ok ()) ⟨.ai, some i, none, none⟩

def completedReport : Action := .report (.ok ()) ⟨.completed, none, none, none⟩

theorem delivery_of_short_run :
    ∃ s, exec step initial [sampleReport 0, completedReport, .pop] = some s ∧ Delivery s :=
  ⟨_, rfl, (delivery_iff ⟨[sampleReport 0, completedReport, .pop], rfl⟩).mpr fun _ => by decide⟩

/-- Every one of these reports is accepted, whatever their number. -/
theorem samples_accepted (n : Nat) :
    ∃ s, exec step initial ((List.range n).map sampleReport) = some s ∧ s.live = true ∧
      s.progress.completed = false ∧ s.progress.rank ≤ 3 ∧
      s.progress.stage ≠ some .completed ∧
      (∀ i, s.progress.completedUnits = some i → i < n) ∧ s.accepted.length = n := by
  induction n with
  | zero =>
    exact ⟨initial, rfl, rfl, rfl, Nat.zero_le _, by simp [initial], by simp [initial], rfl⟩
  | succ n ih =>
    obtain ⟨s, hs, hlive, hopen, hrank, -, hunits, hlen⟩ := ih
    have hne : s.progress.completedUnits ≠ some n := fun h => Nat.lt_irrefl n (hunits n h)
    have hr : ignored s.progress ⟨.ai, some n, none, none⟩ = false := by
      have : ¬ 3 < s.progress.rank := by omega
      simp [ignored, hopen, ExecutionStage.rank, this, hne]
    refine ⟨accept s ⟨.ai, some n, none, none⟩, ?_, hlive, rfl, Nat.le_refl 3, ?_, ?_, ?_⟩
    · rw [List.range_succ, List.map_append]
      exact exec_snoc hs (step_report hlive hr)
    · simp [accept, recordReport]
    · intro i hi
      simp only [accept, recordReport, Option.some.injEq] at hi
      omega
    · simp [accept, hlen]

/-- After `2 ^ 64 - 1` accepted reports the counter is saturated, and the
`Completed` report that follows never reaches the mailbox. -/
theorem saturated_counter_loses_completed :
    ∃ s, exec step initial ((List.range u64Max).map sampleReport ++ [completedReport]) = some s ∧
      ¬ Delivery s := by
  obtain ⟨s, hs, hlive, hopen, hrank, hstage, -, hlen⟩ := samples_accepted u64Max
  have hr : ignored s.progress ⟨.completed, none, none, none⟩ = false := by
    have hlow : ¬ 5 < s.progress.rank := by omega
    simp [ignored, hopen, ExecutionStage.rank, hlow, hstage]
  have hrun := exec_snoc hs (step_report hlive hr)
  refine ⟨_, hrun, fun hd => ?_⟩
  have hlost := (reachable_invariant ⟨_, hrun⟩).lost rfl (by simp [accept, hlen])
  obtain ⟨e, he, hcompleted, hno⟩ := hlost
  exact hno (hd.retained e he hcompleted)

end IntoMarkdown.Core.Progress
