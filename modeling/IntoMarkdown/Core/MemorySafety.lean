import IntoMarkdown.Core.MemoryLedger

/-! # The memory pool is accounted exactly

The ledger balances in every reachable state, no counter wraps or passes its
limit, and a credit never promises more than its backing holds. -/

namespace IntoMarkdown.Core.Memory
open Transition Slots Progress

/-! ## Invariant of every run -/

/-- The phases in which no credit on the reservation's backing is alive. -/
def Phase.exclusive : Phase → Bool
  | .grow _ _ | .growSettled _ | .growBacking _ | .shrinkBacking _ | .lendAttach _ => true
  | _ => false

/-- Bytes that the reservation has gained and its backing has not. -/
def Phase.gained : Phase → Nat
  | .growBacking n => n
  | _ => 0

/-- Bytes that the reservation has lost and its backing has not. -/
def Phase.lost : Phase → Nat
  | .shrinkBacking n => n
  | _ => 0

/-- The counter and the limit of a charge are those of its account. -/
def Charge.Ok (s : State) (account : Account) : Charge → Prop
  | .account => True
  | .charge counter limit => counter = account ∧ limit = s.limit account
  | .peak counter _ => counter = account

/-- What a failing call may still release: the credit that it has upgraded, or
after that the credit's share of the reservation's own backing. -/
def failingTodo (s : State) (backing : Option Nat) (todo : List Release) : Prop :=
  todo = [] ∨
  (∃ b c, backing = some b ∧ s.creditBacking c = some b ∧ todo = [.credit c]) ∨
  ∃ b, backing = some b ∧ todo = [.backing b]

structure SlotInv (s : State) (slot : Slot) : Prop where
  backed : slot.reservation.globalMemoryBacking.isSome ↔ slot.reservation.account = .memory
  known : ∀ b, slot.reservation.globalMemoryBacking = some b → b < s.backings.length
  loans : ∀ b c, slot.phase.owned → slot.reservation.globalMemoryBacking = some b →
    s.creditBacking c = some b → 0 < s.creditStrong c →
    slot.reservation.activeMemoryCredit = some c ∧ slot.phase.exclusive = false
  active : ∀ c, slot.reservation.activeMemoryCredit = some c →
    ∃ b, slot.reservation.globalMemoryBacking = some b ∧ s.creditBacking c = some b
  bytes : ∀ b, slot.phase.owned → slot.reservation.globalMemoryBacking = some b →
    slot.reservation.bytes + slot.phase.lost = s.backingBytes b + slot.phase.gained
  charging : ∀ n charge, slot.phase = .grow n charge → charge.Ok s slot.reservation.account
  failing : ∀ e todo, slot.phase = .failing e todo →
    failingTodo s slot.reservation.globalMemoryBacking todo
  counted : slot.phase = .dropCounter → slot.reservation.globalMemoryBacking = none

structure ReserveInv (s : State) (call : Reserve) : Prop where
  guard : call.phase ≠ .done → call.context.credit.isSome →
    ∃ (q : Nat) (slot : Slot), s.slots[q]? = some slot ∧ slot.phase = .lent call.context
  charging : ∀ charge, call.phase = .charging charge →
    charge.Ok s (accountOf call.kind call.context)

/-- The calls and the reservations fit the tables. -/
structure Shape (s : State) : Prop where
  slots : ∀ (r : Nat) (slot : Slot), s.slots[r]? = some slot → SlotInv s slot
  unique : ∀ (r r' b : Nat) (slot slot' : Slot), s.slots[r]? = some slot →
    s.slots[r']? = some slot' → slot.reservation.globalMemoryBacking = some b →
    slot'.reservation.globalMemoryBacking = some b → r = r'
  reserves : ∀ (j : Nat) (call : Reserve), s.reserves[j]? = some call → ReserveInv s call

structure Tables (s : State) : Prop where
  memory_le : s.memoryBytes ≤ s.limits.maxMemoryBytes
  temporary_le : s.temporaryBytes ≤ s.limits.maxTemporaryBytes
  unwrapped : s.wrapped = false
  freed : ∀ (b : Nat) (backing : MemoryBacking), s.backings[b]? = some backing →
    backing.freed → backing.strong = 0
  credits : ∀ c b, s.creditBacking c = some b → b < s.backings.length ∧
    (0 < s.creditStrong c → s.creditBytes c ≤ s.backingBytes b)

/-- Everything that holds of the pool, with `hand` held by a step in progress. -/
structure Books (s : State) (hand : Item → Nat) : Prop where
  tables : Tables s
  shape : Shape s
  balance : Balance s hand

/-- What holds between the steps. -/
def Invariant (s : State) : Prop := Books s fun _ => 0

theorem initial_invariant (limits : ResourceLimits) : Invariant (initial limits) where
  tables := ⟨Nat.zero_le _, Nat.zero_le _, rfl, by simp [initial],
    by simp [initial, State.creditBacking]⟩
  shape := ⟨by simp [initial], by simp [initial], by simp [initial]⟩
  balance := by
    intro x
    cases x with
    | bytes a => cases a <;> rfl
    | _ => rfl

/-! ## Steps that only move table entries -/

/-- The step keeps what the reservations rely on: the bytes of the backings and
which credit belongs to which backing, and it revives no credit. -/
structure Quiet (s s' : State) : Prop where
  slots : s'.slots = s.slots
  reserves : s'.reserves = s.reserves
  limits : s'.limits = s.limits
  length : s'.backings.length = s.backings.length
  backingBytes : ∀ b, s'.backingBytes b = s.backingBytes b
  creditBacking : ∀ c, s'.creditBacking c = s.creditBacking c
  creditStrong : ∀ c, 0 < s'.creditStrong c → 0 < s.creditStrong c

theorem Quiet.refl (s : State) : Quiet s s :=
  ⟨rfl, rfl, rfl, rfl, fun _ => rfl, fun _ => rfl, fun _ h => h⟩

theorem Quiet.limit {s s' : State} (q : Quiet s s') (account : Account) :
    s'.limit account = s.limit account := by
  cases account with
  | credit c =>
    simp only [State.limit, q.creditBacking]
    cases s.creditBacking c with
    | none => rfl
    | some b => exact q.backingBytes b
  | _ => simp only [State.limit, q.limits]

theorem Charge.Ok.quiet {s s' : State} (q : Quiet s s') {account : Account} {charge : Charge}
    (h : charge.Ok s account) : charge.Ok s' account := by
  cases charge with
  | charge counter limit => exact ⟨h.1, by rw [h.2, q.limit]⟩
  | _ => exact h

theorem SlotInv.quiet {s s' : State} (q : Quiet s s') {slot : Slot} (h : SlotInv s slot) :
    SlotInv s' slot where
  backed := h.backed
  known := by rw [q.length]; exact h.known
  loans := by
    intro b c ho hb hc hs
    rw [q.creditBacking] at hc
    exact h.loans b c ho hb hc (q.creditStrong c hs)
  active := by
    intro c hc
    obtain ⟨b, hb, hcb⟩ := h.active c hc
    exact ⟨b, hb, by rw [q.creditBacking, hcb]⟩
  bytes := by
    intro b ho hb
    rw [q.backingBytes]
    exact h.bytes b ho hb
  charging := fun n charge hp => (h.charging n charge hp).quiet q
  failing := by
    intro e todo hp
    have hf := h.failing e todo hp
    simpa only [failingTodo, q.creditBacking] using hf
  counted := h.counted

theorem Shape.quiet {s s' : State} (q : Quiet s s') (h : Shape s) : Shape s' where
  slots := by
    intro r slot hr
    rw [q.slots] at hr
    exact (h.slots r slot hr).quiet q
  unique := by rw [q.slots]; exact h.unique
  reserves := by
    intro j call hj
    rw [q.reserves] at hj
    have hr := h.reserves j call hj
    exact ⟨by rw [q.slots]; exact hr.guard, fun charge hc => (hr.charging charge hc).quiet q⟩

/-- A slot is rewritten to one that fits the same tables. -/
theorem Shape.setSlot {s : State} (h : Shape s) {r : Nat} {slot slot' : Slot}
    (hr : s.slots[r]? = some slot)
    (hb : slot'.reservation.globalMemoryBacking = slot.reservation.globalMemoryBacking)
    (hinv : SlotInv s slot')
    (hguard : ∀ context, slot.phase = .lent context → slot'.phase = .lent context ∨
      ∀ call ∈ s.reserves, call.phase = .done ∨ call.context.credit ≠ context.credit) :
    Shape (s.setSlot r slot') where
  slots := by
    intro q other hq
    rcases getElem?_set_some hq with ⟨rfl, rfl⟩ | ⟨-, hq⟩
    · exact ⟨hinv.backed, hinv.known, hinv.loans, hinv.active, hinv.bytes, hinv.charging,
        hinv.failing, hinv.counted⟩
    · have ho := h.slots q other hq
      exact ⟨ho.backed, ho.known, ho.loans, ho.active, ho.bytes, ho.charging,
        ho.failing, ho.counted⟩
  unique := by
    intro q q' b one two hq hq' h1 h2
    have old : ∀ {q : Nat} {one : Slot}, (s.slots.set r slot')[q]? = some one →
        one.reservation.globalMemoryBacking = some b →
        ∃ one', s.slots[q]? = some one' ∧ one'.reservation.globalMemoryBacking = some b := by
      intro q one hq h1
      rcases getElem?_set_some hq with ⟨rfl, rfl⟩ | ⟨-, hq⟩
      · exact ⟨slot, hr, by rw [← hb, h1]⟩
      · exact ⟨one, hq, h1⟩
    obtain ⟨one', hone, hb1⟩ := old hq h1
    obtain ⟨two', htwo, hb2⟩ := old hq' h2
    exact h.unique q q' b one' two' hone htwo hb1 hb2
  reserves := by
    intro j call hj
    have hc := h.reserves j call hj
    refine ⟨fun hopen hsome => ?_, hc.charging⟩
    obtain ⟨q, guard, hq, hlent⟩ := hc.guard hopen hsome
    by_cases hqr : q = r
    · subst hqr
      rw [hr] at hq
      obtain rfl := Option.some.inj hq
      rcases hguard _ hlent with hstill | hnone
      · exact ⟨q, slot', getElem?_set_self hr, hstill⟩
      · rcases hnone call (List.mem_of_getElem? hj) with hd | hne
        · exact absurd hd hopen
        · exact absurd rfl hne
    · exact ⟨q, guard, by rw [State.setSlot, getElem?_set_ne hqr, hq], hlent⟩

theorem Shape.setReserve {s : State} (h : Shape s) {j : Nat} {call : Reserve}
    (hj : s.reserves[j]? = some call) {phase : ReservePhase} (hopen : call.phase ≠ .done)
    (hcharge : ∀ charge, phase = .charging charge →
      charge.Ok s (accountOf call.kind call.context)) :
    Shape (s.setReserve j call phase) where
  slots := by
    intro r slot hr
    have hs := h.slots r slot hr
    exact ⟨hs.backed, hs.known, hs.loans, hs.active, hs.bytes, hs.charging, hs.failing,
      hs.counted⟩
  unique := h.unique
  reserves := by
    intro i other hi
    rcases getElem?_set_some hi with ⟨rfl, rfl⟩ | ⟨-, hi⟩
    · exact ⟨fun _ => (h.reserves _ call hj).guard hopen, hcharge⟩
    · exact ⟨(h.reserves i other hi).guard, (h.reserves i other hi).charging⟩

theorem Tables.setSlot {s : State} (t : Tables s) (r : Nat) (slot : Slot) :
    Tables (s.setSlot r slot) :=
  ⟨t.memory_le, t.temporary_le, t.unwrapped, t.freed, t.credits⟩

theorem Tables.setReserve {s : State} (t : Tables s) (j : Nat) (call : Reserve)
    (phase : ReservePhase) : Tables (s.setReserve j call phase) :=
  ⟨t.memory_le, t.temporary_le, t.unwrapped, t.freed, t.credits⟩

section Entries
variable {s : State}

theorem Quiet.setCredit {c : Nat} {credit credit' : MemoryCredit}
    (hc : s.credits[c]? = some credit) (hb : credit'.backing = credit.backing)
    (hs : 0 < credit'.strong → 0 < credit.strong) :
    Quiet s { s with credits := s.credits.set c credit' } where
  slots := rfl
  reserves := rfl
  limits := rfl
  length := rfl
  backingBytes := fun _ => rfl
  creditBacking := by
    intro d
    by_cases hd : d = c
    · subst hd
      simp only [State.creditBacking, getElem?_set_self hc, hc, Option.map_some, hb]
    · simp only [State.creditBacking, getElem?_set_ne hd]
  creditStrong := by
    intro d hd
    simp only [State.creditStrong, elim_set hc] at hd ⊢
    split at hd
    · rename_i h
      subst h
      simpa only [hc, Option.elim_some] using hs hd
    · exact hd

theorem Quiet.setBacking {b : Nat} {backing backing' : MemoryBacking}
    (hb : s.backings[b]? = some backing) (hbytes : backing'.bytes = backing.bytes) :
    Quiet s { s with backings := s.backings.set b backing' } where
  slots := rfl
  reserves := rfl
  limits := rfl
  length := List.length_set
  backingBytes := by
    intro d
    simp only [State.backingBytes, elim_set hb]
    split
    · rename_i h
      subst h
      simp only [hb, Option.elim_some, hbytes]
    · rfl
  creditBacking := fun _ => rfl
  creditStrong := fun _ h => h

theorem Tables.setCredit (t : Tables s) {c : Nat} {credit credit' : MemoryCredit}
    (hc : s.credits[c]? = some credit) (hb : credit'.backing = credit.backing)
    (hs : 0 < credit'.strong → 0 < credit.strong)
    (hbytes : 0 < credit'.strong → credit'.bytes ≤ s.backingBytes credit.backing) :
    Tables { s with credits := s.credits.set c credit' } where
  memory_le := t.memory_le
  temporary_le := t.temporary_le
  unwrapped := t.unwrapped
  freed := t.freed
  credits := by
    intro d b hd
    have q := Quiet.setCredit hc hb hs
    rw [q.creditBacking] at hd
    refine ⟨(t.credits d b hd).1, fun hlive => ?_⟩
    have hle := (t.credits d b hd).2 (q.creditStrong d hlive)
    by_cases hdc : d = c
    · subst hdc
      simp only [State.creditBacking, hc, Option.map_some, Option.some.injEq] at hd
      simp only [State.creditStrong, State.creditBytes, elim_set hc, ↓reduceIte] at hlive ⊢
      rw [← hd]
      exact hbytes hlive
    · have hsame : { s with credits := s.credits.set c credit' : State }.creditBytes d =
          s.creditBytes d := by
        simp only [State.creditBytes, elim_set hc, hdc, ↓reduceIte]
      rw [hsame]
      exact hle

theorem Tables.setBacking (t : Tables s) {b : Nat} {backing backing' : MemoryBacking}
    (hb : s.backings[b]? = some backing) (hbytes : backing'.bytes = backing.bytes)
    (hfreed : backing'.freed → backing'.strong = 0) :
    Tables { s with backings := s.backings.set b backing' } where
  memory_le := t.memory_le
  temporary_le := t.temporary_le
  unwrapped := t.unwrapped
  freed := by
    intro d other hd hf
    rcases getElem?_set_some hd with ⟨rfl, rfl⟩ | ⟨-, hd⟩
    · exact hfreed hf
    · exact t.freed d other hd hf
  credits := by
    intro c d hd
    have q := Quiet.setBacking hb hbytes
    have hc := t.credits c d hd
    refine ⟨?_, fun hlive => ?_⟩
    · rw [q.length]
      exact hc.1
    · rw [q.backingBytes]
      exact hc.2 hlive

end Entries

/-! ## What each operation does to the tables -/

/-- The account is open: if it belongs to a credit, the credit is alive. -/
def Live (s : State) (account : Account) : Prop :=
  ∀ c, account = .credit c → 0 < s.creditStrong c

theorem credit_of_strong {s : State} {c : Nat} (h : 0 < s.creditStrong c) :
    ∃ credit, s.credits[c]? = some credit ∧ 0 < credit.strong := by
  cases hc : s.credits[c]? with
  | none => simp [State.creditStrong, hc] at h
  | some credit =>
    simp only [State.creditStrong, hc, Option.elim_some] at h
    exact ⟨credit, rfl, h⟩

section Operations
variable {s : State} {h : Item → Nat}

/-- The backing of a live credit is charged to the pool, so what a credit may
spend fits the pool's limit. -/
theorem Balance.backing_le (hb : Balance s h) (t : Tables s) {b : Nat} {backing : MemoryBacking}
    (hbb : s.backings[b]? = some backing) (hlive : 0 < backing.strong) :
    backing.bytes ≤ s.memoryBytes := by
  have hopen : backing.freed = false := by
    cases hf : backing.freed with
    | false => rfl
    | true =>
      have := t.freed b backing hbb hf
      omega
  have hx := hb (.bytes .memory)
  have hle := le_total (w := MemoryBacking.held (.bytes .memory)) hbb
  simp only [MemoryBacking.held, hopen, Bool.false_eq_true, ↓reduceIte, only_self] at hle
  simp only [State.supply, State.counter, State.held] at hx
  omega

theorem Balance.credit_backing (hb : Balance s h) {c : Nat} {credit : MemoryCredit}
    (hc : s.credits[c]? = some credit) (hlive : 0 < credit.strong) :
    ∃ backing, s.backings[credit.backing]? = some backing ∧ 0 < backing.strong := by
  have hx := hb (.backingRef credit.backing)
  have hle := le_total (w := MemoryCredit.held (.backingRef credit.backing)) hc
  have hone : MemoryCredit.held (.backingRef credit.backing) credit = 1 := by
    simp [MemoryCredit.held, hlive]
  simp only [State.supply, State.backingStrong, State.held] at hx
  cases hbb : s.backings[credit.backing]? with
  | none =>
    simp only [hbb, Option.elim_none] at hx
    omega
  | some backing =>
    simp only [hbb, Option.elim_some] at hx
    exact ⟨backing, rfl, by omega⟩

theorem Balance.counter_lt (hb : Balance s h) (t : Tables s) {account : Account}
    (hlive : Live s account) : s.counter account < u64Modulus := by
  have hm := t.memory_le
  have hml := s.limits.memory_lt
  cases account with
  | memory =>
    simp only [State.counter]
    omega
  | temporary =>
    have ht := t.temporary_le
    have htl := s.limits.temporary_lt
    simp only [State.counter]
    omega
  | credit c =>
    obtain ⟨credit, hc, hpos⟩ := credit_of_strong (hlive c rfl)
    obtain ⟨backing, hbb, hbs⟩ := hb.credit_backing hc hpos
    have hle := hb.backing_le t hbb hbs
    have hcb : s.creditBacking c = some credit.backing := by simp [State.creditBacking, hc]
    have hbound := (t.credits c _ hcb).2 (hlive c rfl)
    simp only [State.backingBytes, hbb, Option.elim_some] at hbound
    simp only [State.counter]
    omega

/-- The counters that a charge or its release may write. -/
theorem setCounter_tables (t : Tables s) {account : Account} (hlive : Live s account) {n : Nat}
    (hn : n ≤ s.limit account) :
    Quiet s (s.setCounter account n) ∧ Tables (s.setCounter account n) := by
  cases account with
  | memory =>
    exact ⟨⟨rfl, rfl, rfl, rfl, fun _ => rfl, fun _ => rfl, fun _ h => h⟩,
      ⟨hn, t.temporary_le, t.unwrapped, t.freed, t.credits⟩⟩
  | temporary =>
    exact ⟨⟨rfl, rfl, rfl, rfl, fun _ => rfl, fun _ => rfl, fun _ h => h⟩,
      ⟨t.memory_le, hn, t.unwrapped, t.freed, t.credits⟩⟩
  | credit c =>
    obtain ⟨credit, hc, hpos⟩ := credit_of_strong (hlive c rfl)
    simp only [State.setCounter, hc]
    simp only [State.limit, State.creditBacking, hc, Option.map_some, Option.elim_some] at hn
    exact ⟨Quiet.setCredit hc rfl fun h => h, t.setCredit hc rfl (fun h => h) fun _ => hn⟩

/-- A counter never shows more than its limit. -/
theorem counter_le_limit (t : Tables s) {account : Account} (hlive : Live s account) :
    s.counter account ≤ s.limit account := by
  cases account with
  | memory => exact t.memory_le
  | temporary => exact t.temporary_le
  | credit c =>
    obtain ⟨credit, hc, hpos⟩ := credit_of_strong (hlive c rfl)
    have hcb : s.creditBacking c = some credit.backing := by simp [State.creditBacking, hc]
    have hbound := (t.credits c _ hcb).2 (hlive c rfl)
    simpa only [State.counter, State.limit, hcb, Option.elim_some] using hbound

theorem subCounter_spec (t : Tables s) {account : Account} {n : Nat} (hlive : Live s account)
    (hb : Balance s fun x => h x + only (.bytes account) n x) :
    Quiet s (s.subCounter account n) ∧ Tables (s.subCounter account n) ∧
      Balance (s.subCounter account n) h := by
  have hlt := hb.counter_lt t hlive
  obtain ⟨hbal, hwrapped, -⟩ := hb.subCounter hlt
  have hle : n ≤ s.counter account := by
    have := hb.hand_le (.bytes account)
    simp only [only_self, State.supply] at this
    omega
  have hbound := counter_le_limit t hlive
  obtain ⟨q, t'⟩ := setCounter_tables t hlive
    (n := fetchSub (s.counter account) n) (by rw [fetchSub_of_le hle hlt]; omega)
  exact ⟨⟨q.slots, q.reserves, q.limits, q.length, q.backingBytes, q.creditBacking,
    q.creditStrong⟩, ⟨t'.memory_le, t'.temporary_le, hwrapped.trans t.unwrapped, t'.freed,
    t'.credits⟩, hbal⟩

theorem upgrade_some (t : Tables s) (hb : Balance s h) {r : ResourceReservation} {s' : State}
    {c : Nat} (hu : upgrade s r = some (s', c)) :
    r.activeMemoryCredit = some c ∧ Quiet s s' ∧ Tables s' ∧
      Balance s' fun x => h x + only (.creditRef c) 1 x := by
  unfold upgrade at hu
  split at hu
  · cases hu
  · rename_i d ha
    split at hu
    · rename_i credit hc
      split at hu
      · rename_i hpos
        obtain ⟨rfl, rfl⟩ := Prod.mk.inj (Option.some.inj hu)
        have hcb : s.creditBacking d = some credit.backing := by simp [State.creditBacking, hc]
        have hstrong : 0 < s.creditStrong d := by simpa [State.creditStrong, hc] using hpos
        refine ⟨ha, Quiet.setCredit hc rfl fun _ => hpos, t.setCredit hc rfl (fun _ => hpos) ?_,
          hb.cloneCredit hc hpos⟩
        intro _
        have hle := (t.credits d _ hcb).2 hstrong
        simpa [State.creditBytes, hc] using hle
      · cases hu
    · cases hu

theorem upgrade_none {r : ResourceReservation} (hu : upgrade s r = none) {c : Nat}
    (ha : r.activeMemoryCredit = some c) : s.creditStrong c = 0 := by
  simp only [upgrade, ha] at hu
  split at hu
  · rename_i credit hc
    split at hu
    · cases hu
    · simp only [State.creditStrong, hc, Option.elim_some]
      omega
  · rename_i hc
    simp [State.creditStrong, hc]

/-- A step of a charge puts the amount on the counter at most once, and only
within the limit. -/
theorem chargeStep_spec (t : Tables s) (hb : Balance s h) {kind : ResourceKind}
    {context : Context} {n : Nat} {charge : Charge} {out : State × Option Charge}
    (hlive : Live s (accountOf kind context)) (hok : charge.Ok s (accountOf kind context))
    (hstep : chargeStep s kind context n charge = .ok out) :
    Quiet s out.1 ∧ Tables out.1 ∧
      (∀ charge', out.2 = some charge' → charge'.Ok out.1 (accountOf kind context)) ∧
      ∃ d : Item → Nat, Balance out.1 (fun x => h x + d x) ∧ ∀ x,
        charge.held (accountOf kind context) n x + d x =
          out.2.elim (only (.bytes (accountOf kind context)) n)
            (·.held (accountOf kind context) n) x := by
  cases charge with
  | account =>
    obtain rfl := Except.ok.inj hstep
    refine ⟨Quiet.refl s, t, ?_, fun _ => 0, hb, fun _ => rfl⟩
    intro charge' hc
    obtain rfl := Option.some.inj hc
    exact ⟨rfl, rfl⟩
  | charge counter limit =>
    obtain ⟨rfl, rfl⟩ := hok
    simp only [chargeStep, checkedCharge] at hstep
    split at hstep
    · cases hstep
    · rename_i s' hs
      split at hs
      · rename_i hfit
        obtain rfl := Except.ok.inj hs
        obtain ⟨q, t'⟩ := setCounter_tables t hlive hfit.2
        have hopen : ∀ c, accountOf kind context = .credit c → (s.credits[c]?).isSome := by
          intro c hc
          obtain ⟨credit, hcredit, -⟩ := credit_of_strong (hlive c hc)
          simp [hcredit]
        have hbal := hb.charge (n := n) hopen
        split at hstep
        · obtain rfl := Except.ok.inj hstep
          exact ⟨q, t', by simp, _, hbal, fun x => by simp [Charge.held]⟩
        · obtain rfl := Except.ok.inj hstep
          refine ⟨q, t', ?_, _, hbal, fun x => by simp [Charge.held]⟩
          intro charge' hc
          obtain rfl := Option.some.inj hc
          rfl
      · cases hs
  | peak counter current =>
    obtain rfl := Except.ok.inj hstep
    have hsupply : ∀ x, (s.raisePeak counter current).supply x = s.supply x := by
      intro x
      cases counter <;> cases x with
      | bytes a => cases a <;> rfl
      | _ => rfl
    have hheld : ∀ x, (s.raisePeak counter current).held x = s.held x := by
      intro x
      cases counter <;> rfl
    refine ⟨?_, ?_, by simp, fun _ => 0, fun x => ?_, fun x => rfl⟩
    · cases counter <;> exact ⟨rfl, rfl, rfl, rfl, fun _ => rfl, fun _ => rfl, fun _ h => h⟩
    · cases counter <;>
        exact ⟨t.memory_le, t.temporary_le, t.unwrapped, t.freed, t.credits⟩
    · rw [hsupply, hheld]
      exact hb x

theorem releaseStep_spec (t : Tables s) {x : Release}
    (hb : Balance s fun y => h y + x.held y) :
    Quiet s (releaseStep s x).1 ∧ Tables (releaseStep s x).1 ∧
      Balance (releaseStep s x).1 fun y => h y + todoHeld (releaseStep s x).2 y := by
  cases x with
  | credit c =>
    cases hc : s.credits[c]? with
    | none =>
      have hle := hb.hand_le (.creditRef c)
      simp [Release.held, State.supply, State.creditStrong, hc] at hle
    | some credit =>
      obtain ⟨hlive, hbal⟩ := Balance.releaseCredit hb hc
      have hcb : s.creditBacking c = some credit.backing := by simp [State.creditBacking, hc]
      have hstrong : 0 < s.creditStrong c := by simpa [State.creditStrong, hc] using hlive
      have hle := (t.credits c _ hcb).2 hstrong
      simp only [State.creditBytes, hc, Option.elim_some] at hle
      simp only [releaseStep, hc]
      exact ⟨Quiet.setCredit hc rfl fun _ => hlive,
        t.setCredit hc rfl (fun _ => hlive) fun _ => hle, hbal⟩
  | backing b =>
    cases hbb : s.backings[b]? with
    | none =>
      have hle := hb.hand_le (.backingRef b)
      simp [Release.held, State.supply, State.backingStrong, hbb] at hle
    | some backing =>
      obtain ⟨-, hbal⟩ := Balance.releaseBacking hb hbb (t.freed b backing hbb)
      simp only [releaseStep, hbb]
      refine ⟨Quiet.setBacking hbb rfl, t.setBacking hbb rfl fun hf => ?_, hbal⟩
      have := t.freed b backing hbb hf
      simp only
      omega
  | load b =>
    cases hbb : s.backings[b]? with
    | none =>
      have hle := hb.hand_le (.duty b)
      simp [Release.held, State.supply, hbb] at hle
    | some backing =>
      obtain ⟨hduty, hbal⟩ := Balance.releaseLoad hb hbb
      simp only [releaseStep, hbb]
      exact ⟨Quiet.setBacking hbb rfl, t.setBacking hbb rfl fun _ => hduty.1, hbal⟩
  | sub n =>
    have hopen : Live s .memory := fun c hc => by cases hc
    obtain ⟨q, t', hbal⟩ := subCounter_spec t hopen hb
    exact ⟨q, t', hbal.congr fun y => by simp [releaseStep]⟩

end Operations

/-! ## Operations on the books -/

section Books
variable {s : State} {h h' : Item → Nat}

theorem Books.congr (hs : Books s h) (hx : ∀ x, h x = h' x) : Books s h' :=
  ⟨hs.tables, hs.shape, hs.balance.congr hx⟩

theorem Books.release {x : Release} (hs : Books s fun y => h y + x.held y) :
    Books (releaseStep s x).1 fun y => h y + todoHeld (releaseStep s x).2 y := by
  obtain ⟨q, t, hb⟩ := releaseStep_spec hs.tables hs.balance
  exact ⟨t, hs.shape.quiet q, hb⟩

theorem Books.sub {account : Account} {n : Nat} (hlive : Live s account)
    (hs : Books s fun x => h x + only (.bytes account) n x) :
    Books (s.subCounter account n) h := by
  obtain ⟨q, t, hb⟩ := subCounter_spec hs.tables hlive hs.balance
  exact ⟨t, hs.shape.quiet q, hb⟩

/-- The recorded fields and the number of contexts are in nobody's books. -/
theorem Books.records (hs : Books s h) (shareds : Nat) (touched : Caller → Bool)
    (finished : List (Outcome × Bool)) :
    Books { s with shareds := shareds, touched := touched, finished := finished } h where
  tables := ⟨hs.tables.memory_le, hs.tables.temporary_le, hs.tables.unwrapped, hs.tables.freed,
    hs.tables.credits⟩
  shape := by
    have q : Quiet s { s with shareds := shareds, touched := touched, finished := finished } :=
      ⟨rfl, rfl, rfl, rfl, fun _ => rfl, fun _ => rfl, fun _ h => h⟩
    exact hs.shape.quiet q
  balance := by
    intro x
    have hx := hs.balance x
    cases x with
    | bytes a => cases a <;> exact hx
    | _ => exact hx

/-- What a reservation holds while its fields are alive keeps its account open. -/
theorem Books.live (hs : Books s h) {r : Nat} {slot : Slot} (hr : s.slots[r]? = some slot)
    (ho : slot.phase.owned) : Live s slot.reservation.account := by
  intro c hc
  have hcredit : slot.reservation.context.credit = some c := by
    simp only [ResourceReservation.account, accountOf] at hc
    split at hc
    · cases hc
    · cases hc
    · rename_i d hd
      rw [hd, Account.credit.inj hc]
  have hx := hs.balance (.creditRef c)
  have hle := le_total (w := Slot.held (.creditRef c)) hr
  have hone : 1 ≤ Slot.held (.creditRef c) slot := by
    simp only [Slot.held, ho, ↓reduceIte, ResourceReservation.held, hcredit, Option.elim_some,
      only_self]
    omega
  simp only [State.supply, State.held] at hx
  omega

/-- A guard keeps its credit alive. -/
theorem Books.live_of_lent (hs : Books s h) {r : Nat} {slot : Slot} {context : Context}
    (hr : s.slots[r]? = some slot) (hp : slot.phase = .lent context) (kind : ResourceKind) :
    Live s (accountOf kind context) := by
  intro c hc
  have hcredit : context.credit = some c := by
    simp only [accountOf] at hc
    split at hc
    · cases hc
    · cases hc
    · rename_i d hd
      rw [hd, Account.credit.inj hc]
  have hx := hs.balance (.creditRef c)
  have hle := le_total (w := Slot.held (.creditRef c)) hr
  have hone : 1 ≤ Slot.held (.creditRef c) slot := by
    simp only [Slot.held, hp, Phase.held, hcredit, Option.elim_some, only_self]
    omega
  simp only [State.supply, State.held] at hx
  omega

/-- The slot of a call moves to its next phase. -/
theorem Books.setPhase (hs : Books s h) {r : Nat} {slot : Slot} (hr : s.slots[r]? = some slot)
    {p : Phase} (hheld : ∀ x, slot.held x + h x = { slot with phase := p : Slot }.held x + h' x)
    (hown : p.owned → slot.phase.owned)
    (hflow : p.owned → p.gained = slot.phase.gained ∧ p.lost = slot.phase.lost)
    (hex : p.exclusive → slot.phase.exclusive ∨
      ∀ c, slot.reservation.activeMemoryCredit = some c → s.creditStrong c = 0)
    (hcharge : ∀ n charge, p = .grow n charge → charge.Ok s slot.reservation.account)
    (hfail : ∀ e todo, p = .failing e todo →
      failingTodo s slot.reservation.globalMemoryBacking todo)
    (hcounted : p = .dropCounter → slot.reservation.globalMemoryBacking = none)
    (hguard : ∀ context, slot.phase = .lent context →
      ∀ call ∈ s.reserves, call.phase = .done ∨ call.context.credit ≠ context.credit) :
    Books (s.setSlot r { slot with phase := p }) h' := by
  have hinv := hs.shape.slots r slot hr
  refine ⟨hs.tables.setSlot r _, hs.shape.setSlot hr rfl ?_ fun context hp =>
    Or.inr (hguard context hp), hs.balance.setSlot hr hheld⟩
  refine ⟨hinv.backed, hinv.known, ?_, hinv.active, ?_, hcharge, hfail, hcounted⟩
  · intro b c ho hb hc hlive
    obtain ⟨ha, hexcl⟩ := hinv.loans b c (hown ho) hb hc hlive
    refine ⟨ha, ?_⟩
    cases hp : p.exclusive with
    | false => rfl
    | true =>
      rcases hex hp with hex | hdead
      · rw [hexcl] at hex
        cases hex
      · have := hdead c ha
        omega
  · intro b ho hb
    obtain ⟨hg, hl⟩ := hflow ho
    have hbytes := hinv.bytes b (hown ho) hb
    simp only [hg, hl]
    exact hbytes

/-- The next phase holds what the last one held and what the step has taken. -/
theorem Slot.held_next {slot : Slot} {p : Phase} {x : Item} {n : Nat}
    (ho : slot.phase.owned) (hp : p.owned)
    (hx : slot.phase.held slot.reservation.account x + n =
      p.held slot.reservation.account x) :
    slot.held x + n = { slot with phase := p : Slot }.held x := by
  simp only [Slot.held, ho, hp, ↓reduceIte]
  omega

theorem counter_setSlot (account : Account) (r : Nat) (slot : Slot) :
    (s.setSlot r slot).counter account = s.counter account := by
  cases account <;> rfl

theorem setCounter_setSlot (account : Account) (n r : Nat) (slot : Slot) :
    (s.setSlot r slot).setCounter account n = (s.setCounter account n).setSlot r slot := by
  cases account with
  | credit c =>
    simp only [State.setCounter, State.setSlot]
    cases s.credits[c]? <;> rfl
  | _ => rfl

theorem subCounter_setSlot (account : Account) (n r : Nat) (slot : Slot) :
    (s.setSlot r slot).subCounter account n = (s.subCounter account n).setSlot r slot := by
  simp only [State.subCounter, counter_setSlot, setCounter_setSlot]
  rfl

/-- The step writes no slot, no call and no limit. -/
structure Frame (s s' : State) : Prop where
  slots : s'.slots = s.slots
  reserves : s'.reserves = s.reserves
  limits : s'.limits = s.limits

theorem setCounter_frame (account : Account) (n : Nat) : Frame s (s.setCounter account n) := by
  cases account with
  | credit c =>
    simp only [State.setCounter]
    cases s.credits[c]? <;> exact ⟨rfl, rfl, rfl⟩
  | _ => exact ⟨rfl, rfl, rfl⟩

theorem subCounter_frame (account : Account) (n : Nat) : Frame s (s.subCounter account n) := by
  have hf := setCounter_frame (s := s) account (fetchSub (s.counter account) n)
  refine ⟨?_, ?_, ?_⟩
  · simp only [State.subCounter, hf.slots]
  · simp only [State.subCounter, hf.reserves]
  · simp only [State.subCounter, hf.limits]

theorem releaseStep_frame (x : Release) : Frame s (releaseStep s x).1 := by
  cases x with
  | credit c =>
    simp only [releaseStep]
    cases s.credits[c]? <;> exact ⟨rfl, rfl, rfl⟩
  | backing b =>
    simp only [releaseStep]
    cases s.backings[b]? <;> exact ⟨rfl, rfl, rfl⟩
  | load b =>
    simp only [releaseStep]
    cases s.backings[b]? <;> exact ⟨rfl, rfl, rfl⟩
  | sub n => exact subCounter_frame .memory n

theorem upgrade_frame {res : ResourceReservation} {s' : State} {c : Nat}
    (hu : upgrade s res = some (s', c)) : Frame s s' := by
  simp only [upgrade] at hu
  split at hu
  · cases hu
  · split at hu
    · split at hu
      · obtain ⟨rfl, -⟩ := Prod.mk.inj (Option.some.inj hu)
        exact ⟨rfl, rfl, rfl⟩
      · cases hu
    · cases hu

theorem chargeStep_frame {kind : ResourceKind} {context : Context} {n : Nat} {charge : Charge}
    {out : State × Option Charge} (hstep : chargeStep s kind context n charge = .ok out) :
    Frame s out.1 := by
  cases charge with
  | account =>
    obtain rfl := Except.ok.inj hstep
    exact ⟨rfl, rfl, rfl⟩
  | charge counter limit =>
    simp only [chargeStep, checkedCharge] at hstep
    split at hstep
    · cases hstep
    · rename_i s' hs
      split at hs
      · obtain rfl := Except.ok.inj hs
        have hf := setCounter_frame (s := s) counter (s.counter counter + n)
        split at hstep <;> obtain rfl := Except.ok.inj hstep <;> exact hf
      · cases hs
  | peak counter current =>
    obtain rfl := Except.ok.inj hstep
    cases counter <;> exact ⟨rfl, rfl, rfl⟩

theorem releaseStep_setSlot (x : Release) (r : Nat) (slot : Slot) :
    releaseStep (s.setSlot r slot) x =
      ((releaseStep s x).1.setSlot r slot, (releaseStep s x).2) := by
  cases x with
  | credit c =>
    simp only [releaseStep, State.setSlot]
    cases s.credits[c]? <;> rfl
  | backing b =>
    simp only [releaseStep, State.setSlot]
    cases s.backings[b]? <;> rfl
  | load b =>
    simp only [releaseStep, State.setSlot]
    cases s.backings[b]? <;> rfl
  | sub n => simp only [releaseStep, subCounter_setSlot]

@[simp] theorem setSlot_setSlot (r : Nat) (slot slot' : Slot) :
    (s.setSlot r slot).setSlot r slot' = s.setSlot r slot' := by
  simp [State.setSlot]

end Books

end IntoMarkdown.Core.Memory
