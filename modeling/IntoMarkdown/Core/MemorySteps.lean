import IntoMarkdown.Core.MemorySafety

/-! # Every step keeps the books of the memory pool

One lemma for each phase of a call on a reservation, then the `reserve` calls,
and the invariant of every run. -/

namespace IntoMarkdown.Core.Memory
open Transition Slots Progress

/-! ## The steps of a call on a slot -/

section SlotSteps
variable {s : State} {r : Nat} {slot : Slot}

/-- A step that only moves the call to its next phase. -/
theorem Invariant.move (hi : Invariant s) (hr : s.slots[r]? = some slot) {p : Phase}
    (hheld : ∀ x, slot.phase.held slot.reservation.account x = p.held slot.reservation.account x)
    (ho : slot.phase.owned) (hp : p.owned)
    (hflow : p.gained = slot.phase.gained ∧ p.lost = slot.phase.lost)
    (hex : p.exclusive → slot.phase.exclusive ∨
      ∀ c, slot.reservation.activeMemoryCredit = some c → s.creditStrong c = 0)
    (hcharge : ∀ n charge, p = .grow n charge → charge.Ok s slot.reservation.account)
    (hfail : ∀ e todo, p = .failing e todo →
      failingTodo s slot.reservation.globalMemoryBacking todo)
    (hcounted : p ≠ .dropCounter) (hlent : ∀ context, slot.phase ≠ .lent context) :
    Invariant (s.setSlot r { slot with phase := p }) :=
  Books.setPhase hi hr (fun x => Slot.held_next ho hp (by rw [hheld x]; rfl)) (fun _ => ho)
    (fun _ => hflow) hex hcharge hfail (fun h => absurd h hcounted)
    fun context h => absurd h (hlent context)

/-- A call that ends without having taken anything. -/
theorem Invariant.finish (hi : Invariant s) (hr : s.slots[r]? = some slot)
    (hheld : ∀ x, slot.phase.held slot.reservation.account x = 0) (ho : slot.phase.owned)
    (hflow : slot.phase.gained = 0 ∧ slot.phase.lost = 0)
    (hlent : ∀ context, slot.phase ≠ .lent context) :
    Invariant (s.setSlot r { slot with phase := .idle }) :=
  hi.move hr hheld ho rfl ⟨hflow.1.symm, hflow.2.symm⟩ (fun h => by cases h) (by simp) (by simp)
    (by simp) hlent

/-- The upgrade of a `Weak` that is alive: the call fails and drops the `Arc`. -/
theorem Invariant.upgraded (hi : Invariant s) (hr : s.slots[r]? = some slot) {s' : State}
    {c : Nat} (e : ConversionError) (hu : upgrade s slot.reservation = some (s', c))
    (hheld : ∀ x, slot.phase.held slot.reservation.account x = 0) (ho : slot.phase.owned)
    (hflow : slot.phase.gained = 0 ∧ slot.phase.lost = 0)
    (hlent : ∀ context, slot.phase ≠ .lent context) :
    Invariant (s'.setSlot r { slot with phase := .failing e [.credit c] }) := by
  obtain ⟨ha, q, t, hb⟩ := upgrade_some hi.tables hi.balance hu
  have hs : Books s' _ := ⟨t, hi.shape.quiet q, hb⟩
  refine hs.setPhase (by rw [q.slots, hr]) ?_ (fun _ => ho)
    (fun _ => ⟨hflow.1.symm, hflow.2.symm⟩) (fun h => by cases h) (by simp) ?_ (by simp)
    fun context h => absurd h (hlent context)
  · intro x
    refine (Slot.held_next ho rfl ?_).trans (Nat.add_zero _).symm
    rw [hheld x]
    simp [Phase.held, Release.held]
  · intro e' todo hp
    obtain ⟨-, rfl⟩ := Phase.failing.inj hp
    obtain ⟨b, hgb, hcb⟩ := (hi.shape.slots r slot hr).active c ha
    exact Or.inr (Or.inl ⟨b, c, hgb, by rw [q.creditBacking, hcb], rfl⟩)

/-- One release of a drop, in any of the phases that carry a list of them. -/
theorem Invariant.releaseNext (hi : Invariant s) (hr : s.slots[r]? = some slot)
    {x : Release} {rest : List Release} (phase : List Release → Phase)
    (hp : slot.phase = phase (x :: rest))
    (hheld : ∀ todo, (phase todo).held slot.reservation.account = todoHeld todo)
    (howned : ∀ todo, (phase todo).owned = slot.phase.owned)
    (hquiet : ∀ todo, (phase todo).exclusive = false ∧ (phase todo).gained = 0 ∧
      (phase todo).lost = 0 ∧ phase todo ≠ .dropCounter)
    (hcharge : ∀ todo n charge, phase todo ≠ .grow n charge)
    (hlent : ∀ todo context, phase todo ≠ .lent context)
    (hfail : ∀ e todo, phase rest = .failing e todo →
      failingTodo s slot.reservation.globalMemoryBacking todo)
    (hfail' : ∀ e todo, phase ((releaseStep s x).2 ++ rest) = .failing e todo →
      failingTodo s slot.reservation.globalMemoryBacking todo) :
    Invariant ((releaseStep s x).1.setSlot r
      { slot with phase := phase ((releaseStep s x).2 ++ rest) }) := by
  have hflow : slot.phase.gained = 0 ∧ slot.phase.lost = 0 := by
    rw [hp]
    exact ⟨(hquiet _).2.1, (hquiet _).2.2.1⟩
  -- the release leaves the list and is in hand
  have htaken : Books (s.setSlot r { slot with phase := phase rest }) x.held := by
    refine Books.setPhase hi hr ?_ (fun h => by rw [howned] at h; exact h)
      (fun _ => ⟨(hquiet _).2.1.trans hflow.1.symm, (hquiet _).2.2.1.trans hflow.2.symm⟩)
      (fun h => by rw [(hquiet _).1] at h; cases h)
      (fun n charge h => absurd h (hcharge _ n charge)) hfail
      (fun h => absurd h (hquiet _).2.2.2) fun context h => absurd (hp.symm.trans h) (hlent _ _)
    intro y
    simp only [Slot.held, howned, hheld, hp, todoHeld_cons]
    omega
  have hq : Quiet s (releaseStep s x).1 := by
    have hbal : Balance (s.setSlot r { slot with phase := phase rest })
        (fun y => 0 + x.held y) := htaken.balance.congr fun y => (Nat.zero_add _).symm
    obtain ⟨q, -, -⟩ := releaseStep_spec htaken.tables hbal
    rw [releaseStep_setSlot] at q
    exact ⟨(releaseStep_frame x).slots, q.reserves, q.limits, q.length, q.backingBytes,
      q.creditBacking, q.creditStrong⟩
  have hreleased := Books.release (h := fun _ => 0) (htaken.congr fun y => (Nat.zero_add _).symm)
  rw [releaseStep_setSlot] at hreleased
  have hr' : ((releaseStep s x).1.setSlot r { slot with phase := phase rest }).slots[r]? =
      some { slot with phase := phase rest } := by
    refine getElem?_set_self (x := slot) ?_
    rw [hq.slots, hr]
  have hput : Books _ fun _ => 0 := hreleased.setPhase hr'
    (p := phase ((releaseStep s x).2 ++ rest)) ?_ (fun h => by rw [howned] at h ⊢; exact h)
    (fun _ => ⟨(hquiet _).2.1.trans (hquiet _).2.1.symm,
      (hquiet _).2.2.1.trans (hquiet _).2.2.1.symm⟩)
    (fun h => by rw [(hquiet _).1] at h; cases h)
    (fun n charge h => absurd h (hcharge _ n charge)) ?_
    (fun h => absurd h (hquiet _).2.2.2) ?_
  · rw [setSlot_setSlot] at hput
    exact hput
  · intro y
    simp only [Slot.held, howned, hheld, todoHeld_append]
    omega
  · intro e todo h
    have hf := hfail' e todo h
    have hsame : ∀ c, ((releaseStep s x).1.setSlot r
        { slot with phase := phase rest }).creditBacking c = s.creditBacking c :=
      hq.creditBacking
    simpa only [failingTodo, hsame] using hf
  · exact fun context h => absurd h (hlent _ _)

theorem Invariant.charge (hi : Invariant s) (hr : s.slots[r]? = some slot) {n : Nat}
    {charge : Charge} (hp : slot.phase = .grow n charge) {out : State × Option Charge}
    (hstep : chargeStep s slot.reservation.kind slot.reservation.context n charge = .ok out) :
    Invariant (out.1.setSlot r { slot with phase := out.2.elim (.growSettled n) (.grow n) }) := by
  have ho : slot.phase.owned := by rw [hp]; rfl
  have hok := (hi.shape.slots r slot hr).charging n charge hp
  obtain ⟨q, t, hnext, d, hb, hd⟩ :=
    chargeStep_spec hi.tables hi.balance (Books.live hi hr ho) hok hstep
  have hs : Books out.1 d := ⟨t, hi.shape.quiet q, hb.congr fun x => Nat.zero_add _⟩
  have hr' : out.1.slots[r]? = some slot := by rw [q.slots, hr]
  have hlent : ∀ context, slot.phase ≠ .lent context := by simp [hp]
  obtain ⟨s', next⟩ := out
  cases next with
  | none =>
    refine hs.setPhase hr' (fun x => ?_) (fun _ => ho) (fun _ => by rw [hp]; exact ⟨rfl, rfl⟩)
      (fun _ => Or.inl (by rw [hp]; rfl)) (by simp) (by simp) (by simp)
      fun context h => absurd h (hlent context)
    have hx := hd x
    refine (Slot.held_next ho rfl ?_).trans (Nat.add_zero _).symm
    rw [hp]
    exact hx
  | some charge' =>
    refine hs.setPhase hr' (fun x => ?_) (fun _ => ho) (fun _ => by rw [hp]; exact ⟨rfl, rfl⟩)
      (fun _ => Or.inl (by rw [hp]; rfl)) ?_ (by simp) (by simp)
      fun context h => absurd h (hlent context)
    · have hx := hd x
      refine (Slot.held_next ho rfl ?_).trans (Nat.add_zero _).symm
      rw [hp]
      exact hx
    · intro m c hc
      obtain ⟨rfl, rfl⟩ := Phase.grow.inj hc
      exact hnext _ rfl

theorem only_add (item : Item) (n m : Nat) (x : Item) :
    only item (n + m) x = only item n x + only item m x := by
  unfold only
  split <;> rfl

/-- A call gives the reservation another number of bytes. -/
theorem Invariant.resize (hi : Invariant s) (hr : s.slots[r]? = some slot) {bytes : Nat}
    {p : Phase} (ho : slot.phase.owned) (hp : p.owned)
    (hheld : ∀ x,
      (if slot.reservation.globalMemoryBacking = none
        then only (.bytes slot.reservation.account) slot.reservation.bytes x else 0) +
        slot.phase.held slot.reservation.account x =
      (if slot.reservation.globalMemoryBacking = none
        then only (.bytes slot.reservation.account) bytes x else 0) +
        p.held slot.reservation.account x)
    (hflow : ∀ b, slot.reservation.globalMemoryBacking = some b →
      slot.reservation.bytes + slot.phase.lost + p.gained = bytes + p.lost + slot.phase.gained)
    (hdead : slot.phase.exclusive ∨
      ∀ c, slot.reservation.activeMemoryCredit = some c → s.creditStrong c = 0)
    (hcharge : ∀ n charge, p ≠ .grow n charge) (hfail : ∀ e todo, p ≠ .failing e todo)
    (hcounted : p ≠ .dropCounter) (hlent : ∀ context, slot.phase ≠ .lent context) :
    Invariant (s.setSlot r
      { slot with reservation := { slot.reservation with bytes := bytes }, phase := p }) := by
  have hinv := hi.shape.slots r slot hr
  refine ⟨hi.tables.setSlot r _, hi.shape.setSlot hr rfl ?_
    fun context h => absurd h (hlent context), hi.balance.setSlot hr fun x => ?_⟩
  · refine ⟨hinv.backed, hinv.known, ?_, hinv.active, ?_, fun n charge h => absurd h (hcharge n _),
      fun e todo h => absurd h (hfail e todo), fun h => absurd h hcounted⟩
    · intro b c _ hb hc hlive
      obtain ⟨ha, hexcl⟩ := hinv.loans b c ho hb hc hlive
      rcases hdead with hex | hdead
      · rw [hexcl] at hex
        cases hex
      · have := hdead c ha
        omega
    · intro b _ hb
      have hbytes := hinv.bytes b ho hb
      have hf := hflow b hb
      simp only
      omega
  · have hx := hheld x
    simp only [Slot.held, ho, hp, ↓reduceIte, ResourceReservation.held]
    cases hg : slot.reservation.globalMemoryBacking with
    | none =>
      simp only [hg, ↓reduceIte] at hx
      simp only [ResourceReservation.account] at hx ⊢
      omega
    | some b =>
      simp only [hg, reduceCtorEq, ↓reduceIte] at hx
      simp only [ResourceReservation.account] at hx ⊢
      omega

theorem growSettled_invariant (hi : Invariant s) (hr : s.slots[r]? = some slot) {n : Nat}
    (hp : slot.phase = .growSettled n) {out : State × Option Outcome}
    {interrupted : Option Interruption} (h : slotStep s r slot interrupted = some out) :
    Invariant out.1 := by
  have ho : slot.phase.owned := by rw [hp]; rfl
  have hlent : ∀ context, slot.phase ≠ .lent context := by simp [hp]
  have hex : slot.phase.exclusive := by rw [hp]; rfl
  simp only [slotStep, hp] at h
  split at h
  · rename_i b hb
    obtain rfl := Option.some.inj h
    refine hi.resize hr ho rfl (fun x => ?_) ?_ (Or.inl hex) (by simp) (by simp) (by simp) hlent
    · simp [hb, hp, Phase.held]
    · simp [hp, Phase.lost, Phase.gained]
  · rename_i hb
    obtain rfl := Option.some.inj h
    refine hi.resize hr ho rfl (fun x => ?_) ?_ (Or.inl hex) (by simp) (by simp) (by simp) hlent
    · simp [hb, hp, Phase.held, only_add]
    · simp [hb]

theorem shrinkUpgrade_invariant (hi : Invariant s) (hr : s.slots[r]? = some slot) {n : Nat}
    (hp : slot.phase = .shrinkUpgrade n) {out : State × Option Outcome}
    {interrupted : Option Interruption} (h : slotStep s r slot interrupted = some out) :
    Invariant out.1 := by
  have ho : slot.phase.owned := by rw [hp]; rfl
  have hlent : ∀ context, slot.phase ≠ .lent context := by simp [hp]
  have hheld : ∀ x, slot.phase.held slot.reservation.account x = 0 := by simp [hp, Phase.held]
  have hflow : slot.phase.gained = 0 ∧ slot.phase.lost = 0 := by rw [hp]; exact ⟨rfl, rfl⟩
  simp only [slotStep, hp] at h
  split at h
  · rename_i s' c hu
    obtain rfl := Option.some.inj h
    exact hi.upgraded hr _ hu hheld ho hflow hlent
  · rename_i hu
    have hdead := fun c ha => upgrade_none hu (c := c) ha
    split at h
    · rename_i hle
      split at h
      · rename_i b hb
        obtain rfl := Option.some.inj h
        refine hi.resize hr ho rfl (fun x => ?_) ?_ (Or.inr hdead) (by simp) (by simp) (by simp)
          hlent
        · simp [hb, hp, Phase.held]
        · intro _ _
          rw [hp]
          simp only [Phase.gained, Phase.lost]
          omega
      · rename_i hb
        obtain rfl := Option.some.inj h
        refine hi.resize hr ho rfl (fun x => ?_) ?_ (Or.inr hdead) (by simp) (by simp) (by simp)
          hlent
        · rw [hheld x]
          simp only [hb, ↓reduceIte, Phase.held]
          rw [Nat.add_zero, ← only_add, Nat.sub_add_cancel hle]
        · simp [hb]
    · obtain rfl := Option.some.inj h
      exact hi.finish hr hheld ho hflow hlent

/-- What a reservation holds while its fields are alive keeps its backing open. -/
theorem Books.open_backing {h : Item → Nat} (hs : Books s h) (hr : s.slots[r]? = some slot)
    {b : Nat} {backing : MemoryBacking} (ho : slot.phase.owned)
    (hgb : slot.reservation.globalMemoryBacking = some b) (hb : s.backings[b]? = some backing) :
    slot.phase.held slot.reservation.account (.backingRef b) + 1 ≤ backing.strong ∧
      backing.freed = false := by
  have hx := hs.balance (.backingRef b)
  have hle := le_total (w := Slot.held (.backingRef b)) hr
  have hone : Slot.held (.backingRef b) slot =
      (slot.reservation.context.credit.elim 0 fun c => only (.creditRef c) 1 (.backingRef b)) + 1 +
        slot.phase.held slot.reservation.account (.backingRef b) := by
    simp only [Slot.held, ho, ↓reduceIte, ResourceReservation.held, hgb, only_self]
  simp only [State.supply, State.backingStrong, hb, Option.elim_some, State.held] at hx
  refine ⟨by omega, ?_⟩
  cases hf : backing.freed with
  | false => rfl
  | true =>
    have := hs.tables.freed b backing hb hf
    omega

/-- With the reservation in an exclusive phase, a live credit is on another backing. -/
theorem Books.other_backing {h : Item → Nat} (hs : Books s h) (hr : s.slots[r]? = some slot)
    {b c d : Nat} (ho : slot.phase.owned) (hexcl : slot.phase.exclusive)
    (hgb : slot.reservation.globalMemoryBacking = some b)
    (hc : s.creditBacking c = some d) (hlive : 0 < s.creditStrong c) : d ≠ b := by
  rintro rfl
  have := ((hs.shape.slots r slot hr).loans d c ho hgb hc hlive).2
  rw [hexcl] at this
  cases this

/-- The step resizes the backing of a reservation with no live credit. -/
theorem Invariant.resizeBacking (hi : Invariant s) (hr : s.slots[r]? = some slot)
    {b n : Nat} {backing : MemoryBacking} {p : Phase} {wrapped : Bool}
    (hgb : slot.reservation.globalMemoryBacking = some b)
    (hb : s.backings[b]? = some backing) (ho : slot.phase.owned) (hp : p.owned)
    (hexcl : slot.phase.exclusive) (hw : wrapped = false)
    (hheld : ∀ x, only (.bytes .memory) n x + p.held .memory x =
      only (.bytes .memory) backing.bytes x + slot.phase.held .memory x)
    (hflow : slot.reservation.bytes + p.lost = n + p.gained)
    (hcharge : ∀ n charge, p ≠ .grow n charge) (hfail : ∀ e todo, p ≠ .failing e todo)
    (hcounted : p ≠ .dropCounter) (hlent : ∀ context, slot.phase ≠ .lent context) :
    Invariant (State.setSlot { s with
      backings := s.backings.set b { backing with bytes := n }
      wrapped := wrapped } r { slot with phase := p }) := by
  have hinv := hi.shape.slots r slot hr
  have haccount : slot.reservation.account = .memory := hinv.backed.mp (by rw [hgb]; rfl)
  have hopen := (Books.open_backing hi hr ho hgb hb).2
  have hbytes : ∀ d, d ≠ b → ((s.backings.set b { backing with bytes := n })[d]?).elim 0
      (·.bytes) = s.backingBytes d := by
    intro d hd
    rw [elim_set hb, if_neg hd]
    rfl
  have hbyte : ((s.backings.set b { backing with bytes := n })[b]?).elim 0 (·.bytes) = n := by
    rw [elim_set hb, if_pos rfl]
  have hlimit : ∀ account, Live s account →
      State.limit { s with
        backings := s.backings.set b { backing with bytes := n }
        wrapped := wrapped } account = s.limit account := by
    intro account hlive
    cases account with
    | credit c =>
      obtain ⟨credit, hc, -⟩ := credit_of_strong (hlive c rfl)
      have hcb : s.creditBacking c = some credit.backing := by simp [State.creditBacking, hc]
      have hne := Books.other_backing hi hr ho hexcl hgb hcb (hlive c rfl)
      simp only [State.limit, hcb, Option.elim_some]
      exact (congrArg (Option.elim · 0 _) hcb).trans (hbytes _ hne)
    | _ => rfl
  have hok : ∀ {account : Account} {charge : Charge}, Live s account → charge.Ok s account →
      charge.Ok (State.setSlot { s with
        backings := s.backings.set b { backing with bytes := n }
        wrapped := wrapped } r { slot with phase := p }) account := by
    intro account charge hlive h
    cases charge with
    | charge counter limit => exact ⟨h.1, h.2.trans (hlimit account hlive).symm⟩
    | _ => exact h
  refine ⟨⟨hi.tables.memory_le, hi.tables.temporary_le, hw, ?_, ?_⟩, ⟨?_, ?_, ?_⟩, ?_⟩
  · intro d other hd hf
    rcases getElem?_set_some hd with ⟨rfl, rfl⟩ | ⟨-, hd⟩
    · exact hi.tables.freed _ backing hb hf
    · exact hi.tables.freed d other hd hf
  · intro c d hc
    have ht := hi.tables.credits c d hc
    refine ⟨by simpa [State.setSlot] using ht.1, fun hlive => ?_⟩
    have hne := Books.other_backing hi hr ho hexcl hgb hc hlive
    exact Nat.le_trans (ht.2 hlive) (Nat.le_of_eq (hbytes d hne).symm)
  · intro q other hq
    rcases getElem?_set_some hq with ⟨rfl, rfl⟩ | ⟨hne, hq⟩
    · refine ⟨hinv.backed, ?_, ?_, hinv.active, ?_, fun m charge h => absurd h (hcharge m _),
        fun e todo h => absurd h (hfail e todo), fun h => absurd h hcounted⟩
      · intro d hd
        simpa [State.setSlot] using hinv.known d hd
      · intro d c _ hd hc hlive
        have hd' : d = b := Option.some.inj (hd.symm.trans hgb)
        exact absurd hd' (Books.other_backing hi hr ho hexcl hgb hc hlive)
      · intro d _ hd
        obtain rfl : d = b := Option.some.inj (hd.symm.trans hgb)
        exact hflow.trans (congrArg (· + p.gained) hbyte.symm)
    · have hother := hi.shape.slots q other hq
      refine ⟨hother.backed, ?_, hother.loans, hother.active, ?_, ?_, hother.failing,
        hother.counted⟩
      · intro d hd
        simpa [State.setSlot] using hother.known d hd
      · intro d hown hd
        have hdb : d ≠ b := by
          rintro rfl
          exact hne (hi.shape.unique q r d other slot hq hr hd hgb)
        have hold := hother.bytes d hown hd
        exact hold.trans (congrArg (· + other.phase.gained) (hbytes d hdb).symm)
      · intro m charge h
        exact hok (Books.live hi hq (by rw [h]; rfl)) (hother.charging m charge h)
  · intro q q' d one two hq hq' h1 h2
    have old : ∀ {q : Nat} {one : Slot}, (s.slots.set r { slot with phase := p })[q]? = some one →
        one.reservation.globalMemoryBacking = some d →
        ∃ one', s.slots[q]? = some one' ∧ one'.reservation.globalMemoryBacking = some d := by
      intro q one hq h1
      rcases getElem?_set_some hq with ⟨rfl, rfl⟩ | ⟨-, hq⟩
      · exact ⟨slot, hr, h1⟩
      · exact ⟨one, hq, h1⟩
    obtain ⟨one', hone, hb1⟩ := old hq h1
    obtain ⟨two', htwo, hb2⟩ := old hq' h2
    exact hi.shape.unique q q' d one' two' hone htwo hb1 hb2
  · intro j call hj
    have hcall := hi.shape.reserves j call hj
    refine ⟨fun hopenCall hsome => ?_, fun charge h => hok ?_ (hcall.charging charge h)⟩
    · obtain ⟨q, guard, hq, hl⟩ := hcall.guard hopenCall hsome
      refine ⟨q, guard, ?_, hl⟩
      by_cases hqr : q = r
      · subst hqr
        rw [hr] at hq
        obtain rfl := Option.some.inj hq
        exact absurd hl (hlent _)
      · exact (getElem?_set_ne hqr).trans hq
    · intro c hc
      have hsome : call.context.credit.isSome := by
        simp only [accountOf] at hc
        split at hc <;> simp_all
      obtain ⟨q, guard, hq, hl⟩ := hcall.guard (by rw [h]; simp) hsome
      exact Books.live_of_lent hi hq hl call.kind c hc
  · intro x
    have hx := hi.balance x
    have hxx := hheld x
    have hsupply := setBacking_supply { backing with bytes := n } hb x
    have hsetB := total_set (w := MemoryBacking.held x) (a := { backing with bytes := n }) hb
    have hsetS := total_set (w := Slot.held x) (a := { slot with phase := p }) hr
    have hslot : Slot.held x { slot with phase := p } + slot.phase.held .memory x =
        slot.held x + p.held .memory x := by
      simp only [Slot.held, ho, hp, ↓reduceIte, haccount]
      omega
    have heq : (State.setSlot { s with
        backings := s.backings.set b { backing with bytes := n }
        wrapped := wrapped } r { slot with phase := p }).supply x =
        { s with backings := s.backings.set b { backing with bytes := n } : State }.supply x := by
      cases x with
      | bytes a => cases a <;> rfl
      | _ => rfl
    rw [heq]
    have hsame : MemoryBacking.supply b { backing with bytes := n } x = backing.supply b x := rfl
    have hnew : MemoryBacking.held x { backing with bytes := n } = only (.bytes .memory) n x := by
      simp [MemoryBacking.held, hopen]
    have hold : MemoryBacking.held x backing = only (.bytes .memory) backing.bytes x := by
      simp [MemoryBacking.held, hopen]
    simp only [State.held, State.setSlot] at hx ⊢
    omega

theorem growBacking_invariant (hi : Invariant s) (hr : s.slots[r]? = some slot) {n : Nat}
    (hp : slot.phase = .growBacking n) {out : State × Option Outcome}
    {interrupted : Option Interruption} (h : slotStep s r slot interrupted = some out) :
    Invariant out.1 := by
  have ho : slot.phase.owned := by rw [hp]; rfl
  have hinv := hi.shape.slots r slot hr
  simp only [slotStep, hp] at h
  obtain ⟨b, hgb, h⟩ := Option.bind_eq_some_iff.mp h
  obtain ⟨backing, hb, h⟩ := Option.bind_eq_some_iff.mp h
  obtain rfl := Option.some.inj h
  have haccount : slot.reservation.account = .memory := hinv.backed.mp (by rw [hgb]; rfl)
  have hopen := (Books.open_backing hi hr ho hgb hb).2
  have hbytes := hinv.bytes b ho hgb
  simp only [hp, Phase.lost, Phase.gained, State.backingBytes, hb, Option.elim_some] at hbytes
  have hfits : backing.bytes + n ≤ s.memoryBytes := by
    have hx := hi.balance (.bytes .memory)
    have hleB := le_total (w := MemoryBacking.held (.bytes .memory)) hb
    have hleS := le_total (w := Slot.held (.bytes .memory)) hr
    have hB : MemoryBacking.held (.bytes .memory) backing = backing.bytes := by
      simp [MemoryBacking.held, hopen]
    have hS : n ≤ Slot.held (.bytes .memory) slot := by
      simp only [Slot.held, hp, Phase.held, haccount, only_self]
      omega
    simp only [State.supply, State.counter, State.held] at hx
    omega
  have hm := hi.tables.memory_le
  have hlt := s.limits.memory_lt
  have hadd : fetchAdd backing.bytes n = backing.bytes + n := fetchAdd_of_lt (by omega)
  refine hi.resizeBacking hr hgb hb ho rfl (by rw [hp]; rfl) ?_ (fun x => ?_) ?_ (by simp)
    (by simp) (by simp) (by simp [hp])
  · simp only [hi.tables.unwrapped, Bool.false_or, decide_eq_false_iff_not]
    omega
  · rw [hadd, hp]
    simp only [Phase.held, only_add]
    omega
  · rw [hadd]
    simp only [Phase.lost, Phase.gained]
    omega

theorem shrinkBacking_invariant (hi : Invariant s) (hr : s.slots[r]? = some slot) {n : Nat}
    (hp : slot.phase = .shrinkBacking n) {out : State × Option Outcome}
    {interrupted : Option Interruption} (h : slotStep s r slot interrupted = some out) :
    Invariant out.1 := by
  have ho : slot.phase.owned := by rw [hp]; rfl
  have hinv := hi.shape.slots r slot hr
  simp only [slotStep, hp] at h
  obtain ⟨b, hgb, h⟩ := Option.bind_eq_some_iff.mp h
  obtain ⟨backing, hb, h⟩ := Option.bind_eq_some_iff.mp h
  obtain rfl := Option.some.inj h
  have hopen := Books.open_backing hi hr ho hgb hb
  have hbytes := hinv.bytes b ho hgb
  simp only [hp, Phase.lost, Phase.gained, State.backingBytes, hb, Option.elim_some] at hbytes
  have hle := Balance.backing_le hi.balance hi.tables hb (by omega)
  have hm := hi.tables.memory_le
  have hlt := s.limits.memory_lt
  have hsub : fetchSub backing.bytes n = backing.bytes - n :=
    fetchSub_of_le (by omega) (by omega)
  refine hi.resizeBacking hr hgb hb ho rfl (by rw [hp]; rfl) ?_ (fun x => ?_) ?_ (by simp)
    (by simp) (by simp) (by simp [hp])
  · simp only [hi.tables.unwrapped, Bool.false_or, decide_eq_false_iff_not]
    omega
  · rw [hsub, hp]
    simp only [Phase.held]
    rw [← only_add, Nat.sub_add_cancel (by omega)]
    rfl
  · rw [hsub]
    simp only [Phase.lost, Phase.gained]
    omega

theorem Live.setSlot {account : Account} (h : Live s account) (r : Nat) (slot : Slot) :
    Live (s.setSlot r slot) account := h

theorem shrinkCounter_invariant (hi : Invariant s) (hr : s.slots[r]? = some slot) {n : Nat}
    (hp : slot.phase = .shrinkCounter n) :
    Invariant ((s.subCounter slot.reservation.account n).setSlot r
      { slot with phase := .idle }) := by
  have ho : slot.phase.owned := by rw [hp]; rfl
  have htaken : Books (s.setSlot r { slot with phase := .idle })
      (only (.bytes slot.reservation.account) n) := by
    refine Books.setPhase hi hr (fun x => ?_) (fun _ => ho) (fun _ => by rw [hp]; exact ⟨rfl, rfl⟩)
      (fun h => by cases h) (by simp) (by simp) (by simp) (by simp [hp])
    simp only [Slot.held, hp, Phase.owned, Phase.held]
    omega
  rw [← subCounter_setSlot]
  exact Books.sub ((Books.live hi hr ho).setSlot r _)
    (htaken.congr fun x => (Nat.zero_add _).symm)

theorem dropCounter_invariant (hi : Invariant s) (hr : s.slots[r]? = some slot)
    (hp : slot.phase = .dropCounter) :
    Invariant ((s.subCounter slot.reservation.account slot.reservation.bytes).setSlot r
      { slot with
        phase := .dropping (slot.reservation.context.credit.map Release.credit).toList }) := by
  have ho : slot.phase.owned := by rw [hp]; rfl
  have hgb := (hi.shape.slots r slot hr).counted hp
  have htaken : Books (s.setSlot r { slot with
      phase := .dropping (slot.reservation.context.credit.map Release.credit).toList })
      (only (.bytes slot.reservation.account) slot.reservation.bytes) := by
    refine Books.setPhase hi hr (fun x => ?_) (fun _ => ho) (by simp [Phase.owned])
      (fun h => by cases h) (by simp) (by simp) (by simp) (by simp [hp])
    simp only [Slot.held, hp, Phase.owned, Phase.held, ResourceReservation.held, hgb]
    cases slot.reservation.context.credit with
    | none => simp
    | some c => simp [Release.held]
  rw [← subCounter_setSlot]
  exact Books.sub ((Books.live hi hr ho).setSlot r _)
    (htaken.congr fun x => (Nat.zero_add _).symm)

/-- A failing call gives back its `Arc`s, and never the last one of the backing. -/
theorem failing_release (hi : Invariant s) (hr : s.slots[r]? = some slot) {e : ConversionError}
    {x : Release} {rest : List Release} (hp : slot.phase = .failing e (x :: rest)) :
    rest = [] ∧ failingTodo s slot.reservation.globalMemoryBacking (releaseStep s x).2 ∧
      counters (releaseStep s x).1 = counters s := by
  have ho : slot.phase.owned := by rw [hp]; rfl
  rcases (hi.shape.slots r slot hr).failing e _ hp with h | ⟨b, c, hgb, hcb, h⟩ | ⟨b, hgb, h⟩
  · cases h
  · obtain ⟨rfl, rfl⟩ := List.cons.inj h
    refine ⟨rfl, ?_⟩
    cases hc : s.credits[c]? with
    | none => simp [State.creditBacking, hc] at hcb
    | some credit =>
      have hb : credit.backing = b := by simpa [State.creditBacking, hc] using hcb
      simp only [releaseStep, hc]
      constructor
      · split
        · exact Or.inr (Or.inr ⟨b, hgb, by rw [hb]⟩)
        · exact Or.inl rfl
      · have hsame : (s.credits.set c { credit with strong := credit.strong - 1 }).map (·.bytes) =
            s.credits.map (·.bytes) := map_set_of_eq hc rfl
        simp only [counters, hsame]
  · obtain ⟨rfl, rfl⟩ := List.cons.inj h
    refine ⟨rfl, ?_⟩
    have hknown := (hi.shape.slots r slot hr).known b hgb
    obtain ⟨backing, hb⟩ : ∃ backing, s.backings[b]? = some backing :=
      ⟨_, List.getElem?_eq_getElem hknown⟩
    -- the reservation's own `Arc` and the one that is released
    have hstrong := (Books.open_backing hi hr ho hgb hb).1
    have hheld : slot.phase.held slot.reservation.account (.backingRef b) = 1 := by
      simp [hp, Phase.held, Release.held]
    have hne : backing.strong ≠ 1 := by omega
    simp only [releaseStep, hb, hne, ↓reduceIte]
    refine ⟨Or.inl rfl, ?_⟩
    have hsame : (s.backings.set b { backing with strong := backing.strong - 1 }).map (·.bytes) =
        s.backings.map (·.bytes) := map_set_of_eq hb rfl
    simp only [counters, hsame]

theorem creditBacking_push (credit : MemoryCredit) (c : Nat) :
    State.creditBacking { s with credits := s.credits ++ [credit] } c =
      if c = s.credits.length then some credit.backing else s.creditBacking c := by
  simp only [State.creditBacking]
  by_cases hc : c = s.credits.length
  · subst hc
    rw [getElem?_snoc_length, if_pos rfl]
    rfl
  · rw [if_neg hc, List.getElem?_append]
    split
    · rfl
    · rename_i hl
      rw [List.getElem?_eq_none (by simp; omega), List.getElem?_eq_none (by omega)]

theorem creditBacking_lt {c b : Nat} (h : s.creditBacking c = some b) : c < s.credits.length := by
  cases hc : s.credits[c]? with
  | none => simp [State.creditBacking, hc] at h
  | some credit => exact lt_length_of_some hc

/-- A new credit is lent out by a reservation that has no live one. -/
theorem Books.attach {b : Nat} {context : Context}
    (hs : Books s (only (.backingRef b) 1)) (hr : s.slots[r]? = some slot)
    (hgb : slot.reservation.globalMemoryBacking = some b) (hp : slot.phase = .lendAttach context) :
    Invariant (State.setSlot { s with credits := s.credits ++ [{ backing := b }] } r
      { slot with
        reservation := { slot.reservation with activeMemoryCredit := some s.credits.length }
        phase := .lent { context with credit := some s.credits.length } }) := by
  have ho : slot.phase.owned := by rw [hp]; rfl
  have hexcl : slot.phase.exclusive := by rw [hp]; rfl
  have hinv := hs.shape.slots r slot hr
  have hknown := hinv.known b hgb
  have hold : ∀ {c d : Nat}, s.creditBacking c = some d →
      State.creditBacking { s with credits := s.credits ++ [{ backing := b }] } c = some d := by
    intro c d hc
    rw [creditBacking_push, if_neg (by have := creditBacking_lt hc; omega), hc]
  have hback : ∀ {c d : Nat},
      State.creditBacking { s with credits := s.credits ++ [{ backing := b }] } c = some d →
      0 < State.creditStrong { s with credits := s.credits ++ [{ backing := b }] } c →
      c = s.credits.length ∧ d = b ∨ s.creditBacking c = some d ∧ 0 < s.creditStrong c := by
    intro c d hc hlive
    rw [creditBacking_push] at hc
    simp only [State.creditStrong, elim_snoc] at hlive
    split at hc
    · rename_i hcl
      exact Or.inl ⟨hcl, (Option.some.inj hc).symm⟩
    · rename_i hcl
      rw [if_neg hcl] at hlive
      exact Or.inr ⟨hc, hlive⟩
  have hlimit : ∀ account, Live s account →
      State.limit { s with credits := s.credits ++ [{ backing := b }] } account =
        s.limit account := by
    intro account hlive
    cases account with
    | credit c =>
      obtain ⟨credit, hc, -⟩ := credit_of_strong (hlive c rfl)
      have hcb : s.creditBacking c = some credit.backing := by simp [State.creditBacking, hc]
      simp only [State.limit, hold hcb, hcb]
      rfl
    | _ => rfl
  have hok : ∀ {account : Account} {charge : Charge}, Live s account → charge.Ok s account →
      charge.Ok { s with credits := s.credits ++ [{ backing := b }] } account := by
    intro account charge hlive h
    cases charge with
    | charge counter limit => exact ⟨h.1, h.2.trans (hlimit account hlive).symm⟩
    | _ => exact h
  refine ⟨⟨hs.tables.memory_le, hs.tables.temporary_le, hs.tables.unwrapped, hs.tables.freed, ?_⟩,
    ⟨?_, ?_, ?_⟩, ?_⟩
  · intro c d hc
    have hcd := (creditBacking_push { backing := b } c).symm.trans hc
    split at hcd
    · rename_i hcl
      subst hcl
      obtain rfl := Option.some.inj hcd
      refine ⟨hknown, fun _ => ?_⟩
      have hzero : State.creditBytes { s with credits := s.credits ++ [{ backing := b }] }
          s.credits.length = 0 := by
        simp [State.creditBytes]
      exact Nat.le_trans (Nat.le_of_eq hzero) (Nat.zero_le _)
    · rename_i hcl
      obtain ⟨hlt, hle⟩ := hs.tables.credits c d hcd
      refine ⟨hlt, fun hlive => ?_⟩
      rcases hback hc hlive with ⟨h, -⟩ | ⟨-, hlive⟩
      · exact absurd h hcl
      · have hsame : State.creditBytes { s with credits := s.credits ++ [{ backing := b }] } c =
            s.creditBytes c := by
          simp only [State.creditBytes, elim_snoc, if_neg hcl]
        exact Nat.le_trans (Nat.le_of_eq hsame) (hle hlive)
  · intro q other hq
    rcases getElem?_set_some hq with ⟨rfl, rfl⟩ | ⟨hne, hq⟩
    · refine ⟨hinv.backed, hinv.known, ?_, ?_, ?_, by simp, by simp, by simp⟩
      · intro d c _ hd hc hlive
        obtain rfl : d = b := Option.some.inj (hd.symm.trans hgb)
        rcases hback hc hlive with ⟨h, -⟩ | ⟨hc, hlive⟩
        · exact ⟨by simp [h], rfl⟩
        · exact absurd rfl (Books.other_backing hs hr ho hexcl hgb hc hlive)
      · intro c hc
        obtain rfl := Option.some.inj hc
        exact ⟨b, hgb, (creditBacking_push { backing := b } _).trans (if_pos rfl)⟩
      · intro d _ hd
        have hbytes := hinv.bytes d ho hd
        rw [hp] at hbytes
        exact hbytes
    · have hother := hs.shape.slots q other hq
      refine ⟨hother.backed, hother.known, ?_, ?_, hother.bytes, ?_, ?_, hother.counted⟩
      · intro d c hown hd hc hlive
        rcases hback hc hlive with ⟨-, rfl⟩ | ⟨hc, hlive⟩
        · exact absurd (hs.shape.unique q r d other slot hq hr hd hgb) hne
        · exact hother.loans d c hown hd hc hlive
      · intro c hc
        obtain ⟨d, hd, hcd⟩ := hother.active c hc
        exact ⟨d, hd, hold hcd⟩
      · intro m charge h
        exact hok (Books.live hs hq (by rw [h]; rfl)) (hother.charging m charge h)
      · intro e todo h
        rcases hother.failing e todo h with h | ⟨d, c, hd, hc, h⟩ | h
        · exact Or.inl h
        · exact Or.inr (Or.inl ⟨d, c, hd, hold hc, h⟩)
        · exact Or.inr (Or.inr h)
  · intro q q' d one two hq hq' h1 h2
    have old : ∀ {q : Nat} {one slot' : Slot}, (s.slots.set r slot')[q]? = some one →
        slot'.reservation.globalMemoryBacking = some b →
        one.reservation.globalMemoryBacking = some d →
        ∃ one', s.slots[q]? = some one' ∧ one'.reservation.globalMemoryBacking = some d := by
      intro q one slot' hq hb h1
      rcases getElem?_set_some hq with ⟨rfl, rfl⟩ | ⟨-, hq⟩
      · exact ⟨slot, hr, hgb.trans (hb.symm.trans h1)⟩
      · exact ⟨one, hq, h1⟩
    obtain ⟨one', hone, hb1⟩ := old hq hgb h1
    obtain ⟨two', htwo, hb2⟩ := old hq' hgb h2
    exact hs.shape.unique q q' d one' two' hone htwo hb1 hb2
  · intro j call hj
    have hcall := hs.shape.reserves j call hj
    refine ⟨fun hopen hsome => ?_, fun charge h => hok ?_ (hcall.charging charge h)⟩
    · obtain ⟨q, guard, hq, hl⟩ := hcall.guard hopen hsome
      have hqr : q ≠ r := by
        rintro rfl
        rw [hr] at hq
        obtain rfl := Option.some.inj hq
        rw [hp] at hl
        cases hl
      exact ⟨q, guard, (getElem?_set_ne hqr).trans hq, hl⟩
    · intro c hc
      have hsome : call.context.credit.isSome := by
        simp only [accountOf] at hc
        split at hc <;> simp_all
      obtain ⟨q, guard, hq, hl⟩ := hcall.guard (by rw [h]; simp) hsome
      exact Books.live_of_lent hs hq hl call.kind c hc
  · have hpush : Balance { s with credits := s.credits ++ [{ backing := b }] }
        (only (.creditRef s.credits.length) 1) := by
      refine hs.balance.pushCredit fun x => ?_
      simp [MemoryCredit.supply, MemoryCredit.held]
      omega
    refine hpush.setSlot hr fun x => ?_
    simp only [Slot.held, hp, Phase.owned, Phase.held, ResourceReservation.held, hgb,
      ↓reduceIte, Option.elim_some]
    omega

theorem lendAttach_invariant (hi : Invariant s) (hr : s.slots[r]? = some slot) {context : Context}
    (hp : slot.phase = .lendAttach context) {out : State × Option Outcome}
    {interrupted : Option Interruption} (h : slotStep s r slot interrupted = some out) :
    Invariant out.1 := by
  have ho : slot.phase.owned := by rw [hp]; rfl
  simp only [slotStep, hp] at h
  obtain ⟨b, hgb, h⟩ := Option.bind_eq_some_iff.mp h
  obtain ⟨backing, hb, h⟩ := Option.bind_eq_some_iff.mp h
  obtain rfl := Option.some.inj h
  obtain ⟨hstrong, hopen⟩ := Books.open_backing hi hr ho hgb hb
  have hcloned : Books { s with
      backings := s.backings.set b { backing with strong := backing.strong + 1 } }
      (only (.backingRef b) 1) := by
    refine ⟨hi.tables.setBacking hb rfl (by simp [hopen]),
      hi.shape.quiet (Quiet.setBacking hb rfl), hi.balance.setBacking hb fun x => ?_⟩
    have hne : backing.strong ≠ 0 := by omega
    simp only [MemoryBacking.supply, MemoryBacking.held, hne, false_and, ↓reduceIte,
      Nat.add_one_ne_zero, only_add]
    omega
  exact Books.attach hcloned hr hgb hp

theorem upgradeStep_invariant (hi : Invariant s) (hr : s.slots[r]? = some slot)
    (hheld : ∀ x, slot.phase.held slot.reservation.account x = 0) (ho : slot.phase.owned)
    (hflow : slot.phase.gained = 0 ∧ slot.phase.lost = 0)
    (hlent : ∀ context, slot.phase ≠ .lent context) (e : ConversionError) (next : Phase)
    (hnext : next.owned ∧ next.exclusive ∧ next.gained = 0 ∧ next.lost = 0 ∧
      (∀ x, next.held slot.reservation.account x = 0) ∧ next ≠ .dropCounter ∧
      (∀ e todo, next ≠ .failing e todo) ∧ ∀ n charge, next = .grow n charge → charge = .account) :
    (∀ {s' : State} {c : Nat}, upgrade s slot.reservation = some (s', c) →
      Invariant (s'.setSlot r { slot with phase := .failing e [.credit c] })) ∧
    (upgrade s slot.reservation = none → Invariant (s.setSlot r { slot with phase := next })) := by
  obtain ⟨hown, -, hg, hl, hnone, hcount, hfail, hgrow⟩ := hnext
  refine ⟨fun hu => hi.upgraded hr e hu hheld ho hflow hlent, fun hu => ?_⟩
  refine hi.move hr (fun x => (hheld x).trans (hnone x).symm) ho hown
    ⟨hg.trans hflow.1.symm, hl.trans hflow.2.symm⟩ (fun _ => Or.inr fun c hc => upgrade_none hu hc)
    ?_ (fun e todo h => absurd h (hfail e todo)) hcount hlent
  intro n charge h
  rw [hgrow n charge h]
  trivial

theorem slotStep_invariant (hi : Invariant s) (hr : s.slots[r]? = some slot)
    {out : State × Option Outcome} {interrupted : Option Interruption}
    (h : slotStep s r slot interrupted = some out) : Invariant out.1 := by
  cases hp : slot.phase with
  | idle | lent context | dropped => simp [slotStep, hp] at h
  | growCheck n =>
    simp only [slotStep, hp] at h
    split at h
    · obtain rfl := Option.some.inj h
      exact hi.finish hr (by simp [hp, Phase.held]) (by rw [hp]; rfl) (by rw [hp]; exact ⟨rfl, rfl⟩)
        (by simp [hp])
    · obtain rfl := Option.some.inj h
      exact hi.move hr (by simp [hp, Phase.held]) (by rw [hp]; rfl) rfl
        (by rw [hp]; exact ⟨rfl, rfl⟩) (fun h => by cases h) (by simp) (by simp) (by simp)
        (by simp [hp])
  | growUpgrade n =>
    have hu := upgradeStep_invariant hi hr (by simp [hp, Phase.held]) (by rw [hp]; rfl)
      (by rw [hp]; exact ⟨rfl, rfl⟩) (by simp [hp]) (.internal resizeError)
      (.grow n .account)
      ⟨rfl, rfl, rfl, rfl, fun _ => rfl, by simp, by simp, fun _ _ h => (Phase.grow.inj h).2.symm⟩
    simp only [slotStep, hp] at h
    split at h
    · rename_i s' c hup
      obtain rfl := Option.some.inj h
      exact hu.1 hup
    · rename_i hup
      split at h
      · obtain rfl := Option.some.inj h
        exact hu.2 hup
      · obtain rfl := Option.some.inj h
        exact hi.finish hr (by simp [hp, Phase.held]) (by rw [hp]; rfl)
          (by rw [hp]; exact ⟨rfl, rfl⟩) (by simp [hp])
  | grow n charge =>
    have hgo : ∀ {out : State × Option Charge},
        chargeStep s slot.reservation.kind slot.reservation.context n charge = .ok out →
        Invariant (out.1.setSlot r { slot with phase := out.2.elim (.growSettled n) (.grow n) }) :=
      fun hstep => hi.charge hr hp hstep
    simp only [slotStep, hp] at h
    split at h
    · rename_i s' charge' hstep
      obtain rfl := Option.some.inj h
      exact hgo hstep
    · rename_i s' hstep
      obtain rfl := Option.some.inj h
      exact hgo hstep
    · rename_i e hstep
      obtain rfl := Option.some.inj h
      -- a charge fails before it has put anything on the counter
      have hnone : ∀ x, slot.phase.held slot.reservation.account x = 0 := by
        intro x
        cases charge with
        | peak counter current => cases hstep
        | _ => simp [hp, Phase.held, Charge.held]
      exact hi.finish hr hnone (by rw [hp]; rfl) (by rw [hp]; exact ⟨rfl, rfl⟩) (by simp [hp])
  | growSettled n => exact growSettled_invariant hi hr hp h
  | growBacking n => exact growBacking_invariant hi hr hp h
  | shrinkUpgrade n => exact shrinkUpgrade_invariant hi hr hp h
  | shrinkBacking n => exact shrinkBacking_invariant hi hr hp h
  | shrinkCounter n =>
    simp only [slotStep, hp] at h
    obtain rfl := Option.some.inj h
    exact shrinkCounter_invariant hi hr hp
  | lendUpgrade context =>
    have hfinish : ∀ outcome, Invariant (s.finish r slot outcome).1 := fun _ =>
      hi.finish hr (by simp [hp, Phase.held]) (by rw [hp]; rfl) (by rw [hp]; exact ⟨rfl, rfl⟩)
        (by simp [hp])
    have hu := upgradeStep_invariant hi hr (by simp [hp, Phase.held]) (by rw [hp]; rfl)
      (by rw [hp]; exact ⟨rfl, rfl⟩) (by simp [hp]) (.internal lendActiveError)
      (.lendAttach context)
      ⟨rfl, rfl, rfl, rfl, fun _ => rfl, by simp, by simp, by simp⟩
    simp only [slotStep, hp] at h
    split at h
    · split at h
      · obtain rfl := Option.some.inj h
        exact hfinish _
      · split at h
        · rename_i s' c hup
          obtain rfl := Option.some.inj h
          exact hu.1 hup
        · rename_i hup
          obtain rfl := Option.some.inj h
          exact hu.2 hup
    · obtain rfl := Option.some.inj h
      exact hfinish _
  | lendAttach context => exact lendAttach_invariant hi hr hp h
  | returning todo =>
    cases todo with
    | nil =>
      simp only [slotStep, hp] at h
      obtain rfl := Option.some.inj h
      exact hi.finish hr (by simp [hp, Phase.held]) (by rw [hp]; rfl)
        (by rw [hp]; exact ⟨rfl, rfl⟩) (by simp [hp])
    | cons x rest =>
      simp only [slotStep, hp] at h
      obtain rfl := Option.some.inj h
      exact hi.releaseNext hr .returning hp (fun _ => rfl) (fun _ => by rw [hp]; rfl)
        (fun _ => ⟨rfl, rfl, rfl, by simp⟩) (by simp) (by simp) (by simp) (by simp)
  | failing e todo =>
    cases todo with
    | nil =>
      simp only [slotStep, hp] at h
      obtain rfl := Option.some.inj h
      exact hi.finish hr (by simp [hp, Phase.held]) (by rw [hp]; rfl)
        (by rw [hp]; exact ⟨rfl, rfl⟩) (by simp [hp])
    | cons x rest =>
      obtain ⟨rfl, hf, -⟩ := failing_release hi hr hp
      simp only [slotStep, hp] at h
      obtain rfl := Option.some.inj h
      refine hi.releaseNext hr (.failing e) hp (fun _ => rfl) (fun _ => by rw [hp]; rfl)
        (fun _ => ⟨rfl, rfl, rfl, by simp⟩) (by simp) (by simp) ?_ ?_
      · intro e' todo h
        obtain ⟨-, rfl⟩ := Phase.failing.inj h
        exact Or.inl rfl
      · intro e' todo h
        obtain ⟨-, rfl⟩ := Phase.failing.inj h
        rw [List.append_nil]
        exact hf
  | dropCounter =>
    simp only [slotStep, hp] at h
    obtain rfl := Option.some.inj h
    exact dropCounter_invariant hi hr hp
  | dropping todo =>
    cases todo with
    | nil =>
      simp only [slotStep, hp] at h
      obtain rfl := Option.some.inj h
      refine Books.setPhase hi hr (fun x => ?_) (fun h => by cases h) (fun h => by cases h)
        (fun h => by cases h) (by simp) (by simp) (by simp) (by simp [hp])
      simp [Slot.held, hp, Phase.owned, Phase.held]
    | cons x rest =>
      simp only [slotStep, hp] at h
      obtain rfl := Option.some.inj h
      exact hi.releaseNext hr .dropping hp (fun _ => rfl) (fun _ => by rw [hp]; rfl)
        (fun _ => ⟨rfl, rfl, rfl, by simp⟩) (by simp) (by simp) (by simp) (by simp)

theorem begin_invariant (hi : Invariant s) {phase : ResourceReservation → Phase} {s' : State}
    (h : begin s r phase = some s')
    (hphase : ∀ res, (∃ n, phase res = .growCheck n) ∨ (∃ n, phase res = .shrinkUpgrade n) ∨
      (∃ context, phase res = .lendUpgrade context) ∨ phase res = dropPhase res) :
    Invariant s' := by
  obtain ⟨slot, hr, h⟩ := Option.bind_eq_some_iff.mp h
  split at h
  · rename_i hp
    obtain rfl := Option.some.inj h
    refine Books.records ?_ s.shareds _ s.finished
    rcases hphase slot.reservation with ⟨n, h⟩ | ⟨n, h⟩ | ⟨context, h⟩ | h
    · rw [h]
      exact hi.move hr (by simp [hp, Phase.held]) (by rw [hp]; rfl) rfl
        (by rw [hp]; exact ⟨rfl, rfl⟩) (fun h => by cases h) (by simp) (by simp) (by simp)
        (by simp [hp])
    · rw [h]
      exact hi.move hr (by simp [hp, Phase.held]) (by rw [hp]; rfl) rfl
        (by rw [hp]; exact ⟨rfl, rfl⟩) (fun h => by cases h) (by simp) (by simp) (by simp)
        (by simp [hp])
    · rw [h]
      exact hi.move hr (by simp [hp, Phase.held]) (by rw [hp]; rfl) rfl
        (by rw [hp]; exact ⟨rfl, rfl⟩) (fun h => by cases h) (by simp) (by simp) (by simp)
        (by simp [hp])
    · rw [h]
      cases hgb : slot.reservation.globalMemoryBacking with
      | none =>
        simp only [dropPhase, hgb]
        exact Books.setPhase hi hr (fun x => by simp [Slot.held, hp, Phase.owned, Phase.held])
          (fun _ => by rw [hp]; rfl) (fun _ => by rw [hp]; exact ⟨rfl, rfl⟩) (fun h => by cases h)
          (by simp) (by simp) (fun _ => hgb) (by simp [hp])
      | some b =>
        simp only [dropPhase, hgb]
        refine Books.setPhase hi hr (fun x => ?_) (fun h => by cases h) (fun h => by cases h)
          (fun h => by cases h) (by simp) (by simp) (by simp) (by simp [hp])
        simp only [Slot.held, hp, Phase.owned, Phase.held, ResourceReservation.held, hgb,
          todoHeld_append]
        cases slot.reservation.context.credit <;> simp [Release.held]
  · cases h

theorem dropCredit_invariant (hi : Invariant s) {s' : State} (h : dropCredit s r = some s') :
    Invariant s' := by
  obtain ⟨slot, hr, h⟩ := Option.bind_eq_some_iff.mp h
  split at h
  · rename_i context hp
    split at h
    · rename_i hall
      obtain rfl := Option.some.inj h
      refine Books.records ?_ s.shareds _ s.finished
      refine Books.setPhase hi hr (fun x => ?_) (fun _ => by rw [hp]; rfl)
        (fun _ => by rw [hp]; exact ⟨rfl, rfl⟩) (fun h => by cases h) (by simp) (by simp)
        (by simp) ?_
      · simp only [Slot.held, hp, Phase.owned, Phase.held]
        cases context.credit <;> simp [Release.held]
      · intro other ho call hcall
        obtain rfl := Phase.lent.inj (hp.symm.trans ho)
        have := List.all_eq_true.mp hall call hcall
        simpa using this
    · cases h
  · cases h

end SlotSteps

/-! ## The steps of a `reserve` call -/

section ReserveSteps
variable {s : State} {j : Nat} {call : Reserve}

theorem Books.setReserve {h h' : Item → Nat} (hs : Books s h) (hj : s.reserves[j]? = some call)
    {phase : ReservePhase} (hopen : call.phase ≠ .done)
    (hcharge : ∀ charge, phase = .charging charge →
      charge.Ok s (accountOf call.kind call.context))
    (hx : ∀ x, call.held x + h x = { call with phase := phase : Reserve }.held x + h' x) :
    Books (s.setReserve j call phase) h' :=
  ⟨hs.tables.setReserve j call phase, hs.shape.setReserve hj hopen hcharge,
    hs.balance.setReserve hj hx⟩

/-- The credit of a context in use is alive. -/
theorem Books.live_of_reserve {h : Item → Nat} (hs : Books s h)
    (hj : s.reserves[j]? = some call) (hopen : call.phase ≠ .done) (kind : ResourceKind) :
    Live s (accountOf kind call.context) := by
  intro c hc
  have hsome : call.context.credit.isSome := by
    simp only [accountOf] at hc
    split at hc <;> simp_all
  obtain ⟨q, guard, hq, hl⟩ := (hs.shape.reserves j call hj).guard hopen hsome
  exact hs.live_of_lent hq hl kind c hc

theorem Shape.pushSlot (h : Shape s) {slot : Slot} (hnew : SlotInv s slot)
    (hfresh : ∀ (q b : Nat) (other : Slot), s.slots[q]? = some other →
      other.reservation.globalMemoryBacking = some b →
      slot.reservation.globalMemoryBacking ≠ some b) :
    Shape { s with slots := s.slots ++ [slot] } where
  slots := by
    intro q other hq
    rcases getElem?_snoc_some hq with ⟨-, rfl⟩ | hq
    · exact ⟨hnew.backed, hnew.known, hnew.loans, hnew.active, hnew.bytes, hnew.charging,
        hnew.failing, hnew.counted⟩
    · have ho := h.slots q other hq
      exact ⟨ho.backed, ho.known, ho.loans, ho.active, ho.bytes, ho.charging, ho.failing,
        ho.counted⟩
  unique := by
    intro q q' b one two hq hq' h1 h2
    rcases getElem?_snoc_some hq with ⟨hql, hone⟩ | hold
    · rcases getElem?_snoc_some hq' with ⟨hql', -⟩ | hold'
      · rw [hql, hql']
      · exact absurd (by rw [← hone]; exact h1) (hfresh q' b two hold' h2)
    · rcases getElem?_snoc_some hq' with ⟨-, htwo⟩ | hold'
      · exact absurd (by rw [← htwo]; exact h2) (hfresh q b one hold h1)
      · exact h.unique q q' b one two hold hold' h1 h2
  reserves := by
    intro i other hi
    have hc := h.reserves i other hi
    refine ⟨fun hopen hsome => ?_, hc.charging⟩
    obtain ⟨q, guard, hq, hl⟩ := hc.guard hopen hsome
    exact ⟨q, guard, getElem?_snoc_of_some hq, hl⟩

theorem backingBytes_push (backing : MemoryBacking) {b : Nat} (hb : b < s.backings.length) :
    State.backingBytes { s with backings := s.backings ++ [backing] } b = s.backingBytes b := by
  simp only [State.backingBytes, elim_snoc, if_neg (Nat.ne_of_lt hb)]

theorem Shape.pushBacking (h : Shape s) (t : Tables s) (backing : MemoryBacking) :
    Shape { s with backings := s.backings ++ [backing] } := by
  have hlimit : ∀ account,
      State.limit { s with backings := s.backings ++ [backing] } account = s.limit account := by
    intro account
    cases account with
    | credit c =>
      cases hc : s.creditBacking c with
      | none =>
        simp only [State.limit, hc]
        exact congrArg (Option.elim · 0 _) hc
      | some b =>
        simp only [State.limit, hc, Option.elim_some]
        exact (congrArg (Option.elim · 0 _) hc).trans (backingBytes_push backing (t.credits c b hc).1)
    | _ => rfl
  have hok : ∀ {account : Account} {charge : Charge}, charge.Ok s account →
      charge.Ok { s with backings := s.backings ++ [backing] } account := by
    intro account charge hc
    cases charge with
    | charge counter limit => exact ⟨hc.1, hc.2.trans (hlimit account).symm⟩
    | _ => exact hc
  refine ⟨fun r slot hr => ?_, h.unique, fun i other hi => ?_⟩
  · have hs := h.slots r slot hr
    refine ⟨hs.backed, fun b hb => ?_, hs.loans, hs.active, fun b ho hb => ?_,
      fun n charge hp => hok (hs.charging n charge hp), hs.failing, hs.counted⟩
    · have := hs.known b hb
      simp only [List.length_append, List.length_singleton]
      omega
    · exact (hs.bytes b ho hb).trans
        (congrArg (· + slot.phase.gained) (backingBytes_push backing (hs.known b hb)).symm)
  · have hr := h.reserves i other hi
    exact ⟨hr.guard, fun charge hp => hok (hr.charging charge hp)⟩

theorem Tables.pushBacking (t : Tables s) (n : Nat) :
    Tables { s with backings := s.backings ++ [{ bytes := n }] } where
  memory_le := t.memory_le
  temporary_le := t.temporary_le
  unwrapped := t.unwrapped
  freed := by
    intro b backing hb hf
    rcases getElem?_snoc_some hb with ⟨-, rfl⟩ | hb
    · cases hf
    · exact t.freed b backing hb hf
  credits := by
    intro c b hc
    obtain ⟨hlt, hle⟩ := t.credits c b hc
    refine ⟨?_, fun hlive => ?_⟩
    · simp only [List.length_append, List.length_singleton]
      omega
    · exact Nat.le_trans (hle hlive) (Nat.le_of_eq (backingBytes_push _ hlt).symm)

theorem cloneCredit_slots (context : Context) : (s.cloneCredit context).slots = s.slots := by
  simp only [State.cloneCredit]
  split
  · rfl
  · split <;> rfl

theorem Books.cloneCredit {h : Item → Nat} {context : Context} (hs : Books s h)
    (hlive : ∀ c, context.credit = some c → 0 < s.creditStrong c) :
    Books (s.cloneCredit context) fun x =>
      h x + context.credit.elim 0 fun c => only (.creditRef c) 1 x := by
  cases hc : context.credit with
  | none =>
    simp only [State.cloneCredit, hc]
    exact hs.congr fun x => by simp
  | some c =>
    obtain ⟨credit, hcredit, hpos⟩ := credit_of_strong (hlive c hc)
    have hcb : s.creditBacking c = some credit.backing := by simp [State.creditBacking, hcredit]
    have hle := (hs.tables.credits c _ hcb).2 (hlive c hc)
    simp only [State.creditBytes, hcredit, Option.elim_some] at hle
    simp only [State.cloneCredit, hc, hcredit]
    exact ⟨hs.tables.setCredit hcredit rfl (fun _ => hpos) fun _ => hle,
      hs.shape.quiet (Quiet.setCredit hcredit rfl fun _ => hpos),
      hs.balance.cloneCredit hcredit hpos⟩

/-- A reservation that is charged to the pool gets a backing of its own. -/
theorem Books.buildBacked {context : Context} {n : Nat} (hs : Books s (only (.bytes .memory) n))
    (hnone : context.credit = none) :
    Invariant { s with
      backings := s.backings ++ [{ bytes := n }]
      slots := s.slots ++ [{ reservation :=
        { context := context
          kind := .memory
          bytes := n
          globalMemoryBacking := some s.backings.length } }] } := by
  have hhand : Balance s fun x => 0 + only (.bytes .memory) n x :=
    hs.balance.congr fun x => (Nat.zero_add _).symm
  have hpushed := hhand.pushBacking
  refine ⟨?_, ?_, ?_⟩
  · have t := hs.tables.pushBacking n
    exact ⟨t.memory_le, t.temporary_le, t.unwrapped, t.freed, t.credits⟩
  · refine (hs.shape.pushBacking hs.tables _).pushSlot ⟨?_, ?_, ?_, by simp, ?_, by simp, by simp,
      by simp⟩ ?_
    · simp [ResourceReservation.account, accountOf, hnone]
    · intro b hb
      obtain rfl := Option.some.inj hb
      simp
    · intro b c _ hb hc _
      obtain rfl := Option.some.inj hb
      exact absurd (hs.tables.credits c _ hc).1 (Nat.lt_irrefl _)
    · intro b _ hb
      obtain rfl := Option.some.inj hb
      simp [State.backingBytes, Phase.lost, Phase.gained]
    · intro q b other hq hb
      have := (hs.shape.slots q other hq).known b hb
      simp only [ne_eq, Option.some.injEq]
      omega
  · exact Balance.pushSlot (hpushed.congr fun x => by
      simp [Slot.held, Phase.owned, Phase.held, ResourceReservation.held, hnone])

/-- Any other reservation shares the credit of its context, if there is one. -/
theorem Books.buildShared {context : Context} {kind : ResourceKind} {n : Nat}
    (hs : Books s (only (.bytes (accountOf kind context)) n))
    (hshared : accountOf kind context ≠ .memory)
    (hlive : ∀ c, context.credit = some c → 0 < s.creditStrong c) :
    Invariant { s.cloneCredit context with
      slots := s.slots ++ [{ reservation :=
        { context := context
          kind := kind
          bytes := n
          globalMemoryBacking := none } }] } := by
  have hcloned := Books.cloneCredit hs hlive
  rw [← cloneCredit_slots context]
  refine ⟨?_, ?_, ?_⟩
  · have t := hcloned.tables
    exact ⟨t.memory_le, t.temporary_le, t.unwrapped, t.freed, t.credits⟩
  · refine hcloned.shape.pushSlot ⟨?_, by simp, by simp, by simp, by simp, by simp, by simp,
      by simp⟩ (by simp)
    simp [ResourceReservation.account, hshared]
  · refine Balance.pushSlot (hcloned.balance.congr fun x => ?_)
    simp only [Slot.held, Phase.owned, Phase.held, ResourceReservation.held, ↓reduceIte,
      ResourceReservation.account]
    omega

/-- The last step of `reserve`: the charge becomes a reservation. -/
theorem Books.build (hs : Books s (only (.bytes (accountOf call.kind call.context)) call.bytes))
    (hlive : ∀ c, call.context.credit = some c → 0 < s.creditStrong c) :
    Invariant (build s call) := by
  cases haccount : accountOf call.kind call.context with
  | memory =>
    have hmemory : call.kind = .memory ∧ call.context.credit = none := by
      simp only [accountOf] at haccount
      split at haccount <;> simp_all
    rw [haccount] at hs
    simp only [Memory.build, haccount]
    rw [hmemory.1]
    exact hs.buildBacked hmemory.2
  | temporary =>
    simp only [Memory.build, haccount]
    exact hs.buildShared (by simp [haccount]) hlive
  | credit c =>
    simp only [Memory.build, haccount]
    exact hs.buildShared (by simp [haccount]) hlive

theorem setReserve_build (phase : ReservePhase) :
    (build s call).setReserve j call phase = build (s.setReserve j call phase) call := by
  simp only [build, State.cloneCredit]
  split
  · rfl
  · cases call.context.credit with
    | none => rfl
    | some c =>
      simp only [State.setReserve]
      cases s.credits[c]? <;> rfl

theorem reserveStep_invariant (hi : Invariant s) (hj : s.reserves[j]? = some call)
    {out : State × Option Outcome} {interrupted : Option Interruption}
    (h : reserveStep s j call interrupted = some out) : Invariant out.1 := by
  cases hp : call.phase with
  | done => simp [reserveStep, hp] at h
  | check =>
    have hopen : call.phase ≠ .done := by simp [hp]
    simp only [reserveStep, hp] at h
    split at h
    · obtain rfl := Option.some.inj h
      exact Books.setReserve hi hj hopen (by simp) fun x => by simp [Reserve.held, hp]
    · obtain rfl := Option.some.inj h
      refine Books.setReserve hi hj hopen ?_ fun x => by simp [Reserve.held, hp, Charge.held]
      intro charge hc
      obtain rfl := ReservePhase.charging.inj hc
      trivial
  | charging charge =>
    have hopen : call.phase ≠ .done := by simp [hp]
    have hlive := Books.live_of_reserve hi hj hopen call.kind
    have hok := (hi.shape.reserves j call hj).charging charge hp
    simp only [reserveStep, hp] at h
    split at h
    · rename_i s' charge' hstep
      obtain rfl := Option.some.inj h
      obtain ⟨q, t, hnext, d, hb, hd⟩ := chargeStep_spec hi.tables hi.balance hlive hok hstep
      have hs : Books s' d := ⟨t, hi.shape.quiet q, hb.congr fun x => Nat.zero_add _⟩
      refine hs.setReserve (by rw [q.reserves, hj]) hopen ?_ fun x => ?_
      · intro c hc
        obtain rfl := ReservePhase.charging.inj hc
        exact hnext _ rfl
      · have hx := hd x
        simp only [Reserve.held, hp, Nat.add_zero]
        exact hx
    · rename_i s' hstep
      obtain rfl := Option.some.inj h
      obtain ⟨q, t, -, d, hb, hd⟩ := chargeStep_spec hi.tables hi.balance hlive hok hstep
      have hs : Books s' d := ⟨t, hi.shape.quiet q, hb.congr fun x => Nat.zero_add _⟩
      refine hs.setReserve (by rw [q.reserves, hj]) hopen (by simp) fun x => ?_
      have hx := hd x
      simp only [Reserve.held, hp, Nat.add_zero]
      exact hx
    · rename_i e hstep
      obtain rfl := Option.some.inj h
      refine Books.setReserve hi hj hopen (by simp) fun x => ?_
      -- a charge fails before it has put anything on the counter
      cases charge with
      | peak counter current => cases hstep
      | _ => simp [Reserve.held, hp, Charge.held]
  | build =>
    have hopen : call.phase ≠ .done := by simp [hp]
    have hlive : ∀ c, call.context.credit = some c → 0 < s.creditStrong c := by
      intro c hc
      exact Books.live_of_reserve hi hj hopen .memory c (by simp [accountOf, hc])
    simp only [reserveStep, hp] at h
    obtain rfl := Option.some.inj h
    rw [setReserve_build]
    have htaken : Books (s.setReserve j call .done)
        (only (.bytes (accountOf call.kind call.context)) call.bytes) :=
      Books.setReserve hi hj hopen (by simp) fun x => by simp [Reserve.held, hp]
    exact htaken.build hlive

end ReserveSteps

/-! ## Every run -/

theorem record_invariant {s : State} {caller : Caller} {out : State × Option Outcome}
    (hi : Invariant out.1) : Invariant (record s caller out) :=
  Books.records hi out.1.shareds _ _

theorem reserve_invariant {s : State} (hi : Invariant s) {context : Context}
    (kind : ResourceKind) (bytes : Nat) (hvalid : validContext s context) :
    Invariant { s with reserves := s.reserves ++ [{ context, kind, bytes }] } where
  tables := ⟨hi.tables.memory_le, hi.tables.temporary_le, hi.tables.unwrapped, hi.tables.freed,
    hi.tables.credits⟩
  shape := by
    refine ⟨fun r slot hr => ?_, hi.shape.unique, fun j call hj => ?_⟩
    · have hs := hi.shape.slots r slot hr
      exact ⟨hs.backed, hs.known, hs.loans, hs.active, hs.bytes, hs.charging, hs.failing,
        hs.counted⟩
    · rcases getElem?_snoc_some hj with ⟨-, rfl⟩ | hj
      · refine ⟨fun _ hsome => ?_, by simp⟩
        simp only [validContext, Bool.and_eq_true, Bool.or_eq_true, List.any_eq_true] at hvalid
        rcases hvalid.2 with hnone | ⟨slot, hslot, hl⟩
        · simp only [Option.isNone_iff_eq_none] at hnone
          simp [hnone] at hsome
        · obtain ⟨q, hq⟩ := List.mem_iff_getElem?.mp hslot
          exact ⟨q, slot, hq, by simpa using hl⟩
      · have hr := hi.shape.reserves j call hj
        exact ⟨hr.guard, hr.charging⟩
  balance := hi.balance.pushReserve fun _ => rfl

theorem step_invariant {s s' : State} {a : Action} (hi : Invariant s) (h : step s a = some s') :
    Invariant s' := by
  cases a with
  | fork =>
    obtain rfl := Option.some.inj h
    exact Books.records hi (s.shareds + 1) s.touched s.finished
  | reserve context kind bytes =>
    simp only [step] at h
    split at h
    · rename_i hvalid
      obtain rfl := Option.some.inj h
      have hnew := reserve_invariant hi kind bytes (Bool.and_eq_true_iff.mp hvalid).1
      exact Books.records hnew s.shareds _ s.finished
    · cases h
  | reserveStep j interrupted =>
    obtain ⟨call, hj, h⟩ := Option.bind_eq_some_iff.mp h
    obtain ⟨out, hout, h⟩ := Option.bind_eq_some_iff.mp h
    obtain rfl := Option.some.inj h
    exact record_invariant (reserveStep_invariant hi hj hout)
  | grow r bytes =>
    simp only [step] at h
    split at h
    · exact begin_invariant hi h fun _ => Or.inl ⟨bytes, rfl⟩
    · cases h
  | shrink r bytes =>
    simp only [step] at h
    exact begin_invariant hi h fun _ => Or.inr (Or.inl ⟨bytes, rfl⟩)
  | withMemoryCredit context r =>
    simp only [step] at h
    split at h
    · exact begin_invariant hi h fun _ => Or.inr (Or.inr (Or.inl ⟨context, rfl⟩))
    · cases h
  | drop r =>
    simp only [step] at h
    exact begin_invariant hi h fun _ => Or.inr (Or.inr (Or.inr rfl))
  | dropCredit r => exact dropCredit_invariant hi h
  | slotStep r interrupted =>
    obtain ⟨slot, hr, h⟩ := Option.bind_eq_some_iff.mp h
    obtain ⟨out, hout, h⟩ := Option.bind_eq_some_iff.mp h
    obtain rfl := Option.some.inj h
    exact record_invariant (slotStep_invariant hi hr hout)

theorem reachable_invariant {limits : ResourceLimits} {s : State}
    (h : Reachable step (initial limits) s) : Invariant s :=
  h.invariant (initial_invariant limits) fun _ _ _ hi hs => step_invariant hi hs

end IntoMarkdown.Core.Memory
