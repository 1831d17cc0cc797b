import IntoMarkdown.Core.MemorySteps

/-! # What the memory pool guarantees

Exact and bounded counters between the calls, and failed calls that have
changed nothing. -/

namespace IntoMarkdown.Core.Memory
open Transition Slots Progress

/-! ## Failed calls change no counter -/

/-- The phases of a call that may still fail. -/
def Charge.undecided : Charge → Bool
  | .account | .charge _ _ => true
  | .peak _ _ => false

def Phase.undecided : Phase → Bool
  | .growCheck _ | .growUpgrade _ | .shrinkUpgrade _ | .lendUpgrade _ | .lendAttach _
  | .failing _ _ => true
  | .grow _ charge => charge.undecided
  | _ => false

def ReservePhase.undecided : ReservePhase → Bool
  | .check => true
  | .charging charge => charge.undecided
  | _ => false

/-- The call goes on undecided, or it fails. -/
def Failing (outcome : Option Outcome) (undecided : Bool) : Prop :=
  undecided = true ∨ ∃ e, outcome = some (.error e)

theorem not_failing_ok {undecided : Bool} (h : Failing (some (.ok ())) undecided) :
    undecided = true := by
  rcases h with h | ⟨e, h⟩
  · exact h
  · cases Option.some.inj h

section Failures
variable {s : State} {r : Nat} {slot : Slot}

theorem counters_setSlot {slot' : Slot} (hr : s.slots[r]? = some slot)
    (hb : slot'.reservation.bytes = slot.reservation.bytes) :
    counters (s.setSlot r slot') = counters s := by
  have hsame : (s.slots.set r slot').map (·.reservation.bytes) =
      s.slots.map (·.reservation.bytes) := map_set_of_eq hr hb
  simp only [counters, State.setSlot, hsame]

theorem counters_goOn (hr : s.slots[r]? = some slot) (phase : Phase) :
    counters (s.goOn r slot phase).1 = counters s := counters_setSlot hr rfl

theorem counters_upgrade {res : ResourceReservation} {s' : State} {c : Nat}
    (hu : upgrade s res = some (s', c)) : counters s' = counters s := by
  simp only [upgrade] at hu
  split at hu
  · cases hu
  · rename_i d _
    split at hu
    · rename_i credit hc
      split at hu
      · obtain ⟨rfl, -⟩ := Prod.mk.inj (Option.some.inj hu)
        have hsame : (s.credits.set d { credit with strong := credit.strong + 1 }).map (·.bytes) =
            s.credits.map (·.bytes) := map_set_of_eq hc rfl
        simp only [counters, hsame]
      · cases hu
    · cases hu

/-- A step of a charge after which the charge can still fail has changed nothing. -/
theorem chargeStep_undecided {kind : ResourceKind} {context : Context} {n : Nat}
    {charge : Charge} {s' : State} {next : Charge}
    (hstep : chargeStep s kind context n charge = .ok (s', some next))
    (hnext : next.undecided = true) : charge.undecided = true ∧ s' = s := by
  cases charge with
  | account =>
    obtain ⟨rfl, -⟩ := Prod.mk.inj (Except.ok.inj hstep)
    exact ⟨rfl, rfl⟩
  | charge counter limit =>
    simp only [chargeStep] at hstep
    split at hstep
    · cases hstep
    · split at hstep
      · cases (Prod.mk.inj (Except.ok.inj hstep)).2
      · obtain rfl := Option.some.inj (Prod.mk.inj (Except.ok.inj hstep)).2
        cases hnext
  | peak counter current => cases (Prod.mk.inj (Except.ok.inj hstep)).2

theorem chargeStep_error {kind : ResourceKind} {context : Context} {n : Nat} {charge : Charge}
    {e : ConversionError} (hstep : chargeStep s kind context n charge = .error e) :
    charge.undecided = true := by
  cases charge with
  | peak counter current => cases hstep
  | _ => rfl

/-- A step of a call that goes on undecided or fails was taken undecided, and
has changed no counter. -/
theorem slotStep_failing (hi : Invariant s) (hr : s.slots[r]? = some slot)
    {out : State × Option Outcome} {interrupted : Option Interruption}
    (h : slotStep s r slot interrupted = some out) {slot' : Slot}
    (hslot : out.1.slots[r]? = some slot') (hf : Failing out.2 slot'.phase.undecided) :
    slot.phase.undecided = true ∧ counters out.1 = counters s := by
  -- a step into a decided phase, or to a good end, is not one of a failing call
  have hdecided : ∀ {slots : List Slot} {next : Slot}, out.1.slots = slots.set r next →
      slots = s.slots → out.2 = none ∨ out.2 = some (.ok ()) → next.phase.undecided = false →
      False := by
    intro slots next ht hsame ho hn
    rw [ht, hsame, getElem?_set_self hr] at hslot
    obtain rfl := Option.some.inj hslot
    rcases hf with hf | ⟨e, hf⟩
    · rw [hf] at hn
      cases hn
    · rcases ho with ho | ho <;> rw [hf] at ho <;> cases ho
  cases hp : slot.phase with
  | idle | lent context | dropped => simp [slotStep, hp] at h
  | growCheck n =>
    refine ⟨rfl, ?_⟩
    simp only [slotStep, hp] at h
    split at h <;> obtain rfl := Option.some.inj h <;> exact counters_setSlot hr rfl
  | growUpgrade n =>
    refine ⟨rfl, ?_⟩
    simp only [slotStep, hp] at h
    split at h
    · rename_i s' c hu
      have hcount := counters_upgrade hu
      have hr' : s'.slots[r]? = some slot := by rw [(upgrade_frame hu).slots, hr]
      obtain rfl := Option.some.inj h
      exact (counters_goOn hr' _).trans hcount
    · split at h <;> obtain rfl := Option.some.inj h <;> exact counters_setSlot hr rfl
  | grow n charge =>
    simp only [slotStep, hp] at h
    split at h
    · rename_i s' next hstep
      obtain rfl := Option.some.inj h
      cases hnext : next.undecided with
      | true =>
        obtain ⟨hcharge, rfl⟩ := chargeStep_undecided hstep hnext
        exact ⟨hcharge, counters_setSlot hr rfl⟩
      | false =>
        have hs := (chargeStep_frame hstep).slots
        exact (hdecided rfl hs (Or.inl rfl) hnext).elim
    · rename_i s' hstep
      obtain rfl := Option.some.inj h
      have hs := (chargeStep_frame hstep).slots
      exact (hdecided rfl hs (Or.inl rfl) rfl).elim
    · rename_i e hstep
      obtain rfl := Option.some.inj h
      exact ⟨chargeStep_error hstep, counters_setSlot hr rfl⟩
  | growSettled n =>
    simp only [slotStep, hp] at h
    split at h
    · obtain rfl := Option.some.inj h
      exact (hdecided rfl rfl (Or.inl rfl) rfl).elim
    · obtain rfl := Option.some.inj h
      exact (hdecided rfl rfl (Or.inr rfl) rfl).elim
  | growBacking n =>
    simp only [slotStep, hp] at h
    obtain ⟨b, -, h⟩ := Option.bind_eq_some_iff.mp h
    obtain ⟨backing, -, h⟩ := Option.bind_eq_some_iff.mp h
    obtain rfl := Option.some.inj h
    exact (hdecided rfl rfl (Or.inr rfl) rfl).elim
  | shrinkUpgrade n =>
    refine ⟨rfl, ?_⟩
    simp only [slotStep, hp] at h
    split at h
    · rename_i s' c hu
      have hcount := counters_upgrade hu
      have hr' : s'.slots[r]? = some slot := by rw [(upgrade_frame hu).slots, hr]
      obtain rfl := Option.some.inj h
      exact (counters_goOn hr' _).trans hcount
    · split at h
      · split at h
        · obtain rfl := Option.some.inj h
          exact (hdecided rfl rfl (Or.inl rfl) rfl).elim
        · obtain rfl := Option.some.inj h
          exact (hdecided rfl rfl (Or.inl rfl) rfl).elim
      · obtain rfl := Option.some.inj h
        exact counters_setSlot hr rfl
  | shrinkBacking n =>
    simp only [slotStep, hp] at h
    obtain ⟨b, -, h⟩ := Option.bind_eq_some_iff.mp h
    obtain ⟨backing, -, h⟩ := Option.bind_eq_some_iff.mp h
    obtain rfl := Option.some.inj h
    exact (hdecided rfl rfl (Or.inl rfl) rfl).elim
  | shrinkCounter n =>
    simp only [slotStep, hp] at h
    obtain rfl := Option.some.inj h
    exact (hdecided rfl (subCounter_frame _ _).slots (Or.inr rfl) rfl).elim
  | lendUpgrade context =>
    refine ⟨rfl, ?_⟩
    simp only [slotStep, hp] at h
    split at h
    · split at h
      · obtain rfl := Option.some.inj h
        exact counters_setSlot hr rfl
      · split at h
        · rename_i s' c hu
          have hcount := counters_upgrade hu
          have hr' : s'.slots[r]? = some slot := by rw [(upgrade_frame hu).slots, hr]
          obtain rfl := Option.some.inj h
          exact (counters_goOn hr' _).trans hcount
        · obtain rfl := Option.some.inj h
          exact counters_setSlot hr rfl
    · obtain rfl := Option.some.inj h
      exact counters_setSlot hr rfl
  | lendAttach context =>
    simp only [slotStep, hp] at h
    obtain ⟨b, -, h⟩ := Option.bind_eq_some_iff.mp h
    obtain ⟨backing, -, h⟩ := Option.bind_eq_some_iff.mp h
    obtain rfl := Option.some.inj h
    exact (hdecided rfl rfl (Or.inr rfl) rfl).elim
  | returning todo =>
    cases todo with
    | nil =>
      simp only [slotStep, hp] at h
      obtain rfl := Option.some.inj h
      exact (hdecided rfl rfl (Or.inr rfl) rfl).elim
    | cons x rest =>
      simp only [slotStep, hp] at h
      obtain rfl := Option.some.inj h
      exact (hdecided rfl (releaseStep_frame x).slots (Or.inl rfl) rfl).elim
  | failing e todo =>
    refine ⟨rfl, ?_⟩
    cases todo with
    | nil =>
      simp only [slotStep, hp] at h
      obtain rfl := Option.some.inj h
      exact counters_setSlot hr rfl
    | cons x rest =>
      obtain ⟨-, -, hcount⟩ := failing_release hi hr hp
      simp only [slotStep, hp] at h
      have hr' : (releaseStep s x).1.slots[r]? = some slot := by rw [(releaseStep_frame x).slots, hr]
      obtain rfl := Option.some.inj h
      exact (counters_goOn hr' _).trans hcount
  | dropCounter =>
    simp only [slotStep, hp] at h
    obtain rfl := Option.some.inj h
    exact (hdecided rfl (subCounter_frame _ _).slots (Or.inl rfl) rfl).elim
  | dropping todo =>
    cases todo with
    | nil =>
      simp only [slotStep, hp] at h
      obtain rfl := Option.some.inj h
      exact (hdecided rfl rfl (Or.inr rfl) rfl).elim
    | cons x rest =>
      simp only [slotStep, hp] at h
      obtain rfl := Option.some.inj h
      exact (hdecided rfl (releaseStep_frame x).slots (Or.inl rfl) rfl).elim

/-- A step on a slot writes no other slot, no call and no limit. -/
theorem slotStep_frame {out : State × Option Outcome} {interrupted : Option Interruption}
    (h : slotStep s r slot interrupted = some out) :
    ∃ next, out.1.slots = s.slots.set r next ∧ out.1.reserves = s.reserves ∧
      out.1.limits = s.limits := by
  have framed : ∀ {t : State} {next : Slot}, Frame s t →
      ∃ n, (t.setSlot r next).slots = s.slots.set r n ∧
        (t.setSlot r next).reserves = s.reserves ∧ (t.setSlot r next).limits = s.limits :=
    fun hf => ⟨_, by rw [State.setSlot, hf.slots], hf.reserves, hf.limits⟩
  simp only [slotStep] at h
  split at h
  case h_1 | h_2 | h_3 => cases h
  case h_4 => split at h <;> obtain rfl := Option.some.inj h <;> exact ⟨_, rfl, rfl, rfl⟩
  case h_5 =>
    split at h
    · rename_i hu
      obtain rfl := Option.some.inj h
      exact framed (upgrade_frame hu)
    · split at h <;> obtain rfl := Option.some.inj h <;> exact ⟨_, rfl, rfl, rfl⟩
  case h_6 =>
    split at h
    · rename_i hstep
      obtain rfl := Option.some.inj h
      exact framed (chargeStep_frame hstep)
    · rename_i hstep
      obtain rfl := Option.some.inj h
      exact framed (chargeStep_frame hstep)
    · obtain rfl := Option.some.inj h
      exact ⟨_, rfl, rfl, rfl⟩
  case h_7 => split at h <;> obtain rfl := Option.some.inj h <;> exact ⟨_, rfl, rfl, rfl⟩
  case h_8 =>
    obtain ⟨b, -, h⟩ := Option.bind_eq_some_iff.mp h
    obtain ⟨backing, -, h⟩ := Option.bind_eq_some_iff.mp h
    obtain rfl := Option.some.inj h
    exact ⟨_, rfl, rfl, rfl⟩
  case h_9 =>
    split at h
    · rename_i hu
      obtain rfl := Option.some.inj h
      exact framed (upgrade_frame hu)
    · split at h
      · split at h <;> obtain rfl := Option.some.inj h <;> exact ⟨_, rfl, rfl, rfl⟩
      · obtain rfl := Option.some.inj h
        exact ⟨_, rfl, rfl, rfl⟩
  case h_10 =>
    obtain ⟨b, -, h⟩ := Option.bind_eq_some_iff.mp h
    obtain ⟨backing, -, h⟩ := Option.bind_eq_some_iff.mp h
    obtain rfl := Option.some.inj h
    exact ⟨_, rfl, rfl, rfl⟩
  case h_11 =>
    obtain rfl := Option.some.inj h
    exact framed (subCounter_frame _ _)
  case h_12 =>
    split at h
    · split at h
      · obtain rfl := Option.some.inj h
        exact ⟨_, rfl, rfl, rfl⟩
      · split at h
        · rename_i hu
          obtain rfl := Option.some.inj h
          exact framed (upgrade_frame hu)
        · obtain rfl := Option.some.inj h
          exact ⟨_, rfl, rfl, rfl⟩
    · obtain rfl := Option.some.inj h
      exact ⟨_, rfl, rfl, rfl⟩
  case h_13 =>
    obtain ⟨b, -, h⟩ := Option.bind_eq_some_iff.mp h
    obtain ⟨backing, -, h⟩ := Option.bind_eq_some_iff.mp h
    obtain rfl := Option.some.inj h
    exact ⟨_, rfl, rfl, rfl⟩
  case h_14 | h_16 | h_19 =>
    obtain rfl := Option.some.inj h
    exact framed (releaseStep_frame _)
  case h_15 | h_17 | h_20 =>
    obtain rfl := Option.some.inj h
    exact ⟨_, rfl, rfl, rfl⟩
  case h_18 =>
    obtain rfl := Option.some.inj h
    exact framed (subCounter_frame _ _)

theorem build_frame (s : State) (call : Reserve) :
    (build s call).reserves = s.reserves ∧ (build s call).limits = s.limits ∧
      ∃ new, (build s call).slots = s.slots ++ [new] ∧ new.phase = .idle := by
  simp only [build, State.cloneCredit]
  split
  · exact ⟨rfl, rfl, _, rfl, rfl⟩
  · split
    · exact ⟨rfl, rfl, _, rfl, rfl⟩
    · split <;> exact ⟨rfl, rfl, _, rfl, rfl⟩

/-- A step of a `reserve` call writes no other call and no limit, and adds at
most an idle slot. -/
theorem reserveStep_frame {j : Nat} {call : Reserve} {out : State × Option Outcome}
    {interrupted : Option Interruption} (h : reserveStep s j call interrupted = some out) :
    ∃ phase, out.1.reserves = s.reserves.set j { call with phase := phase } ∧
      out.1.limits = s.limits ∧
      (out.1.slots = s.slots ∨ ∃ new, out.1.slots = s.slots ++ [new] ∧ new.phase = .idle) := by
  have framed : ∀ {t : State} {phase : ReservePhase}, Frame s t →
      ∃ p, (t.setReserve j call phase).reserves = s.reserves.set j { call with phase := p } ∧
        (t.setReserve j call phase).limits = s.limits ∧
        ((t.setReserve j call phase).slots = s.slots ∨
          ∃ new, (t.setReserve j call phase).slots = s.slots ++ [new] ∧ new.phase = .idle) :=
    fun hf => ⟨_, by rw [State.setReserve, hf.reserves], hf.limits, Or.inl hf.slots⟩
  unfold reserveStep at h
  split at h
  case h_1 => cases h
  case h_2 =>
    split at h <;> obtain rfl := Option.some.inj h <;> exact framed ⟨rfl, rfl, rfl⟩
  case h_3 =>
    split at h
    · rename_i hstep
      obtain rfl := Option.some.inj h
      exact framed (chargeStep_frame hstep)
    · rename_i hstep
      obtain rfl := Option.some.inj h
      exact framed (chargeStep_frame hstep)
    · obtain rfl := Option.some.inj h
      exact framed ⟨rfl, rfl, rfl⟩
  case h_4 =>
    obtain rfl := Option.some.inj h
    obtain ⟨hres, hlimits, hslots⟩ := build_frame s call
    exact ⟨.done, by rw [State.setReserve, hres], hlimits, Or.inr hslots⟩

theorem reserveStep_failing {j : Nat} {call call' : Reserve} {out : State × Option Outcome}
    {interrupted : Option Interruption} (hj : s.reserves[j]? = some call)
    (h : reserveStep s j call interrupted = some out)
    (hcall : out.1.reserves[j]? = some call') (hf : Failing out.2 call'.phase.undecided) :
    call.phase.undecided = true ∧ counters out.1 = counters s := by
  have hset : ∀ {reserves : List Reserve} {phase : ReservePhase}, reserves = s.reserves →
      (reserves.set j { call with phase := phase })[j]? = some call' →
      call'.phase = phase := by
    intro reserves phase hs hn
    rw [hs, getElem?_set_self hj] at hn
    rw [← Option.some.inj hn]
  unfold reserveStep at h
  split at h
  case h_1 => cases h
  case h_2 hp =>
    rw [hp]
    split at h <;> obtain rfl := Option.some.inj h <;> exact ⟨rfl, rfl⟩
  case h_3 charge hp =>
    rw [hp]
    split at h
    · rename_i s' next hstep
      obtain rfl := Option.some.inj h
      have hphase := hset (chargeStep_frame hstep).reserves hcall
      rcases hf with hf | ⟨e, hf⟩
      · rw [hphase] at hf
        obtain ⟨hcharge, rfl⟩ := chargeStep_undecided hstep hf
        exact ⟨hcharge, rfl⟩
      · cases hf
    · rename_i s' hstep
      obtain rfl := Option.some.inj h
      have hphase := hset (chargeStep_frame hstep).reserves hcall
      rcases hf with hf | ⟨e, hf⟩
      · rw [hphase] at hf
        cases hf
      · cases hf
    · rename_i e hstep
      obtain rfl := Option.some.inj h
      exact ⟨chargeStep_error hstep, rfl⟩
  case h_4 hp =>
    obtain rfl := Option.some.inj h
    have hphase := hset (build_frame s call).1 hcall
    rw [hphase] at hf
    cases not_failing_ok hf

end Failures

/-- What the records say of every run: an undecided call has changed nothing,
nor had a failed one. -/
structure Untouched (s : State) : Prop where
  slots : ∀ (r : Nat) (slot : Slot), s.slots[r]? = some slot → slot.phase.undecided = true →
    s.touched (.slot r) = false
  reserves : ∀ (j : Nat) (call : Reserve), s.reserves[j]? = some call →
    call.phase.undecided = true → s.touched (.reserve j) = false
  finished : ∀ (e : ConversionError) (touched : Bool), (.error e, touched) ∈ s.finished →
    touched = false

theorem record_finished {s : State} {caller : Caller} {out : State × Option Outcome}
    (hs : Untouched s)
    (hf : (∃ e, out.2 = some (.error e)) → s.touched caller = false ∧ counters out.1 = counters s) :
    ∀ (e : ConversionError) (touched : Bool), (.error e, touched) ∈ (record s caller out).finished →
      touched = false := by
  intro e touched hm
  simp only [record, List.mem_append] at hm
  rcases hm with hm | hm
  · exact hs.finished e touched hm
  · cases hout : out.2 with
    | none => simp [hout] at hm
    | some outcome =>
      simp only [hout, Option.map_some, Option.toList_some, List.mem_singleton, Prod.mk.injEq] at hm
      obtain ⟨he, rfl⟩ := hm
      obtain ⟨hold, hcount⟩ := hf ⟨e, by rw [hout, ← he]⟩
      simp [hold, hcount]

theorem slotStep_untouched {s : State} {r : Nat} {slot : Slot} (hi : Invariant s)
    (hs : Untouched s) (hr : s.slots[r]? = some slot) {out : State × Option Outcome}
    {interrupted : Option Interruption} (h : slotStep s r slot interrupted = some out) :
    Untouched (record s (.slot r) out) := by
  obtain ⟨next, hslots, hreserves, -⟩ := slotStep_frame h
  have hnext : out.1.slots[r]? = some next := by rw [hslots, getElem?_set_self hr]
  have hfail : Failing out.2 next.phase.undecided →
      s.touched (.slot r) = false ∧ counters out.1 = counters s := by
    intro hf
    obtain ⟨hu, hcount⟩ := slotStep_failing hi hr h hnext hf
    exact ⟨hs.slots r slot hr hu, hcount⟩
  refine ⟨fun q other hq hu => ?_, fun j call hj hu => ?_,
    record_finished hs fun he => hfail (Or.inr he)⟩
  · simp only [record, hslots] at hq
    rcases getElem?_set_some hq with ⟨rfl, rfl⟩ | ⟨hne, hq⟩
    · obtain ⟨hold, hcount⟩ := hfail (Or.inl hu)
      simp [record, hold, hcount]
    · simp only [record, Caller.slot.injEq, hne, ↓reduceIte]
      exact hs.slots q other hq hu
  · simp only [record, hreserves] at hj
    simp only [record, reduceCtorEq, ↓reduceIte]
    exact hs.reserves j call hj hu

theorem reserveStep_untouched {s : State} {j : Nat} {call : Reserve} (hs : Untouched s)
    (hj : s.reserves[j]? = some call) {out : State × Option Outcome}
    {interrupted : Option Interruption} (h : reserveStep s j call interrupted = some out) :
    Untouched (record s (.reserve j) out) := by
  obtain ⟨phase, hreserves, -, hslots⟩ := reserveStep_frame h
  have hnext : out.1.reserves[j]? = some { call with phase := phase } := by
    rw [hreserves, getElem?_set_self hj]
  have hfail : Failing out.2 phase.undecided →
      s.touched (.reserve j) = false ∧ counters out.1 = counters s := by
    intro hf
    obtain ⟨hu, hcount⟩ := reserveStep_failing hj h hnext hf
    exact ⟨hs.reserves j call hj hu, hcount⟩
  refine ⟨fun q other hq hu => ?_, fun i other hi hu => ?_,
    record_finished hs fun he => hfail (Or.inr he)⟩
  · simp only [record, reduceCtorEq, ↓reduceIte]
    simp only [record] at hq
    rcases hslots with hslots | ⟨new, hslots, hidle⟩
    · rw [hslots] at hq
      exact hs.slots q other hq hu
    · rw [hslots] at hq
      rcases getElem?_snoc_some hq with ⟨-, rfl⟩ | hq
      · rw [hidle] at hu
        cases hu
      · exact hs.slots q other hq hu
  · simp only [record, hreserves] at hi
    rcases getElem?_set_some hi with ⟨rfl, rfl⟩ | ⟨hne, hi⟩
    · obtain ⟨hold, hcount⟩ := hfail (Or.inl hu)
      simp [record, hold, hcount]
    · simp only [record, Caller.reserve.injEq, hne, ↓reduceIte]
      exact hs.reserves i other hi hu

/-- A call on a slot begins, with nothing changed. -/
theorem untouch_untouched {s : State} {r : Nat} {slot : Slot} (hs : Untouched s) :
    Untouched ((s.setSlot r slot).untouch (.slot r)) where
  slots := by
    intro q other hq hu
    simp only [State.untouch, Caller.slot.injEq]
    split
    · rfl
    · rename_i hne
      rcases getElem?_set_some hq with ⟨rfl, -⟩ | ⟨-, hq⟩
      · exact absurd rfl hne
      · exact hs.slots q other hq hu
  reserves := hs.reserves
  finished := hs.finished

theorem begin_untouched {s s' : State} {r : Nat} {phase : ResourceReservation → Phase}
    (hs : Untouched s) (h : begin s r phase = some s') :
    Untouched s' ∧ s'.limits = s.limits := by
  obtain ⟨slot, -, h⟩ := Option.bind_eq_some_iff.mp h
  split at h
  · obtain rfl := Option.some.inj h
    exact ⟨untouch_untouched hs, rfl⟩
  · cases h

theorem step_untouched {s s' : State} {a : Action} (hi : Invariant s) (hs : Untouched s)
    (h : step s a = some s') : Untouched s' ∧ s'.limits = s.limits := by
  cases a with
  | fork =>
    obtain rfl := Option.some.inj h
    exact ⟨⟨hs.slots, hs.reserves, hs.finished⟩, rfl⟩
  | reserve context kind bytes =>
    simp only [step] at h
    split at h
    · obtain rfl := Option.some.inj h
      refine ⟨⟨hs.slots, fun j call hj hu => ?_, hs.finished⟩, rfl⟩
      simp only [State.untouch, Caller.reserve.injEq]
      split
      · rfl
      · rename_i hne
        rcases getElem?_snoc_some hj with ⟨hl, -⟩ | hj
        · exact absurd hl hne
        · exact hs.reserves j call hj hu
    · cases h
  | reserveStep j interrupted =>
    obtain ⟨call, hj, h⟩ := Option.bind_eq_some_iff.mp h
    obtain ⟨out, hout, h⟩ := Option.bind_eq_some_iff.mp h
    obtain rfl := Option.some.inj h
    obtain ⟨phase, -, hlimits, -⟩ := reserveStep_frame hout
    exact ⟨reserveStep_untouched hs hj hout, hlimits⟩
  | grow r bytes =>
    simp only [step] at h
    split at h
    · exact begin_untouched hs h
    · cases h
  | shrink r bytes =>
    simp only [step] at h
    exact begin_untouched hs h
  | withMemoryCredit context r =>
    simp only [step] at h
    split at h
    · exact begin_untouched hs h
    · cases h
  | drop r =>
    simp only [step] at h
    exact begin_untouched hs h
  | dropCredit r =>
    obtain ⟨slot, -, h⟩ := Option.bind_eq_some_iff.mp h
    split at h
    · split at h
      · obtain rfl := Option.some.inj h
        exact ⟨untouch_untouched hs, rfl⟩
      · cases h
    · cases h
  | slotStep r interrupted =>
    obtain ⟨slot, hr, h⟩ := Option.bind_eq_some_iff.mp h
    obtain ⟨out, hout, h⟩ := Option.bind_eq_some_iff.mp h
    obtain rfl := Option.some.inj h
    obtain ⟨next, -, -, hlimits⟩ := slotStep_frame hout
    exact ⟨slotStep_untouched hi hs hr hout, hlimits⟩

theorem reachable_untouched {limits : ResourceLimits} {s : State}
    (h : Reachable step (initial limits) s) : Untouched s ∧ s.limits = limits := by
  have hall := h.invariant (I := fun s => Invariant s ∧ Untouched s ∧ s.limits = limits)
    ⟨initial_invariant limits, ⟨by simp [initial], by simp [initial], by simp [initial]⟩, rfl⟩
    fun s a s' hi hs => by
      obtain ⟨hu, hl⟩ := step_untouched hi.1 hi.2.1 hs
      exact ⟨step_invariant hi.1 hs, hu, hl.trans hi.2.2⟩
  exact hall.2

/-! ## Between the calls -/

/-- No call is in progress. -/
def Quiescent (s : State) : Prop :=
  (∀ slot ∈ s.slots, slot.phase = .idle ∨ slot.phase = .dropped ∨
    ∃ context, slot.phase = .lent context) ∧
  ∀ call ∈ s.reserves, call.phase = .done

/-- The bytes of a live child of credit `c`. -/
def childBytes (c : Nat) (slot : Slot) : Nat :=
  if slot.phase ≠ .dropped ∧ slot.reservation.kind = .memory ∧
      slot.reservation.context.credit = some c
  then slot.reservation.bytes else 0

/-- Everything the pool guarantees: nothing wraps or passes a limit, between
the calls the counters are exact, a failed call has changed none of them, and
without reservations nothing is charged. -/
structure Accounted (limits : ResourceLimits) (s : State) : Prop where
  bounded : s.memoryBytes ≤ limits.maxMemoryBytes
  unwrapped : s.wrapped = false
  exact : Quiescent s → s.memoryBytes =
    ((s.backings.filter fun b => 0 < b.strong).map (·.bytes)).sum
  children : Quiescent s → ∀ (c : Nat) (credit : MemoryCredit), s.credits[c]? = some credit →
    0 < credit.strong → total (childBytes c) s.slots = credit.bytes
  covered : ∀ (c : Nat) (credit : MemoryCredit), s.credits[c]? = some credit →
    0 < credit.strong → ∃ backing, s.backings[credit.backing]? = some backing ∧
      credit.bytes ≤ backing.bytes
  failed : ∀ (e : ConversionError) (touched : Bool), (.error e, touched) ∈ s.finished →
    touched = false
  released : Quiescent s → (∀ slot ∈ s.slots, slot.phase = .dropped) → s.memoryBytes = 0

section Quiescent
variable {s : State}

theorem account_eq_credit {res : ResourceReservation} {c : Nat} :
    res.account = .credit c ↔ res.kind = .memory ∧ res.context.credit = some c := by
  cases hk : res.kind <;> cases hc : res.context.credit <;>
    simp [ResourceReservation.account, accountOf, hk, hc]

@[simp] theorem elim_zero {α : Type} (o : Option α) : (o.elim 0 fun _ => 0) = 0 := by
  cases o <;> rfl

/-- While its fields are alive a reservation holds no obligation, and bytes only
on the counter of a credit that it is charged to. -/
theorem SlotInv.reservation_held {slot : Slot} (h : SlotInv s slot) :
    (∀ b, slot.reservation.held (.duty b) = 0) ∧ slot.reservation.held (.bytes .memory) = 0 ∧
      ∀ c, slot.reservation.held (.bytes (.credit c)) =
        if slot.reservation.account = .credit c then slot.reservation.bytes else 0 := by
  cases hb : slot.reservation.globalMemoryBacking with
  | some b =>
    have hacc : slot.reservation.account = .memory := h.backed.mp (by simp [hb])
    refine ⟨fun d => ?_, ?_, fun c => ?_⟩ <;>
      simp [ResourceReservation.held, hb, only, hacc]
  | none =>
    have hacc : slot.reservation.account ≠ .memory := by
      intro hm
      have hsome := h.backed.mpr hm
      simp [hb] at hsome
    refine ⟨fun d => ?_, ?_, fun c => ?_⟩
    · simp [ResourceReservation.held, hb, only]
    · simp [ResourceReservation.held, hb, only, hacc.symm]
    · simp [ResourceReservation.held, hb, only, eq_comm]

/-- A reservation between calls holds no obligation and, of the pool's bytes,
none beside those of its backing. -/
theorem quiescent_held (hs : Invariant s) (hq : Quiescent s) {slot : Slot} (hm : slot ∈ s.slots) :
    (∀ b, slot.held (.duty b) = 0) ∧ slot.held (.bytes .memory) = 0 ∧
      ∀ c, slot.held (.bytes (.credit c)) = childBytes c slot := by
  obtain ⟨r, hr⟩ := List.mem_iff_getElem?.mp hm
  obtain ⟨hduty, hmemory, hcredit⟩ := (hs.shape.slots r slot hr).reservation_held
  rcases hq.1 slot hm with hp | hp | ⟨context, hp⟩
  · refine ⟨fun b => ?_, ?_, fun c => ?_⟩
    · simp [Slot.held, hp, Phase.owned, Phase.held, hduty]
    · simp [Slot.held, hp, Phase.owned, Phase.held, hmemory]
    · simp [Slot.held, hp, Phase.owned, Phase.held, hcredit, childBytes, account_eq_credit]
  · refine ⟨fun b => ?_, ?_, fun c => ?_⟩ <;>
      simp [Slot.held, hp, Phase.owned, Phase.held, childBytes]
  · refine ⟨fun b => ?_, ?_, fun c => ?_⟩
    · simp [Slot.held, hp, Phase.owned, Phase.held, hduty, only]
    · simp [Slot.held, hp, Phase.owned, Phase.held, hmemory, only]
    · simp [Slot.held, hp, Phase.owned, Phase.held, hcredit, only, childBytes, account_eq_credit]

theorem quiescent_reserve (hq : Quiescent s) {call : Reserve} (hm : call ∈ s.reserves) (x : Item) :
    call.held x = 0 := by
  simp [Reserve.held, hq.2 call hm]

/-- Between the calls a backing has been freed exactly when its last `Arc` is gone. -/
theorem quiescent_freed (hs : Invariant s) (hq : Quiescent s) {b : Nat} {backing : MemoryBacking}
    (hb : s.backings[b]? = some backing) : backing.freed = false ↔ 0 < backing.strong := by
  have hduty := hs.balance (.duty b)
  have hslots : total (Slot.held (.duty b)) s.slots = 0 :=
    total_eq_zero fun slot hm => (quiescent_held hs hq hm).1 b
  have hreserves : total (Reserve.held (.duty b)) s.reserves = 0 :=
    total_eq_zero fun call hm => quiescent_reserve hq hm _
  have hbackings : total (MemoryBacking.held (.duty b)) s.backings = 0 :=
    total_eq_zero fun d _ => by simp [MemoryBacking.held, only]
  have hcredits : total (MemoryCredit.held (.duty b)) s.credits = 0 :=
    total_eq_zero fun d _ => by simp [MemoryCredit.held, only]
  simp only [State.held, hslots, hreserves, hbackings, hcredits, State.supply, hb,
    Option.elim_some] at hduty
  constructor
  · intro hf
    simp only [hf, and_true] at hduty
    split at hduty <;> omega
  · intro hlive
    cases hf : backing.freed with
    | false => rfl
    | true =>
      have := hs.tables.freed b backing hb hf
      omega

theorem total_filter {α : Type} (p : α → Bool) (w : α → Nat) (l : List α) :
    total (fun a => if p a then w a else 0) l = ((l.filter p).map w).sum := by
  induction l with
  | nil => rfl
  | cons a l ih =>
    rw [total_cons, ih, List.filter_cons]
    split <;> simp

/-- Between the calls the pool's counter is the sum over the live backings. -/
theorem quiescent_memory (hs : Invariant s) (hq : Quiescent s) :
    s.memoryBytes = ((s.backings.filter fun b => 0 < b.strong).map (·.bytes)).sum := by
  have hmemory := hs.balance (.bytes .memory)
  have hslots : total (Slot.held (.bytes .memory)) s.slots = 0 :=
    total_eq_zero fun slot hm => (quiescent_held hs hq hm).2.1
  have hreserves : total (Reserve.held (.bytes .memory)) s.reserves = 0 :=
    total_eq_zero fun call hm => quiescent_reserve hq hm _
  have hcredits : total (MemoryCredit.held (.bytes .memory)) s.credits = 0 :=
    total_eq_zero fun d _ => by simp [MemoryCredit.held, only]
  have hbackings : total (MemoryBacking.held (.bytes .memory)) s.backings =
      total (fun b => if decide (0 < b.strong) then b.bytes else 0) s.backings := by
    apply total_congr
    intro backing hm
    obtain ⟨b, hb⟩ := List.mem_iff_getElem?.mp hm
    have hfreed := quiescent_freed hs hq hb
    cases hf : backing.freed <;> simp_all [MemoryBacking.held]
  simp only [State.held, hslots, hreserves, hcredits, hbackings, State.supply, State.counter]
    at hmemory
  rw [← total_filter]
  omega

/-- Between the calls a live credit shows what its live children hold. -/
theorem quiescent_children (hs : Invariant s) (hq : Quiescent s) {c : Nat}
    {credit : MemoryCredit} (hc : s.credits[c]? = some credit) :
    total (childBytes c) s.slots = credit.bytes := by
  have hcredit := hs.balance (.bytes (.credit c))
  have hslots : total (Slot.held (.bytes (.credit c))) s.slots = total (childBytes c) s.slots :=
    total_congr fun slot hm => (quiescent_held hs hq hm).2.2 c
  have hreserves : total (Reserve.held (.bytes (.credit c))) s.reserves = 0 :=
    total_eq_zero fun call hm => quiescent_reserve hq hm _
  have hcredits : total (MemoryCredit.held (.bytes (.credit c))) s.credits = 0 :=
    total_eq_zero fun d _ => by simp [MemoryCredit.held, only]
  have hbackings : total (MemoryBacking.held (.bytes (.credit c))) s.backings = 0 :=
    total_eq_zero fun d _ => by simp [MemoryBacking.held, only]
  simp only [State.held, hslots, hreserves, hcredits, hbackings, State.supply, State.counter,
    State.creditBytes, hc, Option.elim_some] at hcredit
  omega

/-- Without a reservation nothing refers to a credit, and then to a backing. -/
theorem quiescent_dead (hs : Invariant s) (hq : Quiescent s)
    (hdropped : ∀ slot ∈ s.slots, slot.phase = .dropped) {b : Nat} {backing : MemoryBacking}
    (hb : s.backings[b]? = some backing) : backing.strong = 0 := by
  have hslots : ∀ x, total (Slot.held x) s.slots = 0 := fun x =>
    total_eq_zero fun slot hm => by simp [Slot.held, hdropped slot hm, Phase.owned, Phase.held]
  have hreserves : ∀ x, total (Reserve.held x) s.reserves = 0 := fun x =>
    total_eq_zero fun call hm => quiescent_reserve hq hm x
  have hcredit : ∀ credit ∈ s.credits, credit.strong = 0 := by
    intro credit hm
    obtain ⟨c, hc⟩ := List.mem_iff_getElem?.mp hm
    have href := hs.balance (.creditRef c)
    have hbackings : total (MemoryBacking.held (.creditRef c)) s.backings = 0 :=
      total_eq_zero fun d _ => by simp [MemoryBacking.held, only]
    have hcredits : total (MemoryCredit.held (.creditRef c)) s.credits = 0 :=
      total_eq_zero fun d _ => by simp [MemoryCredit.held, only]
    simpa [State.held, hslots, hreserves, hbackings, hcredits, State.supply, State.creditStrong,
      hc] using href
  have href := hs.balance (.backingRef b)
  have hbackings : total (MemoryBacking.held (.backingRef b)) s.backings = 0 :=
    total_eq_zero fun d _ => by simp [MemoryBacking.held, only]
  have hcredits : total (MemoryCredit.held (.backingRef b)) s.credits = 0 :=
    total_eq_zero fun d hm => by simp [MemoryCredit.held, hcredit d hm]
  simpa [State.held, hslots, hreserves, hbackings, hcredits, State.supply, State.backingStrong,
    hb] using href

end Quiescent

/-- Every reachable state of a pool is accounted for. -/
theorem accounted {limits : ResourceLimits} {s : State} (h : Reachable step (initial limits) s) :
    Accounted limits s := by
  have hs : Invariant s := reachable_invariant h
  obtain ⟨huntouched, hlimits⟩ := reachable_untouched h
  exact {
    bounded := by rw [← hlimits]; exact hs.tables.memory_le
    unwrapped := hs.tables.unwrapped
    exact := quiescent_memory hs
    children := fun hq c credit hc _ => quiescent_children hs hq hc
    covered := by
      intro c credit hc hlive
      obtain ⟨backing, hb, -⟩ := hs.balance.credit_backing hc hlive
      have hcb : s.creditBacking c = some credit.backing := by simp [State.creditBacking, hc]
      have hle := (hs.tables.credits c _ hcb).2 (by simpa [State.creditStrong, hc] using hlive)
      simp only [State.creditBytes, State.backingBytes, hc, hb, Option.elim_some] at hle
      exact ⟨backing, hb, hle⟩
    failed := huntouched.finished
    released := by
      intro hq hdropped
      have hnone : s.backings.filter (fun b => decide (0 < b.strong)) = [] := by
        rw [List.filter_eq_nil_iff]
        intro backing hm
        obtain ⟨b, hb⟩ := List.mem_iff_getElem?.mp hm
        simp [quiescent_dead hs hq hdropped hb]
      rw [quiescent_memory hs hq, hnone]
      rfl }

def smallLimits : ResourceLimits := ⟨100, 100, by decide, by decide⟩

/-- A reservation of 10 bytes lends them to a child of 4 and is dropped first. -/
def detachedChild : List Action :=
  [.reserve ⟨0, none⟩ .memory 10, .reserveStep 0 none, .reserveStep 0 none, .reserveStep 0 none,
    .reserveStep 0 none, .reserveStep 0 none,
    .withMemoryCredit ⟨0, none⟩ 0, .slotStep 0 none, .slotStep 0 none,
    .reserve ⟨0, some 0⟩ .memory 4, .reserveStep 1 none, .reserveStep 1 none, .reserveStep 1 none,
    .reserveStep 1 none,
    .dropCredit 0, .slotStep 0 none, .slotStep 0 none,
    .drop 0, .slotStep 0 none, .slotStep 0 none]

/-- The child keeps the whole backing charged. -/
theorem accounted_detached_child : ∃ s, exec step (initial smallLimits) detachedChild = some s ∧
    s.memoryBytes = 10 ∧ Accounted smallLimits s := by
  have hrun : ((exec step (initial smallLimits) detachedChild).map (·.memoryBytes)) = some 10 := by
    decide
  obtain ⟨s, hs, hbytes⟩ := Option.map_eq_some_iff.mp hrun
  exact ⟨s, hs, hbytes, accounted ⟨detachedChild, hs⟩⟩

end IntoMarkdown.Core.Memory
