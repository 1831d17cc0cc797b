import IntoMarkdown.Core.Memory

/-! # The ledger of the memory pool

Bytes and `Arc`s are owned by exactly one party at a time: a reservation, a
guard, a backing, a credit, or a call that is about to give them back. What the
counters show is what the parties hold. -/

namespace IntoMarkdown.Core.Memory
open Slots

/-- What is counted. A `duty` is the obligation to subtract the bytes of a
backing whose last `Arc` is gone. -/
inductive Item where
  | bytes (counter : Account)
  | creditRef (c : Nat)
  | backingRef (b : Nat)
  | duty (b : Nat)
  deriving DecidableEq

/-- `n` of one item. -/
def only (item : Item) (n : Nat) (x : Item) : Nat := if x = item then n else 0

def Release.held : Release → Item → Nat
  | .credit c => only (.creditRef c) 1
  | .backing b => only (.backingRef b) 1
  | .load b => only (.duty b) 1
  | .sub bytes => only (.bytes .memory) bytes

def todoHeld (todo : List Release) (x : Item) : Nat := total (fun r => r.held x) todo

/-- The bytes that a charge has put on the counter. -/
def Charge.held (account : Account) (bytes : Nat) : Charge → Item → Nat
  | .peak _ _ => only (.bytes account) bytes
  | _ => fun _ => 0

/-- Whether the fields of the reservation are still alive. -/
def Phase.owned : Phase → Bool
  | .dropping _ | .dropped => false
  | _ => true

/-- What a call on the slot holds beside the reservation itself. -/
def Phase.held (account : Account) : Phase → Item → Nat
  | .grow bytes charge => charge.held account bytes
  | .growSettled bytes | .growBacking bytes | .shrinkCounter bytes =>
    only (.bytes account) bytes
  | .lent context => fun x => (context.credit.elim 0 fun c => only (.creditRef c) 1 x)
  | .returning todo | .failing _ todo | .dropping todo => todoHeld todo
  | _ => fun _ => 0

/-- What a reservation holds while its fields are alive: the `Arc`s, and its
bytes unless the backing has them. -/
def ResourceReservation.held (r : ResourceReservation) (x : Item) : Nat :=
  (r.context.credit.elim 0 fun c => only (.creditRef c) 1 x) +
    (match r.globalMemoryBacking with
      | some b => only (.backingRef b) 1 x
      | none => only (.bytes r.account) r.bytes x)

def Slot.held (x : Item) (slot : Slot) : Nat :=
  (if slot.phase.owned then slot.reservation.held x else 0) +
    slot.phase.held slot.reservation.account x

def MemoryBacking.held (x : Item) (b : MemoryBacking) : Nat :=
  if b.freed then 0 else only (.bytes .memory) b.bytes x

def MemoryCredit.held (x : Item) (c : MemoryCredit) : Nat :=
  if 0 < c.strong then only (.backingRef c.backing) 1 x else 0

def Reserve.held (x : Item) (call : Reserve) : Nat :=
  match call.phase with
  | .charging charge => charge.held (accountOf call.kind call.context) call.bytes x
  | .build => only (.bytes (accountOf call.kind call.context)) call.bytes x
  | _ => 0

/-- What the counters show. -/
def State.supply (s : State) : Item → Nat
  | .bytes counter => s.counter counter
  | .creditRef c => s.creditStrong c
  | .backingRef b => s.backingStrong b
  | .duty b => (s.backings[b]?).elim 0 fun backing =>
    if backing.strong = 0 ∧ backing.freed = false then 1 else 0

/-- What the parties hold. -/
def State.held (s : State) (x : Item) : Nat :=
  total (MemoryBacking.held x) s.backings + total (MemoryCredit.held x) s.credits +
    total (Slot.held x) s.slots + total (Reserve.held x) s.reserves

/-- The books balance, with `hand` held by a step in progress. -/
def Balance (s : State) (hand : Item → Nat) : Prop :=
  ∀ x, s.supply x = s.held x + hand x

theorem Balance.congr {s : State} {h h' : Item → Nat} (hb : Balance s h) (hh : ∀ x, h x = h' x) :
    Balance s h' := by
  intro x
  rw [hb x, hh x]

@[simp] theorem only_self (item : Item) (n : Nat) : only item n item = n := if_pos rfl

@[simp] theorem only_zero (item x : Item) : only item 0 x = 0 := by
  unfold only
  split <;> rfl

@[simp] theorem todoHeld_nil (x : Item) : todoHeld [] x = 0 := rfl

@[simp] theorem todoHeld_cons (r : Release) (todo : List Release) (x : Item) :
    todoHeld (r :: todo) x = r.held x + todoHeld todo x := total_cons

@[simp] theorem todoHeld_append (todo todo' : List Release) (x : Item) :
    todoHeld (todo ++ todo') x = todoHeld todo x + todoHeld todo' x := by
  induction todo with
  | nil => simp
  | cons r todo ih =>
    simp only [List.cons_append, todoHeld_cons, ih]
    omega

/-! ## Steps that keep the balance -/

section Steps
variable {s : State} {h h' : Item → Nat}

theorem Balance.setSlot {r : Nat} {slot slot' : Slot} (hb : Balance s h)
    (hr : s.slots[r]? = some slot) (hx : ∀ x, slot.held x + h x = slot'.held x + h' x) :
    Balance (s.setSlot r slot') h' := by
  intro x
  have hsupply : (s.setSlot r slot').supply x = s.supply x := by cases x <;> rfl
  have hset := total_set (w := Slot.held x) (a := slot') hr
  have hbx := hb x
  have hxx := hx x
  simp only [State.held] at hbx
  rw [hsupply]
  simp only [State.held, State.setSlot]
  omega

theorem Balance.setReserve {j : Nat} {call : Reserve} {phase : ReservePhase} (hb : Balance s h)
    (hj : s.reserves[j]? = some call)
    (hx : ∀ x, call.held x + h x = { call with phase := phase : Reserve }.held x + h' x) :
    Balance (s.setReserve j call phase) h' := by
  intro x
  have hsupply : (s.setReserve j call phase).supply x = s.supply x := by cases x <;> rfl
  have hset := total_set (w := Reserve.held x) (a := { call with phase := phase }) hj
  have hbx := hb x
  have hxx := hx x
  simp only [State.held] at hbx
  rw [hsupply]
  simp only [State.held, State.setReserve]
  omega

/-- A counter of a credit that does not exist shows zero. -/
theorem setCounter_supply {counter : Account} {value : Nat}
    (hv : ∀ c, counter = .credit c → s.credits[c]? = none → value = 0) (x : Item) :
    (s.setCounter counter value).supply x =
      if x = .bytes counter then value else s.supply x := by
  cases counter with
  | memory =>
    cases x with
    | bytes a => cases a <;> rfl
    | _ => rfl
  | temporary =>
    cases x with
    | bytes a => cases a <;> rfl
    | _ => rfl
  | credit c =>
    cases hc : s.credits[c]? with
    | none =>
      simp only [State.setCounter, hc]
      split
      · rename_i hx
        rw [hx, hv c rfl hc]
        simp [State.supply, State.counter, State.creditBytes, hc]
      · rfl
    | some credit =>
      simp only [State.setCounter, hc]
      cases x with
      | bytes a =>
        cases a with
        | credit d =>
          simp only [State.supply, State.counter, State.creditBytes, elim_set hc, Item.bytes.injEq,
            Account.credit.injEq]
        | _ => rfl
      | creditRef d =>
        simp only [State.supply, State.creditStrong, elim_set hc, reduceCtorEq, ↓reduceIte]
        split
        · rename_i hd
          subst hd
          simp [hc]
        · rfl
      | _ => rfl

theorem setCounter_held {counter : Account} {value : Nat} (x : Item) :
    (s.setCounter counter value).held x = s.held x := by
  cases counter with
  | credit c =>
    simp only [State.setCounter]
    split
    · rename_i credit hc
      have hset := total_set (w := MemoryCredit.held x) (a := { credit with bytes := value }) hc
      have hsame : MemoryCredit.held x { credit with bytes := value } = credit.held x := rfl
      simp only [State.held]
      omega
    · rfl
  | _ => rfl

theorem counter_eq_zero {c : Nat} (hc : s.credits[c]? = none) :
    s.counter (.credit c) = 0 := by
  simp [State.counter, State.creditBytes, hc]

theorem Balance.charge {counter : Account} {n : Nat} (hb : Balance s h)
    (hc : ∀ c, counter = .credit c → (s.credits[c]?).isSome) :
    Balance (s.setCounter counter (s.counter counter + n))
      (fun x => h x + only (.bytes counter) n x) := by
  intro x
  rw [setCounter_held, setCounter_supply]
  · have hbx := hb x
    simp only [only]
    split
    · rename_i hx
      subst hx
      simp only [State.supply] at hbx
      omega
    · omega
  · intro c hcc hnone
    have := hc c hcc
    simp [hnone] at this

theorem fetchSub_of_le {a n : Nat} (hn : n ≤ a) (ha : a < u64Modulus) : fetchSub a n = a - n := by
  unfold fetchSub u64Modulus at *
  omega

theorem fetchAdd_of_lt {a n : Nat} (h : a + n < u64Modulus) : fetchAdd a n = a + n :=
  Nat.mod_eq_of_lt h

/-- What the hand holds is on the counter. -/
theorem Balance.hand_le (hb : Balance s h) (x : Item) : h x ≤ s.supply x := by
  have := hb x
  omega

theorem Balance.subCounter {counter : Account} {n : Nat}
    (hb : Balance s (fun x => h x + only (.bytes counter) n x))
    (hlt : s.counter counter < u64Modulus) :
    Balance (s.subCounter counter n) h ∧ (s.subCounter counter n).wrapped = s.wrapped ∧
      (s.subCounter counter n).counter counter = s.counter counter - n := by
  have hle : n ≤ s.counter counter := by
    have := hb.hand_le (.bytes counter)
    simp only [only_self, State.supply] at this
    omega
  have hv : ∀ c, counter = .credit c → s.credits[c]? = none → s.counter counter - n = 0 := by
    rintro c rfl hnone
    rw [counter_eq_zero hnone, Nat.zero_sub]
  have hsub : fetchSub (s.counter counter) n = s.counter counter - n := fetchSub_of_le hle hlt
  refine ⟨?_, ?_, ?_⟩
  · intro x
    have hs : (s.subCounter counter n).supply x =
        (s.setCounter counter (s.counter counter - n)).supply x := by
      rw [← hsub]
      cases x <;> rfl
    have hh : (s.subCounter counter n).held x =
        (s.setCounter counter (s.counter counter - n)).held x := by
      rw [← hsub]
      rfl
    rw [hs, hh, setCounter_held, setCounter_supply hv]
    have hbx := hb x
    simp only [only] at hbx
    split
    · rename_i hx
      subst hx
      simp only [State.supply, ↓reduceIte] at hbx
      omega
    · rename_i hx
      simp only [hx, ↓reduceIte] at hbx
      omega
  · simp only [State.subCounter, Bool.or_eq_left_iff_imp, decide_eq_true_eq]
    omega
  · have hs := setCounter_supply hv (.bytes counter)
    simp only [↓reduceIte] at hs
    rw [← hsub] at hs
    exact hs.trans hsub

/-- What the counters of one credit show. -/
def MemoryCredit.supply (c : Nat) (credit : MemoryCredit) (x : Item) : Nat :=
  only (.creditRef c) credit.strong x + only (.bytes (.credit c)) credit.bytes x

/-- What the counters of one backing show. -/
def MemoryBacking.supply (b : Nat) (backing : MemoryBacking) (x : Item) : Nat :=
  only (.backingRef b) backing.strong x +
    only (.duty b) (if backing.strong = 0 ∧ backing.freed = false then 1 else 0) x

theorem setCredit_supply {c : Nat} {credit : MemoryCredit} (credit' : MemoryCredit)
    (hc : s.credits[c]? = some credit) (x : Item) :
    { s with credits := s.credits.set c credit' : State }.supply x + credit.supply c x =
      s.supply x + credit'.supply c x := by
  cases x with
  | bytes a =>
    cases a with
    | credit d =>
      simp only [State.supply, State.counter, State.creditBytes, elim_set hc, MemoryCredit.supply,
        only, reduceCtorEq, ↓reduceIte, Item.bytes.injEq, Account.credit.injEq]
      split
      · rename_i hd
        subst hd
        simp only [hc, Option.elim_some]
        omega
      · rfl
    | _ => simp [State.supply, State.counter, MemoryCredit.supply, only]
  | creditRef d =>
    simp only [State.supply, State.creditStrong, elim_set hc, MemoryCredit.supply, only,
      reduceCtorEq, ↓reduceIte, Item.creditRef.injEq]
    split
    · rename_i hd
      subst hd
      simp only [hc, Option.elim_some]
      omega
    · rfl
  | _ => simp [State.supply, State.backingStrong, MemoryCredit.supply, only]

theorem setBacking_supply {b : Nat} {backing : MemoryBacking} (backing' : MemoryBacking)
    (hb : s.backings[b]? = some backing) (x : Item) :
    { s with backings := s.backings.set b backing' : State }.supply x + backing.supply b x =
      s.supply x + backing'.supply b x := by
  cases x with
  | backingRef d =>
    simp only [State.supply, State.backingStrong, elim_set hb, MemoryBacking.supply, only,
      reduceCtorEq, ↓reduceIte, Item.backingRef.injEq]
    split
    · rename_i hd
      subst hd
      simp only [hb, Option.elim_some]
      omega
    · rfl
  | duty d =>
    simp only [State.supply, elim_set hb, MemoryBacking.supply, only, reduceCtorEq, ↓reduceIte,
      Item.duty.injEq]
    by_cases hd : d = b
    · subst hd
      simp only [hb, Option.elim_some, ↓reduceIte]
      omega
    · simp only [hd, ↓reduceIte]
  | creditRef d => simp [State.supply, State.creditStrong, MemoryBacking.supply, only]
  | bytes a => cases a <;> simp [State.supply, State.counter, State.creditBytes,
      MemoryBacking.supply, only]

theorem Balance.setCredit {c : Nat} {credit credit' : MemoryCredit} (hb : Balance s h)
    (hc : s.credits[c]? = some credit)
    (hx : ∀ x, credit'.supply c x + credit.held x + h x =
      credit.supply c x + credit'.held x + h' x) :
    Balance { s with credits := s.credits.set c credit' } h' := by
  intro x
  have hsupply := setCredit_supply credit' hc x
  have hset := total_set (w := MemoryCredit.held x) (a := credit') hc
  have hbx := hb x
  have hxx := hx x
  simp only [State.held] at hbx ⊢
  omega

theorem Balance.setBacking {b : Nat} {backing backing' : MemoryBacking} (hb : Balance s h)
    (hbb : s.backings[b]? = some backing)
    (hx : ∀ x, backing'.supply b x + backing.held x + h x =
      backing.supply b x + backing'.held x + h' x) :
    Balance { s with backings := s.backings.set b backing' } h' := by
  intro x
  have hsupply := setBacking_supply backing' hbb x
  have hset := total_set (w := MemoryBacking.held x) (a := backing') hbb
  have hbx := hb x
  have hxx := hx x
  simp only [State.held] at hbx ⊢
  omega

/-- `Arc::clone` of a live credit. -/
theorem Balance.cloneCredit {c : Nat} {credit : MemoryCredit} (hb : Balance s h)
    (hc : s.credits[c]? = some credit) (hlive : 0 < credit.strong) :
    Balance { s with credits := s.credits.set c { credit with strong := credit.strong + 1 } }
      (fun x => h x + only (.creditRef c) 1 x) := by
  refine hb.setCredit hc fun x => ?_
  simp only [MemoryCredit.supply, MemoryCredit.held, only, hlive, ↓reduceIte, Nat.succ_pos]
  split <;> omega

/-- The drop of an `Arc` to a credit. -/
theorem Balance.releaseCredit {c : Nat} {credit : MemoryCredit}
    (hb : Balance s (fun x => h x + only (.creditRef c) 1 x))
    (hc : s.credits[c]? = some credit) :
    0 < credit.strong ∧
    Balance { s with credits := s.credits.set c { credit with strong := credit.strong - 1 } }
      (fun x => h x +
        todoHeld (if credit.strong = 1 then [.backing credit.backing] else []) x) := by
  have hlive : 0 < credit.strong := by
    have hle := hb.hand_le (.creditRef c)
    simp only [only_self, State.supply, State.creditStrong, hc, Option.elim_some] at hle
    omega
  refine ⟨hlive, hb.setCredit hc fun x => ?_⟩
  by_cases hone : credit.strong = 1
  · simp only [hone, MemoryCredit.supply, MemoryCredit.held, only, ↓reduceIte, todoHeld_cons,
      todoHeld_nil, Release.held, Nat.lt_irrefl, Nat.sub_self, Nat.zero_lt_one]
    split <;> omega
  · have hpos : 0 < credit.strong - 1 := by omega
    simp only [hone, MemoryCredit.supply, MemoryCredit.held, only, ↓reduceIte, todoHeld_nil,
      hlive, hpos]
    split <;> omega

/-- The drop of an `Arc` to a backing. -/
theorem Balance.releaseBacking {b : Nat} {backing : MemoryBacking}
    (hb : Balance s (fun x => h x + only (.backingRef b) 1 x))
    (hbb : s.backings[b]? = some backing) (hfreed : backing.freed → backing.strong = 0) :
    0 < backing.strong ∧
    Balance { s with
      backings := s.backings.set b { backing with strong := backing.strong - 1 } }
      (fun x => h x + todoHeld (if backing.strong = 1 then [.load b] else []) x) := by
  have hlive : 0 < backing.strong := by
    have hle := hb.hand_le (.backingRef b)
    simp only [only_self, State.supply, State.backingStrong, hbb, Option.elim_some] at hle
    omega
  have hopen : backing.freed = false := by
    cases hf : backing.freed with
    | false => rfl
    | true =>
      have := hfreed hf
      omega
  refine ⟨hlive, hb.setBacking hbb fun x => ?_⟩
  by_cases hone : backing.strong = 1
  · simp only [hone, MemoryBacking.supply, MemoryBacking.held, only, ↓reduceIte, todoHeld_cons,
      todoHeld_nil, Release.held, Nat.sub_self, hopen, and_self, Nat.one_ne_zero, false_and,
      ite_self]
    omega
  · have hpos : backing.strong - 1 ≠ 0 := by omega
    have hne : backing.strong ≠ 0 := by omega
    simp only [hone, MemoryBacking.supply, MemoryBacking.held, only, ↓reduceIte, todoHeld_nil,
      hne, hpos, false_and, ite_self]
    split <;> omega

/-- `Drop for MemoryBacking` reads the bytes that it will subtract. -/
theorem Balance.releaseLoad {b : Nat} {backing : MemoryBacking}
    (hb : Balance s (fun x => h x + only (.duty b) 1 x))
    (hbb : s.backings[b]? = some backing) :
    (backing.strong = 0 ∧ backing.freed = false) ∧
    Balance { s with backings := s.backings.set b { backing with freed := true } }
      (fun x => h x + todoHeld [.sub backing.bytes] x) := by
  have hduty : backing.strong = 0 ∧ backing.freed = false := by
    have hle := hb.hand_le (.duty b)
    simp only [only_self, State.supply, hbb, Option.elim_some] at hle
    by_cases hd : backing.strong = 0 ∧ backing.freed = false
    · exact hd
    · simp only [hd, ↓reduceIte] at hle
      omega
  refine ⟨hduty, hb.setBacking hbb fun x => ?_⟩
  simp only [MemoryBacking.supply, MemoryBacking.held, only, ↓reduceIte, todoHeld_cons,
    todoHeld_nil, Release.held, hduty, and_self, Bool.true_eq_false, and_false,
    Bool.false_eq_true, ite_self]
  omega

/-- The bytes of a live backing grow into what the call has charged, or give
back what the call will subtract. -/
theorem Balance.resizeBacking {b n : Nat} {backing : MemoryBacking} (hb : Balance s h)
    (hbb : s.backings[b]? = some backing) (hopen : backing.freed = false)
    (hx : ∀ x, only (.bytes .memory) backing.bytes x + h x =
      only (.bytes .memory) n x + h' x) :
    Balance { s with backings := s.backings.set b { backing with bytes := n } } h' := by
  refine hb.setBacking hbb fun x => ?_
  have hxx := hx x
  simp only [MemoryBacking.supply, MemoryBacking.held, hopen, Bool.false_eq_true, ↓reduceIte]
  omega

theorem Balance.pushCredit {credit : MemoryCredit} (hb : Balance s h)
    (hx : ∀ x, credit.supply s.credits.length x + h x = credit.held x + h' x) :
    Balance { s with credits := s.credits ++ [credit] } h' := by
  intro x
  have hbx := hb x
  have hxx := hx x
  have hsupply : { s with credits := s.credits ++ [credit] : State }.supply x =
      s.supply x + credit.supply s.credits.length x := by
    cases x with
    | bytes a =>
      cases a with
      | credit d =>
        simp only [State.supply, State.counter, State.creditBytes, elim_snoc, MemoryCredit.supply,
          only, reduceCtorEq, ↓reduceIte, Item.bytes.injEq, Account.credit.injEq, Nat.zero_add]
        split
        · rename_i hd
          simp [hd]
        · rfl
      | _ => simp [State.supply, State.counter, MemoryCredit.supply, only]
    | creditRef d =>
      simp only [State.supply, State.creditStrong, elim_snoc, MemoryCredit.supply, only,
        reduceCtorEq, ↓reduceIte, Item.creditRef.injEq, Nat.add_zero]
      split
      · rename_i hd
        simp [hd]
      · rfl
    | _ => simp [State.supply, State.backingStrong, MemoryCredit.supply, only]
  rw [hsupply]
  simp only [State.held, total_snoc] at hbx ⊢
  omega

theorem Balance.pushBacking {n : Nat}
    (hb : Balance s (fun x => h x + only (.bytes .memory) n x)) :
    Balance { s with backings := s.backings ++ [{ bytes := n }] }
      (fun x => h x + only (.backingRef s.backings.length) 1 x) := by
  intro x
  have hbx := hb x
  have hsupply : { s with backings := s.backings ++ [{ bytes := n }] : State }.supply x =
      s.supply x + only (.backingRef s.backings.length) 1 x := by
    cases x with
    | backingRef d =>
      simp only [State.supply, State.backingStrong, elim_snoc, only, Item.backingRef.injEq]
      split
      · rename_i hd
        simp [hd]
      · rfl
    | duty d =>
      simp only [State.supply, elim_snoc, only, reduceCtorEq, ↓reduceIte, Nat.add_zero]
      split
      · rename_i hd
        simp [hd]
      · rfl
    | creditRef d => simp [State.supply, State.creditStrong, only]
    | bytes a => cases a <;> simp [State.supply, State.counter, State.creditBytes, only]
  rw [hsupply]
  have hheld : MemoryBacking.held x { bytes := n } = only (.bytes .memory) n x := by
    simp [MemoryBacking.held]
  simp only [State.held, total_snoc] at hbx ⊢
  omega

theorem Balance.pushSlot {slot : Slot} (hb : Balance s (fun x => h x + slot.held x)) :
    Balance { s with slots := s.slots ++ [slot] } h := by
  intro x
  have hbx := hb x
  have hsupply : { s with slots := s.slots ++ [slot] : State }.supply x = s.supply x := by
    cases x <;> rfl
  rw [hsupply]
  simp only [State.held, total_snoc] at hbx ⊢
  omega

theorem Balance.pushReserve {call : Reserve} (hb : Balance s h) (hcall : ∀ x, call.held x = 0) :
    Balance { s with reserves := s.reserves ++ [call] } h := by
  intro x
  have hbx := hb x
  have hx := hcall x
  have hsupply : { s with reserves := s.reserves ++ [call] : State }.supply x = s.supply x := by
    cases x <;> rfl
  rw [hsupply]
  simp only [State.held, total_snoc] at hbx ⊢
  omega

end Steps

end IntoMarkdown.Core.Memory
