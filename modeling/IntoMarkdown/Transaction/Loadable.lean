import IntoMarkdown.Transaction.Slots

/-! # Which journal is loaded

Every slot holds the text of an accepted journal or nothing that can be read, and
the journal's generation agrees with its slot; so the newest one is loaded. -/

namespace IntoMarkdown.Transaction
open Transition

variable {f : JournalFormat} {p : Place} {nonce : String}

/-! ## One slot -/

/-- The file holds the text of an accepted journal. -/
structure Stored (f : JournalFormat) (p : Place) (nonce : String) (file : Option Bytes)
    (j : Journal) : Prop where
  accepted : Accepted p nonce j
  fits : (f.encode j).length ≤ maxJournalBytes
  text : file = some (f.encode j) ∨ file = some (f.encode j ++ [newline])

/-- Neither reader takes anything from the file. -/
def Unreadable (f : JournalFormat) (file : Option Bytes) : Prop :=
  loadSlotValue f.decode file = none ∧ loadSlotValue f.generation file = none

/-- What the file shows of a journal. -/
def Shows (f : JournalFormat) (p : Place) (nonce : String) (file : Option Bytes) :
    Option Journal → Prop
  | some j => Stored f p nonce file j
  | none => Unreadable f file

theorem loadSlotValue_text {α : Type} {decode : Bytes → Option α} {text : Bytes} {v : Option α}
    {file : Option Bytes} (hfits : text.length ≤ maxJournalBytes) (htext : decode text = v)
    (hnewline : decode (text ++ [newline]) = v)
    (hfile : file = some text ∨ file = some (text ++ [newline])) :
    loadSlotValue decode file = v := by
  rcases hfile with rfl | rfl
  · have hlong : ¬ maxJournalBytes + 1 < text.length := by omega
    simp [loadSlotValue, slotBoundaryIsValid, hfits, hlong, htext]
  · have hlong : ¬ maxJournalBytes + 1 < text.length + 1 := by omega
    simp [loadSlotValue, slotBoundaryIsValid, hlong, hnewline]

theorem Shows.decode (hf : f.Lawful) {file : Option Bytes} {c : Option Journal}
    (h : Shows f p nonce file c) : loadSlotValue f.decode file = c := by
  cases c with
  | none => exact h.1
  | some j =>
    exact loadSlotValue_text h.fits (hf.decode_encode j) (hf.decode_newline j) h.text

theorem Shows.generation (hf : f.Lawful) {file : Option Bytes} {c : Option Journal}
    (h : Shows f p nonce file c) : loadSlotValue f.generation file = c.map (·.generation) := by
  cases c with
  | none => exact h.2
  | some j =>
    exact loadSlotValue_text h.fits (hf.generation_encode j) (hf.generation_newline j) h.text

theorem Shows.load (hf : f.Lawful) {s : Slots} {name : SlotName} {c : Option Journal}
    (h : Shows f p nonce (s.get name) c) : loadValidJournalSlot f p nonce s name = c := by
  unfold loadValidJournalSlot
  rw [h.decode hf]
  cases c with
  | none => rfl
  | some j =>
    obtain ⟨⟨hnonce, hvalid⟩, -, -⟩ := h
    simp [hnonce, hvalid, Except.isOk, Except.toBool]

/-- A file that lacks a part of the text is not read. -/
theorem unreadable_cut (hf : f.Lawful) (j : Journal) {part more : Bytes}
    (h : f.encode j = part ++ more) (hmore : more ≠ []) : Unreadable f (some part) := by
  have hdecode := hf.decode_cut j part more h hmore
  have hgeneration := hf.generation_cut j part more h hmore
  constructor <;> simp [loadSlotValue, hdecode, hgeneration]

/-! ## Both slots -/

/-- The newer one of two journals. -/
def newest : Option Journal → Option Journal → Option Journal
  | none, b => b
  | a, none => a
  | some a, some b => if b.generation ≤ a.generation then some a else some b

/-- With slots of different generations the newest journal is loaded. -/
theorem loadSlots_newest (hf : f.Lawful) {s : Slots} {a b : Option Journal}
    (ha : Shows f p nonce (s.get .journalA) a) (hb : Shows f p nonce (s.get .journalB) b)
    (hne : ∀ i j, a = some i → b = some j → i.generation ≠ j.generation) :
    loadSlots f p nonce s = (newest a b).elim
      (.error (recoveryError s!"no valid signed journal in {p.directoryName}")) .ok := by
  have hla := ha.load hf
  have hlb := hb.load hf
  unfold loadSlots probeSlots
  simp only [List.filterMap_cons, List.filterMap_nil, ha.generation hf, hb.generation hf]
  cases a with
  | none =>
    cases b with
    | none => rfl
    | some j => simp [selectSlot, hlb, newest]; rfl
  | some i =>
    cases b with
    | none => simp [selectSlot, hla, newest]; rfl
    | some j =>
      have hij := hne i j rfl rfl
      by_cases hle : j.generation ≤ i.generation
      · simp [selectSlot, hla, newest, hle, List.insertionSort, hij.symm]
        rfl
      · simp [selectSlot, hlb, newest, hle, List.insertionSort, List.orderedInsert, hij]
        rfl

theorem loadValidJournalSlot_accepted {s : Slots} {name : SlotName} {j : Journal}
    (h : loadValidJournalSlot f p nonce s name = some j) : validateJournal p j = .ok () := by
  obtain ⟨i, -, hi⟩ := Option.bind_eq_some_iff.mp h
  split_ifs at hi with hbad
  obtain rfl := Option.some.inj hi
  cases hvalid : validateJournal p i with
  | error e => simp [hvalid, Except.isOk, Except.toBool] at hbad
  | ok _ => rfl

theorem selectSlot_accepted {s : Slots} {probes : List (SlotName × UInt64)} {j : Journal}
    (h : selectSlot f p nonce s probes = .ok (some j)) : validateJournal p j = .ok () := by
  induction probes with
  | nil => cases h
  | cons probe rest ih =>
    unfold selectSlot at h
    split at h
    · exact ih h
    · rename_i i hi
      split_ifs at h with hgeneration
      · exact ih h
      · split at h
        · cases h
          exact loadValidJournalSlot_accepted hi
        · split_ifs at h
          · rw [hi] at h
            cases h
            exact loadValidJournalSlot_accepted hi
          · cases h
            exact loadValidJournalSlot_accepted hi

theorem loadSlots_accepted {s : Slots} {j : Journal} (h : loadSlots f p nonce s = .ok j) :
    validateJournal p j = .ok () := by
  unfold loadSlots at h
  cases hselect : selectSlot f p nonce s (probeSlots f s) with
  | error e =>
    rw [hselect] at h
    cases h
  | ok c =>
    rw [hselect] at h
    cases c with
    | none => cases h
    | some i =>
      cases h
      exact selectSlot_accepted hselect

/-- Without a log the chosen slot is the journal that is loaded. -/
theorem loadJournal_slots (s : Slots) : loadJournal f p nonce s .ok = loadSlots f p nonce s := by
  unfold loadJournal
  cases h : loadSlots f p nonce s with
  | error e => rfl
  | ok j =>
    simp only [bind, Except.bind, loadSlots_accepted h]
    rfl

theorem newest_cases {a b : Option Journal} {j : Journal} (h : newest a b = some j) :
    a = some j ∨ b = some j := by
  cases a with
  | none => exact .inr h
  | some i =>
    cases b with
    | none => exact .inl h
    | some k =>
      simp only [newest] at h
      split_ifs at h
      · exact .inl h
      · exact .inr h

/-- Something is loaded, and it is as new as any of the two. -/
theorem newest_of_some {a b : Option Journal} {i : Journal} (h : a = some i ∨ b = some i) :
    ∃ j, newest a b = some j ∧ i.generation ≤ j.generation := by
  cases a with
  | none =>
    cases b with
    | none => simp at h
    | some k =>
      obtain rfl : k = i := by simpa using h
      exact ⟨k, rfl, UInt64.le_refl _⟩
  | some k =>
    cases b with
    | none =>
      obtain rfl : k = i := by simpa using h
      exact ⟨k, rfl, UInt64.le_refl _⟩
    | some l =>
      simp only [Option.some.injEq] at h
      by_cases hle : l.generation ≤ k.generation
      · refine ⟨k, if_pos hle, ?_⟩
        rcases h with rfl | rfl
        · exact UInt64.le_refl _
        · exact hle
      · refine ⟨l, if_neg hle, ?_⟩
        rcases h with rfl | rfl
        · exact UInt64.le_of_lt (UInt64.not_le.mp hle)
        · exact UInt64.le_refl _

/-! ## The file after an attempt -/

theorem accepted_generation {j : Journal} (h : Accepted p nonce j) (generation : UInt64) :
    Accepted p nonce { j with generation := generation } := h

theorem Progress.unreadable (hf : f.Lawful) {j : Journal} {old : Option Bytes} {o : Progress}
    (h : o.spoils (f.encode j) = true) :
    Unreadable f (o.file old (f.encode j ++ [newline])) := by
  cases o with
  | kept => cases h
  | removed => exact ⟨rfl, rfl⟩
  | written count =>
    have hlt : count < (f.encode j).length := by simpa [Progress.spoils] using h
    rw [Progress.file, List.take_append_of_le_length hlt.le]
    refine unreadable_cut hf j (List.take_append_drop count _).symm ?_
    simpa using hlt

theorem Progress.readable {j : Journal} {o : Progress} (old : Option Bytes)
    (hfits : (f.encode j).length ≤ maxJournalBytes) (hj : Accepted p nonce j)
    (h : o.spoils (f.encode j) = false) :
    o.file old (f.encode j ++ [newline]) = old ∨
      Stored f p nonce (o.file old (f.encode j ++ [newline])) j := by
  cases o with
  | kept => exact .inl rfl
  | removed => cases h
  | written count =>
    have hle : (f.encode j).length ≤ count := by simpa [Progress.spoils] using h
    right
    refine ⟨hj, hfits, ?_⟩
    rcases Nat.eq_or_lt_of_le hle with heq | hlt
    · left
      simp [Progress.file, ← heq]
    · right
      rw [Progress.file, List.take_of_length_le (by simpa using hlt)]

/-- An attempt that spoils the file leaves nothing that can be read. -/
theorem Outcome.unreadable (hf : f.Lawful) {j : Journal} {o : Outcome} (old : Option Bytes)
    (h : o.spoils (f.encode j) = true) :
    Unreadable f (o.file old (f.encode j ++ [newline])) := by
  cases o with
  | completed => cases h
  | refused => cases h
  | failed progress cleared =>
    cases cleared with
    | true => exact ⟨rfl, rfl⟩
    | false => exact Progress.unreadable hf h
  | crashed progress => exact Progress.unreadable hf h

/-- Another attempt leaves the file alone or stores the journal. -/
theorem Outcome.readable {j : Journal} {o : Outcome} (old : Option Bytes)
    (hfits : o ≠ .refused → (f.encode j).length ≤ maxJournalBytes) (hj : Accepted p nonce j)
    (h : o.spoils (f.encode j) = false) :
    (o ≠ .completed ∧ o.file old (f.encode j ++ [newline]) = old) ∨
      Stored f p nonce (o.file old (f.encode j ++ [newline])) j := by
  cases o with
  | completed => exact .inr ⟨hj, hfits nofun, .inr rfl⟩
  | refused => exact .inl ⟨nofun, rfl⟩
  | failed progress cleared =>
    cases cleared with
    | true => cases h
    | false =>
      rcases Progress.readable old (hfits nofun) hj h with hkept | hstored
      · exact .inl ⟨nofun, hkept⟩
      · exact .inr hstored
  | crashed progress =>
    rcases Progress.readable old (hfits nofun) hj h with hkept | hstored
    · exact .inl ⟨nofun, hkept⟩
    · exact .inr hstored

/-! ## The invariant of a run -/

theorem checkedSucc_toNat {g g' : UInt64} (h : checkedSucc g = some g') :
    g'.toNat = g.toNat + 1 := by
  unfold checkedSucc at h
  split_ifs at h with hlt
  obtain rfl := Option.some.inj h
  rw [UInt64.toNat_add]
  exact Nat.mod_eq_of_lt hlt

/-- What is known of the journal in a slot. -/
structure Writer.Known (s : Writer) (name : SlotName) (j : Journal) : Prop where
  slot : slotOf j.generation = name
  written : j.generation ≤ s.generation
  age : ∀ l, s.last = some l → j = l ∨ j ∈ s.newer ∨ j.generation < l.generation

/-- Every slot shows a journal of the run, and no attempt is older than the last
journal that was persisted. -/
structure Writer.Inv (f : JournalFormat) (p : Place) (nonce : String) (s : Writer) : Prop where
  shows : ∀ name, ∃ c, Shows f p nonce (s.slots.get name) c ∧ ∀ j, c = some j → s.Known name j
  last : ∀ l, s.last = some l → l.generation ≤ s.generation ∧
    ∀ j ∈ s.newer, l.generation ≤ j.generation

theorem inv_start : Writer.start.Inv f p nonce where
  shows := by
    intro name
    refine ⟨none, ?_, nofun⟩
    cases name <;> exact ⟨rfl, rfl⟩
  last := nofun

/-- What an attempt does: it takes the next generation and writes to that
generation's slot, or it is refused since there is no next generation. -/
theorem persistJournal_cases {j j' : Journal} {s s' : Slots} {o : Outcome}
    (h : persistJournal f j s o = some (j', s')) :
    (checkedSucc j.generation = none ∧ o = .refused ∧ j' = j ∧ s' = s) ∨
    ∃ g, checkedSucc j.generation = some g ∧ j' = { j with generation := g } ∧
      (o ≠ .refused → (f.encode j').length ≤ maxJournalBytes) ∧
      s' = s.set (slotOf g) (o.file (s.get (slotOf g)) (f.encode j' ++ [newline])) := by
  unfold persistJournal at h
  split at h
  · rename_i hnext
    split_ifs at h with ho
    obtain ⟨rfl, rfl⟩ := Prod.mk.inj (Option.some.inj h)
    exact .inl ⟨hnext, ho, rfl, rfl⟩
  · rename_i g hnext
    dsimp only at h
    split_ifs at h with hlong
    obtain ⟨rfl, rfl⟩ := Prod.mk.inj (Option.some.inj h)
    refine .inr ⟨g, hnext, rfl, fun ho => ?_, rfl⟩
    by_contra hlt
    exact hlong ⟨by omega, ho⟩

theorem Slots.get_set (s : Slots) (name other : SlotName) (file : Option Bytes) :
    (s.set name file).get other = if other = name then file else s.get other := by
  cases name <;> cases other <;> rfl

theorem SlotName.other_ne (name : SlotName) : name.other ≠ name := by
  cases name <;> decide

theorem SlotName.eq_other {name other : SlotName} (h : other ≠ name) : other = name.other := by
  cases name <;> cases other <;> first | rfl | exact absurd rfl h

/-- The state after an attempt. -/
structure Writer.After (f : JournalFormat) (p : Place) (nonce : String) (s : Writer) (a : Attempt)
    (s' : Writer) (j : Journal) : Prop where
  accepted : Accepted p nonce j
  generation : s'.generation = j.generation
  grows : s.generation ≤ j.generation
  last : s'.last = if a.outcome = .completed then some j else s.last
  newer : s'.newer = if a.outcome = .completed then [] else j :: s.newer

/-- One attempt, with its two cases. -/
theorem Writer.step_cases {s s' : Writer} {a : Attempt} (h : s.step f p nonce a = some s') :
    ∃ j, s.After f p nonce a s' j ∧
      ((checkedSucc s.generation = none ∧ a.outcome = .refused ∧ s'.slots = s.slots) ∨
       (checkedSucc s.generation = some j.generation ∧
        j = { a.journal with generation := j.generation } ∧
        (a.outcome ≠ .refused → (f.encode j).length ≤ maxJournalBytes) ∧
        s'.slots = s.slots.set (slotOf j.generation)
          (a.outcome.file (s.slots.get (slotOf j.generation)) (f.encode j ++ [newline])))) := by
  unfold Writer.step at h
  have hguard : ¬ (¬ s.running = true ∨ ¬ Accepted p nonce a.journal) := by
    intro hguard
    rw [if_pos hguard] at h
    cases h
  rw [if_neg hguard] at h
  obtain ⟨⟨j, slots⟩, hpersist, hs'⟩ := Option.map_eq_some_iff.mp h
  have hj : Accepted p nonce a.journal := by
    by_contra hn
    exact hguard (.inr hn)
  refine ⟨j, ?_⟩
  subst hs'
  rcases persistJournal_cases hpersist with ⟨hnext, ho, rfl, hs⟩ | ⟨g, hnext, rfl, hfits, hs⟩
  · exact ⟨⟨accepted_generation hj _, rfl, UInt64.le_refl _, rfl, rfl⟩, .inl ⟨hnext, ho, hs⟩⟩
  · dsimp only at hnext
    have hgrows : s.generation ≤ g := by
      rw [UInt64.le_iff_toNat_le, checkedSucc_toNat hnext]
      omega
    exact ⟨⟨accepted_generation hj _, rfl, hgrows, rfl, rfl⟩, .inr ⟨hnext, rfl, hfits, hs⟩⟩

/-! ## The invariant is kept -/

theorem Writer.Known.after {s s' : Writer} {a : Attempt} {name : SlotName} {i j : Journal}
    (h : s.Known name i) (hafter : s.After f p nonce a s' j)
    (hlt : a.outcome = .completed → s.generation < j.generation) : s'.Known name i where
  slot := h.slot
  written := hafter.generation ▸ UInt64.le_trans h.written hafter.grows
  age := by
    intro l hl
    rw [hafter.last] at hl
    rw [hafter.newer]
    by_cases ho : a.outcome = .completed
    · simp only [ho, ↓reduceIte, Option.some.injEq] at hl
      subst hl
      exact .inr (.inr (UInt64.lt_of_le_of_lt h.written (hlt ho)))
    · simp only [ho, ↓reduceIte] at hl ⊢
      rcases h.age l hl with rfl | hmem | hold
      · exact .inl rfl
      · exact .inr (.inl (List.mem_cons_of_mem _ hmem))
      · exact .inr (.inr hold)

theorem Writer.After.known {s s' : Writer} {a : Attempt} {j : Journal}
    (h : s.After f p nonce a s' j) : s'.Known (slotOf j.generation) j where
  slot := rfl
  written := h.generation ▸ UInt64.le_refl _
  age := by
    intro l hl
    rw [h.last] at hl
    rw [h.newer]
    by_cases ho : a.outcome = .completed
    · simp only [ho, ↓reduceIte, Option.some.injEq] at hl
      exact .inl hl
    · simp only [ho, ↓reduceIte]
      exact .inr (.inl (List.mem_cons_self ..))

theorem Writer.After.inv_last {s s' : Writer} {a : Attempt} {j : Journal}
    (h : s.After f p nonce a s' j) (hinv : s.Inv f p nonce) :
    ∀ l, s'.last = some l → l.generation ≤ s'.generation ∧
      ∀ i ∈ s'.newer, l.generation ≤ i.generation := by
  intro l hl
  rw [h.last] at hl
  rw [h.newer, h.generation]
  by_cases ho : a.outcome = .completed
  · simp only [ho, ↓reduceIte, Option.some.injEq] at hl ⊢
    subst hl
    exact ⟨UInt64.le_refl _, nofun⟩
  · simp only [ho, ↓reduceIte] at hl ⊢
    obtain ⟨hle, hnewer⟩ := hinv.last l hl
    refine ⟨UInt64.le_trans hle h.grows, ?_⟩
    rintro i hi
    rcases List.mem_cons.mp hi with rfl | hi
    · exact UInt64.le_trans hle h.grows
    · exact hnewer i hi

theorem inv_step (hf : f.Lawful) {s s' : Writer} {a : Attempt} (hinv : s.Inv f p nonce)
    (h : s.step f p nonce a = some s') : s'.Inv f p nonce := by
  obtain ⟨j, hafter, hcase⟩ := Writer.step_cases h
  refine ⟨?_, hafter.inv_last hinv⟩
  intro name
  obtain ⟨c, hshows, hknown⟩ := hinv.shows name
  rcases hcase with ⟨-, ho, hslots⟩ | ⟨hnext, -, hfits, hslots⟩
  · -- nothing is written
    rw [hslots]
    refine ⟨c, hshows, fun i hi => (hknown i hi).after hafter ?_⟩
    intro hcompleted
    rw [ho] at hcompleted
    cases hcompleted
  · have hlt : s.generation < j.generation := by
      rw [UInt64.lt_iff_toNat_lt, checkedSucc_toNat hnext]
      omega
    rw [hslots, Slots.get_set]
    split_ifs with hname
    · -- the slot that is written
      cases hspoils : a.outcome.spoils (f.encode j) with
      | true => exact ⟨none, Outcome.unreadable hf _ hspoils, nofun⟩
      | false =>
        rcases Outcome.readable (s.slots.get (slotOf j.generation)) hfits hafter.accepted hspoils
          with ⟨-, hkept⟩ | hstored
        · rw [hkept, ← hname]
          exact ⟨c, hshows, fun i hi => (hknown i hi).after hafter fun _ => hlt⟩
        · refine ⟨some j, hstored, ?_⟩
          rintro i hi
          obtain rfl := Option.some.inj hi
          exact hname ▸ hafter.known
    · exact ⟨c, hshows, fun i hi => (hknown i hi).after hafter fun _ => hlt⟩

/-! ## What is loaded in a run -/

/-- A slot with a journal that is not older than `l`. -/
def Writer.Fresh (f : JournalFormat) (p : Place) (nonce : String) (s : Writer) (l : Journal) :
    Prop :=
  ∃ name j, loadValidJournalSlot f p nonce s.slots name = some j ∧ l.generation ≤ j.generation

theorem loadable_iff (hf : f.Lawful) {s : Writer} (hinv : s.Inv f p nonce) :
    s.Loadable f p nonce ↔ ∀ l, s.last = some l → s.Fresh f p nonce l := by
  obtain ⟨a, ha, hknowna⟩ := hinv.shows .journalA
  obtain ⟨b, hb, hknownb⟩ := hinv.shows .journalB
  have hne : ∀ i j, a = some i → b = some j → i.generation ≠ j.generation := by
    intro i j hi hj heq
    have hslot := (hknowna i hi).slot
    rw [heq, (hknownb j hj).slot] at hslot
    cases hslot
  have hload := (loadJournal_slots s.slots).trans (loadSlots_newest hf ha hb hne)
  have hslot : ∀ name j, loadValidJournalSlot f p nonce s.slots name = some j →
      a = some j ∨ b = some j := by
    intro name j hj
    cases name with
    | journalA => exact .inl (ha.load hf ▸ hj)
    | journalB => exact .inr (hb.load hf ▸ hj)
  constructor
  · intro h l hl
    obtain ⟨j, hj, hage⟩ := h l hl
    have hle : l.generation ≤ j.generation := by
      rcases hage with rfl | hmem
      · exact UInt64.le_refl _
      · exact (hinv.last l hl).2 j hmem
    rw [hload] at hj
    cases hnewest : newest a b with
    | none => simp [hnewest] at hj
    | some i =>
      simp only [hnewest, Option.elim_some, Except.ok.injEq] at hj
      subst hj
      rcases newest_cases hnewest with hi | hi
      · exact ⟨.journalA, i, (ha.load hf).trans hi, hle⟩
      · exact ⟨.journalB, i, (hb.load hf).trans hi, hle⟩
  · intro h l hl
    obtain ⟨name, i, hi, hle⟩ := h l hl
    obtain ⟨j, hj, hij⟩ := newest_of_some (hslot name i hi)
    refine ⟨j, by rw [hload, hj, Option.elim_some], ?_⟩
    have hknown : j = l ∨ j ∈ s.newer ∨ j.generation < l.generation := by
      rcases newest_cases hj with hj | hj
      · exact (hknowna j hj).age l hl
      · exact (hknownb j hj).age l hl
    rcases hknown with hlast | hnewer | hold
    · exact .inl hlast
    · exact .inr hnewer
    · exact absurd (UInt64.le_trans hle hij) (UInt64.not_le.mpr hold)

/-- After an attempt the journal is loadable exactly where the attempt was safe. -/
theorem loadable_step (hf : f.Lawful) {s s' : Writer} {a : Attempt} (hinv : s.Inv f p nonce)
    (hs : s.Loadable f p nonce) (h : s.step f p nonce a = some s') :
    s'.Loadable f p nonce ↔ s.Safe f p nonce a := by
  rw [loadable_iff hf (inv_step hf hinv h)]
  rw [loadable_iff hf hinv] at hs
  obtain ⟨j, hafter, hcase⟩ := Writer.step_cases h
  rcases hcase with ⟨hnext, ho, hslots⟩ | ⟨hnext, hj, hfits, hslots⟩
  · -- nothing is written
    constructor
    · intro _ l generation _ hgeneration
      rw [hnext] at hgeneration
      cases hgeneration
    · intro _ l hl
      rw [hafter.last, ho] at hl
      unfold Writer.Fresh
      rw [hslots]
      exact hs l hl
  · have hload : ∀ name, name ≠ slotOf j.generation →
        loadValidJournalSlot f p nonce s'.slots name =
          loadValidJournalSlot f p nonce s.slots name := by
      intro name hname
      unfold loadValidJournalSlot
      rw [hslots, Slots.get_set, if_neg hname]
    cases hspoils : a.outcome.spoils (f.encode j) with
    | true =>
      have hgone : loadValidJournalSlot f p nonce s'.slots (slotOf j.generation) = none := by
        have hunreadable := Outcome.unreadable hf (s.slots.get (slotOf j.generation)) hspoils
        unfold loadValidJournalSlot
        rw [hslots, Slots.get_set, if_pos rfl, hunreadable.1]
        rfl
      have hlast : s'.last = s.last := by
        rw [hafter.last, if_neg]
        intro ho
        rw [ho] at hspoils
        cases hspoils
      rw [hlast]
      constructor
      · intro hfresh l generation hl hgeneration _
        obtain rfl := Option.some.inj (hnext.symm.trans hgeneration)
        obtain ⟨name, i, hi, hle⟩ := hfresh l hl
        have hname : name ≠ slotOf j.generation := by
          rintro rfl
          rw [hgone] at hi
          cases hi
        rw [hload name hname, SlotName.eq_other hname] at hi
        exact ⟨i, hi, hle⟩
      · intro hsafe l hl
        obtain ⟨i, hi, hle⟩ := hsafe l j.generation hl hnext (hj ▸ hspoils)
        refine ⟨(slotOf j.generation).other, i, ?_, hle⟩
        rw [hload _ (SlotName.other_ne _)]
        exact hi
    | false =>
      constructor
      · intro _ l generation _ hgeneration hspoiled
        obtain rfl := Option.some.inj (hnext.symm.trans hgeneration)
        rw [← hj, hspoils] at hspoiled
        cases hspoiled
      · intro _ l hl
        rcases Outcome.readable (s.slots.get (slotOf j.generation)) hfits hafter.accepted hspoils
          with ⟨ho, hkept⟩ | hstored
        · -- the old file is kept
          rw [hafter.last, if_neg ho] at hl
          obtain ⟨name, i, hi, hle⟩ := hs l hl
          refine ⟨name, i, ?_, hle⟩
          by_cases hname : name = slotOf j.generation
          · unfold loadValidJournalSlot at hi ⊢
            rw [hslots, Slots.get_set, if_pos hname, hkept, ← hname]
            exact hi
          · rw [hload name hname]
            exact hi
        · refine ⟨slotOf j.generation, j, ?_, ?_⟩
          · refine Shows.load hf (c := some j) ?_
            rw [hslots, Slots.get_set, if_pos rfl]
            exact hstored
          · exact hafter.generation ▸ ((inv_step hf hinv h).last l hl).1

/-- In a run of attempts the journal is loadable at every moment, and never older
than the last one that was persisted, exactly where every attempt is safe. -/
theorem journal_loadable (hf : f.Lawful) {as : List Attempt} {s : Writer}
    (h : exec (Writer.step f p nonce) Writer.start as = some s) :
    Along (Writer.step f p nonce) (Writer.Safe f p nonce) Writer.start as ↔
      ∀ bs t, bs <+: as → exec (Writer.step f p nonce) Writer.start bs = some t →
        t.Loadable f p nonce :=
  along_iff (fun _ _ _ hinv hstep => inv_step hf hinv hstep)
    (fun _ _ _ hinv hs hstep => loadable_step hf hinv hs hstep) inv_start nofun h

end IntoMarkdown.Transaction
