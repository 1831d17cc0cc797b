import IntoMarkdown.Core.Error
import IntoMarkdown.Lib.Except
import IntoMarkdown.Lib.Strings

/-! # Memory of the text converters

Every growth of a vector or of a string is charged before it is asked of the
allocator, and what the allocator gives beyond it is charged after. A `usize` has
64 bits. -/

namespace IntoMarkdown.Converters
open Lib

/-- The errors of a converter: those of the core, and that of a malformed input. -/
inductive ConversionError where
  | core (error : Core.ConversionError)
  | malformed (part : Option String) (detail : String)
  deriving DecidableEq, Repr

/-- What a converter asks of its execution context and of the allocator. The state
holds whatever decides the answers: other requests, the clock, the heap. -/
structure Runtime (σ : Type) where
  /-- `ExecutionContext::checkpoint`. -/
  checkpoint : σ → Except Core.ConversionError σ
  /-- `ResourceReservation::grow`. -/
  grow : σ → Nat → Except Core.ConversionError σ
  /-- `ResourceReservation::shrink`. -/
  shrink : σ → Nat → Except Core.ConversionError σ
  /-- `try_reserve_exact` up to so many slots: the capacity after it. -/
  allocate : σ → Nat → Except String (Nat × σ)

def usizeModulus : Nat := 2 ^ 64

def checkedAdd (a b : Nat) : Option Nat := if a + b < usizeModulus then some (a + b) else none

def checkedMul (a b : Nat) : Option Nat := if a * b < usizeModulus then some (a * b) else none

def saturatingMul (a b : Nat) : Nat := min (a * b) (usizeModulus - 1)

/-- `ok_or_else`. -/
def okOr {α : Type} (x : Option α) (error : ConversionError) : Except ConversionError α :=
  x.elim (.error error) .ok

def memoryLimit (detail : String) : ConversionError :=
  .core (.resourceLimit "max_memory_bytes" detail)

structure LogicalMemory (σ : Type) where
  world : σ
  /-- `reservation` is there. -/
  reservation : Bool
  charged : Nat
  prepaidLimit : Option Nat
  deriving DecidableEq, Repr

/-- A vector, or a string with its capacity in bytes. -/
structure Vec (α : Type) where
  items : List α := []
  capacity : Nat := 0
  deriving DecidableEq, Repr

def Vec.push {α : Type} (v : Vec α) (a : α) : Vec α := { v with items := v.items ++ [a] }

@[simp] theorem Vec.push_items {α : Type} (v : Vec α) (a : α) :
    (v.push a).items = v.items ++ [a] := rfl

namespace LogicalMemory
variable {σ : Type} (runtime : Runtime σ)

/-- `if let Some(reservation) = &mut self.reservation`. -/
def onReservation (memory : LogicalMemory σ) (call : σ → Except Core.ConversionError σ) :
    Except ConversionError σ :=
  if memory.reservation then (call memory.world).mapError .core else .ok memory.world

def charge (memory : LogicalMemory σ) (bytes : Nat) :
    Except ConversionError (LogicalMemory σ) := do
  let next ← okOr (checkedAdd memory.charged bytes)
    (memoryLimit "logical heap capacity overflowed")
  refuse (∃ limit ∈ memory.prepaidLimit, limit < next)
    (memoryLimit "prepaid logical heap capacity was exceeded")
  let world ← memory.onReservation (runtime.grow · bytes)
  return { memory with world, charged := next }

def rewind (memory : LogicalMemory σ) (mark : Nat) :
    Except ConversionError (LogicalMemory σ) := do
  refuse (memory.charged < mark)
    (.core (.internal "logical memory mark exceeds current charge"))
  let world ← memory.onReservation (runtime.shrink · (memory.charged - mark))
  return { memory with world, charged := mark }

/-- What tells `reserve_vec` from `reserve_string`. -/
structure Growth where
  noun : String
  slotBytes : Nat
  least : Nat

def Growth.vector (slotBytes : Nat) : Growth := ⟨"vector", slotBytes, 4⟩

def Growth.string : Growth := ⟨"string", 1, 64⟩

/-- The capacity that is asked for when the present one does not do. -/
def Growth.target (growth : Growth) (required capacity : Nat) : Nat :=
  max (max required (saturatingMul capacity 2)) growth.least

/-- What the allocator gave beyond the target. -/
def settle (growth : Growth) (target mark : Nat) (memory : LogicalMemory σ) (capacity : Nat) :
    Except ConversionError (Nat × LogicalMemory σ) :=
  if capacity < target then do
    let _ ← memory.rewind runtime mark
    .error (.core (.internal
      s!"logical {growth.noun} reserve returned less than requested capacity"))
  else if capacity = target then .ok (capacity, memory)
  else do
    let bytes ← okOr (checkedMul (capacity - target) growth.slotBytes)
      (memoryLimit s!"logical {growth.noun} actual capacity overflowed")
    match memory.charge runtime bytes with
    | .ok memory => .ok (capacity, memory)
    | .error error => do
      let _ ← memory.rewind runtime mark
      .error error

/-- The capacity after `reserve_vec` or `reserve_string`. -/
def reserve (growth : Growth) (memory : LogicalMemory σ) (length capacity additional : Nat) :
    Except ConversionError (Nat × LogicalMemory σ) := do
  let required ← okOr (checkedAdd length additional)
    (memoryLimit s!"logical {growth.noun} capacity overflowed")
  if required ≤ capacity then return (capacity, memory)
  let target := growth.target required capacity
  let bytes ← okOr (checkedMul (target - capacity) growth.slotBytes)
    (memoryLimit s!"logical {growth.noun} byte capacity overflowed")
  let charged ← memory.charge runtime bytes
  match runtime.allocate charged.world target with
  | .error error => do
    let _ ← charged.rewind runtime memory.charged
    .error (memoryLimit s!"logical {growth.noun} allocation failed: {error}")
  | .ok given =>
    settle runtime growth target memory.charged { charged with world := given.2 } given.1

def reserveVec {α : Type} (slotBytes : Nat) (memory : LogicalMemory σ) (vector : Vec α)
    (additional : Nat) : Except ConversionError (Vec α × LogicalMemory σ) :=
  (reserve runtime (.vector slotBytes) memory vector.items.length vector.capacity additional).map
    fun done => ({ vector with capacity := done.1 }, done.2)

def reserveString (memory : LogicalMemory σ) (string : Vec Char) (additional : Nat) :
    Except ConversionError (Vec Char × LogicalMemory σ) :=
  (reserve runtime .string memory (Strings.byteLength string.items) string.capacity
    additional).map fun done => ({ string with capacity := done.1 }, done.2)

/-! ## What can be refused -/

end LogicalMemory

/-- Fails only with an error of the core, such as a limit or an interruption. -/
def CoreOnly {α : Type} (x : Except ConversionError α) : Prop :=
  ∀ error, x = .error error → ∃ c, error = .core c

namespace CoreOnly
variable {α β : Type}

theorem ok (a : α) : CoreOnly (.ok a) := fun _ h => nomatch h

theorem core (error : Core.ConversionError) : CoreOnly (α := α) (.error (.core error)) :=
  fun _ h => ⟨error, (Except.error.inj h).symm⟩

theorem bind {x : Except ConversionError α} {f : α → Except ConversionError β}
    (hx : CoreOnly x) (hf : ∀ a, CoreOnly (f a)) : CoreOnly (x >>= f) := by
  intro error h
  rcases error_bind h with h | ⟨a, _, h⟩
  · exact hx error h
  · exact hf a error h

theorem map {x : Except ConversionError α} {f : α → β} (hx : CoreOnly x) :
    CoreOnly (x.map f) := fun error h => hx error (map_error h)

theorem refuse {bad : Prop} [Decidable bad] (error : Core.ConversionError) :
    CoreOnly (refuse bad (.core error)) := fun _ h => ⟨error, (refuse_error h).2⟩

theorem okOr (x : Option α) (error : Core.ConversionError) :
    CoreOnly (okOr x (.core error)) := by
  cases x with
  | none => exact core error
  | some a => exact ok a

theorem mapError (x : Except Core.ConversionError α) : CoreOnly (x.mapError .core) := by
  cases x with
  | error error => exact core error
  | ok a => exact ok a

theorem ite {p : Prop} [Decidable p] {x y : Except ConversionError α} (hx : CoreOnly x)
    (hy : CoreOnly y) : CoreOnly (if p then x else y) := by
  split
  · exact hx
  · exact hy

end CoreOnly

/-- The first computation fails with an error of the core, or both agree. -/
def Limited {α β : Type} (R : α → β → Prop) (x : Except ConversionError α)
    (y : Except ConversionError β) : Prop :=
  (∃ c, x = .error (.core c)) ∨ Refines R x y

namespace Limited
variable {α β γ δ : Type} {R : α → β → Prop} {S : γ → δ → Prop}

theorem ok {a : α} {b : β} (h : R a b) : Limited R (.ok a) (.ok b) := Or.inr (.ok h)

theorem error (e : ConversionError) : Limited R (.error e) (.error e) := Or.inr (.error e)

theorem of_coreOnly {x : Except ConversionError α} {b : β} (hx : CoreOnly x)
    (h : ∀ a, x = .ok a → R a b) : Limited R x (.ok b) := by
  cases x with
  | error error =>
    obtain ⟨c, rfl⟩ := hx error rfl
    exact Or.inl ⟨c, rfl⟩
  | ok a => exact ok (h a rfl)

theorem bind {x : Except ConversionError α} {y : Except ConversionError β}
    {f : α → Except ConversionError γ} {g : β → Except ConversionError δ}
    (h : Limited R x y) (hf : ∀ a b, R a b → Limited S (f a) (g b)) :
    Limited S (x >>= f) (y >>= g) := by
  rcases h with ⟨c, rfl⟩ | h
  · exact Or.inl ⟨c, rfl⟩
  · cases h with
    | error e => exact error e
    | ok h => exact hf _ _ h

theorem of_ok {x : Except ConversionError α} {y : Except ConversionError β}
    (h : Limited R x y) {a : α} (ha : x = .ok a) : ∃ b, y = .ok b ∧ R a b := by
  subst ha
  rcases h with ⟨c, hc⟩ | h
  · cases hc
  · cases h with
    | ok h => exact ⟨_, rfl, h⟩

theorem bind_ok {x : Except ConversionError α} {b : β} {f : α → Except ConversionError γ}
    {y : Except ConversionError δ} (h : Limited R x (.ok b))
    (hf : ∀ a, R a b → Limited S (f a) y) : Limited S (x >>= f) y := by
  rcases h with ⟨c, rfl⟩ | h
  · exact Or.inl ⟨c, rfl⟩
  · cases h with
    | ok h => exact hf _ h

theorem map_ok {x : Except ConversionError α} {b : β} {f : α → γ} {d : δ}
    (h : Limited R x (.ok b)) (hf : ∀ a, R a b → S (f a) d) : Limited S (x.map f) (.ok d) := by
  rcases h with ⟨c, rfl⟩ | h
  · exact Or.inl ⟨c, rfl⟩
  · cases h with
    | ok h => exact ok (hf _ h)

end Limited

/-- Fails with an error of the core, or gives a value with a property. -/
def Yields {α : Type} (P : α → Prop) (x : Except ConversionError α) : Prop :=
  (∃ c, x = .error (.core c)) ∨ ∃ a, x = .ok a ∧ P a

namespace Yields
variable {α β : Type} {P P' : α → Prop} {Q : β → Prop}

theorem ok {a : α} (h : P a) : Yields P (.ok a) := Or.inr ⟨a, rfl, h⟩

theorem core (error : Core.ConversionError) : Yields P (.error (.core error)) :=
  Or.inl ⟨error, rfl⟩

theorem of_coreOnly {x : Except ConversionError α} (hx : CoreOnly x)
    (h : ∀ a, x = .ok a → P a) : Yields P x := by
  cases x with
  | error error =>
    obtain ⟨c, rfl⟩ := hx error rfl
    exact core c
  | ok a => exact ok (h a rfl)

theorem of_ok {x : Except ConversionError α} (h : Yields P x) {a : α} (ha : x = .ok a) : P a := by
  rcases h with ⟨c, hc⟩ | ⟨b, hb, hP⟩
  · rw [ha] at hc
    cases hc
  · obtain rfl := Except.ok.inj (ha.symm.trans hb)
    exact hP

theorem mono {x : Except ConversionError α} (h : Yields P x) (hP : ∀ a, P a → P' a) :
    Yields P' x := by
  rcases h with ⟨c, rfl⟩ | ⟨a, rfl, ha⟩
  · exact core c
  · exact ok (hP a ha)

theorem bind {x : Except ConversionError α} {f : α → Except ConversionError β}
    (h : Yields P x) (hf : ∀ a, P a → Yields Q (f a)) : Yields Q (x >>= f) := by
  rcases h with ⟨c, rfl⟩ | ⟨a, rfl, ha⟩
  · exact core c
  · exact hf a ha

theorem map {x : Except ConversionError α} {f : α → β} (h : Yields P x)
    (hf : ∀ a, P a → Q (f a)) : Yields Q (x.map f) := by
  rcases h with ⟨c, rfl⟩ | ⟨a, rfl, ha⟩
  · exact core c
  · exact ok (hf a ha)

theorem limited {R : α → β → Prop} {b : β} {x : Except ConversionError α}
    (h : Yields (fun a => R a b) x) : Limited R x (.ok b) := by
  rcases h with ⟨c, rfl⟩ | ⟨a, rfl, ha⟩
  · exact Or.inl ⟨c, rfl⟩
  · exact Limited.ok ha

theorem bind_limited {γ : Type} {S : β → γ → Prop} {x : Except ConversionError α}
    {f : α → Except ConversionError β} {y : Except ConversionError γ} (h : Yields P x)
    (hf : ∀ a, P a → Limited S (f a) y) : Limited S (x >>= f) y := by
  rcases h with ⟨c, rfl⟩ | ⟨a, rfl, ha⟩
  · exact Or.inl ⟨c, rfl⟩
  · exact hf a ha

end Yields

/-- What follows a computation that agrees with another one can only be limited. -/
theorem Limited.bind_yields {α β γ : Type} {R : α → β → Prop} {S : γ → β → Prop}
    {x : Except ConversionError α} {y : Except ConversionError β}
    {f : α → Except ConversionError γ} (h : Limited R x y)
    (hf : ∀ a b, R a b → Yields (S · b) (f a)) : Limited S (x >>= f) y := by
  rcases h with ⟨c, rfl⟩ | h
  · exact Or.inl ⟨c, rfl⟩
  · cases h with
    | error e => exact .error e
    | ok h => exact (hf _ _ h).limited

namespace LogicalMemory
variable {σ : Type} (runtime : Runtime σ)

theorem onReservation_coreOnly (memory : LogicalMemory σ)
    (call : σ → Except Core.ConversionError σ) : CoreOnly (memory.onReservation call) :=
  .ite (.mapError _) (.ok _)

theorem charge_coreOnly (memory : LogicalMemory σ) (bytes : Nat) :
    CoreOnly (memory.charge runtime bytes) :=
  (CoreOnly.okOr _ _).bind fun _ => (CoreOnly.refuse _).bind fun _ =>
    (onReservation_coreOnly _ _).bind fun _ => .ok _

theorem rewind_coreOnly (memory : LogicalMemory σ) (mark : Nat) :
    CoreOnly (memory.rewind runtime mark) :=
  (CoreOnly.refuse _).bind fun _ => (onReservation_coreOnly _ _).bind fun _ => .ok _

theorem settle_coreOnly (growth : Growth) (target mark : Nat) (memory : LogicalMemory σ)
    (capacity : Nat) : CoreOnly (settle runtime growth target mark memory capacity) := by
  unfold settle
  refine .ite ((rewind_coreOnly runtime _ _).bind fun _ => .core _) (.ite (.ok _) ?_)
  refine (CoreOnly.okOr _ _).bind fun bytes => ?_
  cases h : memory.charge runtime bytes with
  | ok memory => exact .ok _
  | error error =>
    obtain ⟨c, rfl⟩ := charge_coreOnly runtime _ _ error h
    exact (rewind_coreOnly runtime _ _).bind fun _ => .core _

theorem reserve_coreOnly (growth : Growth) (memory : LogicalMemory σ)
    (length capacity additional : Nat) :
    CoreOnly (reserve runtime growth memory length capacity additional) := by
  unfold reserve
  refine (CoreOnly.okOr _ _).bind fun required => .ite (.ok _) ?_
  refine (CoreOnly.okOr _ _).bind fun bytes => (charge_coreOnly runtime _ _).bind fun charged => ?_
  cases runtime.allocate charged.world (growth.target required capacity) with
  | error error => exact (rewind_coreOnly runtime _ _).bind fun _ => .core _
  | ok given => exact settle_coreOnly runtime _ _ _ _ _

theorem reserveVec_coreOnly {α : Type} (slotBytes : Nat) (memory : LogicalMemory σ)
    (vector : Vec α) (additional : Nat) :
    CoreOnly (reserveVec runtime slotBytes memory vector additional) :=
  (reserve_coreOnly runtime _ _ _ _ _).map

theorem reserveString_coreOnly (memory : LogicalMemory σ) (string : Vec Char)
    (additional : Nat) : CoreOnly (reserveString runtime memory string additional) :=
  (reserve_coreOnly runtime _ _ _ _ _).map

theorem reserveVec_items {α : Type} {slotBytes : Nat} {memory : LogicalMemory σ} {vector : Vec α}
    {additional : Nat} {done : Vec α × LogicalMemory σ}
    (h : reserveVec runtime slotBytes memory vector additional = .ok done) :
    done.1.items = vector.items := by
  obtain ⟨_, _, rfl⟩ := map_ok h
  rfl

theorem reserveString_items {memory : LogicalMemory σ} {string : Vec Char} {additional : Nat}
    {done : Vec Char × LogicalMemory σ}
    (h : reserveString runtime memory string additional = .ok done) :
    done.1.items = string.items := by
  obtain ⟨_, _, rfl⟩ := map_ok h
  rfl

theorem charge_yields (memory : LogicalMemory σ) (bytes : Nat) :
    Yields (fun _ => True) (memory.charge runtime bytes) :=
  .of_coreOnly (charge_coreOnly runtime _ _) fun _ _ => trivial

theorem reserveVec_yields {α : Type} (slotBytes : Nat) (memory : LogicalMemory σ)
    (vector : Vec α) (additional : Nat) :
    Yields (fun done => done.1.items = vector.items)
      (reserveVec runtime slotBytes memory vector additional) :=
  .of_coreOnly (reserveVec_coreOnly runtime _ _ _ _) fun _ => reserveVec_items runtime

theorem reserveString_yields (memory : LogicalMemory σ) (string : Vec Char) (additional : Nat) :
    Yields (fun done => done.1.items = string.items)
      (reserveString runtime memory string additional) :=
  .of_coreOnly (reserveString_coreOnly runtime _ _ _) fun _ => reserveString_items runtime

/-! ## What is granted -/

end LogicalMemory

/-- Nothing interrupts, every reservation grows, and the allocator gives what is asked for. -/
structure Runtime.Generous {σ : Type} (runtime : Runtime σ) : Prop where
  checkpoint : ∀ s, ∃ s', runtime.checkpoint s = .ok s'
  grow : ∀ s bytes, ∃ s', runtime.grow s bytes = .ok s'
  allocate : ∀ s target, ∃ s', runtime.allocate s target = .ok (target, s')

/-- So many bytes can still be charged. -/
structure LogicalMemory.Affords {σ : Type} (memory : LogicalMemory σ) (bytes : Nat) : Prop where
  total : memory.charged + bytes < usizeModulus
  limit : ∀ limit ∈ memory.prepaidLimit, memory.charged + bytes ≤ limit

namespace LogicalMemory
variable {σ : Type} {runtime : Runtime σ} {memory : LogicalMemory σ}

theorem Affords.mono {a b : Nat} (h : memory.Affords b) (hab : a ≤ b) : memory.Affords a :=
  ⟨by have := h.total; omega, fun limit hlimit => by have := h.limit limit hlimit; omega⟩

theorem charge_ok (hruntime : runtime.Generous) {bytes more : Nat}
    (h : memory.Affords (bytes + more)) :
    ∃ charged, memory.charge runtime bytes = .ok charged ∧ charged.Affords more := by
  have hnext : checkedAdd memory.charged bytes = some (memory.charged + bytes) :=
    if_pos (by have := h.total; omega)
  have hlimit : ¬ ∃ limit ∈ memory.prepaidLimit, limit < memory.charged + bytes := by
    rintro ⟨limit, hlimit, hlt⟩
    have := h.limit limit hlimit
    omega
  obtain ⟨world, hworld⟩ : ∃ world, memory.onReservation (runtime.grow · bytes) = .ok world := by
    unfold onReservation
    cases memory.reservation with
    | true =>
      obtain ⟨world, hworld⟩ := hruntime.grow memory.world bytes
      exact ⟨world, by simp only [↓reduceIte, hworld, Except.mapError]⟩
    | false => exact ⟨memory.world, rfl⟩
  refine ⟨{ memory with world, charged := memory.charged + bytes }, ?_, ?_, ?_⟩
  · rw [charge, hnext]
    exact bind_ok_iff.mpr ⟨_, rfl,
      refuse_bind_ok.mpr ⟨hlimit, bind_ok_iff.mpr ⟨world, hworld, rfl⟩⟩⟩
  · have := h.total
    simp only
    omega
  · intro limit hmem
    have := h.limit limit hmem
    simp only
    omega

/-- What a growth to a length can cost. -/
def Growth.cost (growth : Growth) (required : Nat) : Nat :=
  (2 * required + growth.least) * growth.slotBytes

theorem Growth.cost_mono (growth : Growth) {a b : Nat} (h : a ≤ b) :
    growth.cost a ≤ growth.cost b :=
  Nat.mul_le_mul_right _ (by omega)

theorem Growth.bytes_le_cost (growth : Growth) {required capacity : Nat}
    (h : capacity < required) :
    (growth.target required capacity - capacity) * growth.slotBytes ≤ growth.cost required := by
  refine Nat.mul_le_mul_right _ ?_
  unfold target saturatingMul
  omega

theorem reserve_ok (hruntime : runtime.Generous) (growth : Growth) (capacity : Nat)
    {length additional more : Nat} (hlength : length + additional < usizeModulus)
    (h : memory.Affords (growth.cost (length + additional) + more)) :
    ∃ done, reserve runtime growth memory length capacity additional = .ok done ∧
      done.2.Affords more := by
  have hrequired : checkedAdd length additional = some (length + additional) := if_pos hlength
  unfold reserve
  rw [hrequired]
  by_cases hcapacity : length + additional ≤ capacity
  · exact ⟨(capacity, memory), if_pos hcapacity, h.mono (Nat.le_add_left _ _)⟩
  · have hcost := growth.bytes_le_cost (Nat.lt_of_not_le hcapacity)
    have hbytes : checkedMul (growth.target (length + additional) capacity - capacity)
        growth.slotBytes = some ((growth.target (length + additional) capacity - capacity) *
          growth.slotBytes) := if_pos (by have := h.total; omega)
    obtain ⟨charged, hcharged, hafter⟩ :=
      charge_ok hruntime (h.mono (Nat.add_le_add_right hcost more))
    obtain ⟨world, hworld⟩ := hruntime.allocate charged.world
      (growth.target (length + additional) capacity)
    refine ⟨(growth.target (length + additional) capacity, { charged with world }), ?_,
      hafter.total, hafter.limit⟩
    show (if length + additional ≤ capacity then _ else _) = _
    rw [if_neg hcapacity, hbytes]
    show (memory.charge runtime _ >>= _) = _
    rw [hcharged]
    show (match runtime.allocate charged.world _ with | .error error => _ | .ok given => _) = _
    rw [hworld]
    show settle runtime growth _ _ _ _ = _
    rw [settle, if_neg (Nat.lt_irrefl _), if_pos rfl]

theorem reserveVec_ok (hruntime : runtime.Generous) {α : Type} {slotBytes : Nat} {vector : Vec α}
    {additional more : Nat} (hlength : vector.items.length + additional < usizeModulus)
    (h : memory.Affords
      ((Growth.vector slotBytes).cost (vector.items.length + additional) + more)) :
    ∃ done, reserveVec runtime slotBytes memory vector additional = .ok done ∧
      done.2.Affords more := by
  obtain ⟨done, hdone, hafter⟩ := reserve_ok hruntime _ vector.capacity hlength h
  exact ⟨({ vector with capacity := done.1 }, done.2), by rw [reserveVec, hdone]; rfl, hafter⟩

theorem reserveString_ok (hruntime : runtime.Generous) {string : Vec Char}
    {additional more : Nat}
    (hlength : Strings.byteLength string.items + additional < usizeModulus)
    (h : memory.Affords
      (Growth.string.cost (Strings.byteLength string.items + additional) + more)) :
    ∃ done, reserveString runtime memory string additional = .ok done ∧
      done.2.Affords more := by
  obtain ⟨done, hdone, hafter⟩ := reserve_ok hruntime _ string.capacity hlength h
  exact ⟨({ string with capacity := done.1 }, done.2), by rw [reserveString, hdone]; rfl, hafter⟩

end LogicalMemory

end IntoMarkdown.Converters
