import IntoMarkdown.Converters.LogicalMemory

/-! # Delimited text

`parse_records`: one pass over the characters of a decoded text, with the character
after the present one in sight. -/

namespace IntoMarkdown.Converters.Delimited
open Lib Strings

structure RawField where
  value : Text
  start : Nat
  stop : Nat
  deriving DecidableEq, Repr

structure RawRecord where
  fields : List RawField
  start : Nat
  stop : Nat
  deriving DecidableEq, Repr

/-- The slots of both vectors: three words and two more. -/
def slotBytes : Nat := 40

/-- The fields of `ConversionOptions::limits` that are read here, `u64` both. -/
structure Limits where
  maxFieldBytes : Nat
  maxTableRows : Nat

/-- `InputFormat`, as far as this converter serves it. -/
inductive InputFormat where
  | csv | tsv
  deriving DecidableEq, Repr

def InputFormat.asStr : InputFormat → String
  | .csv => "csv"
  | .tsv => "tsv"

def malformed {α : Type} (format : InputFormat) (offset : Nat) (detail : String) :
    Except ConversionError α :=
  .error (.malformed (some format.asStr) s!"{detail} at decoded byte {offset}")

def isLineBreak (c : Char) : Bool := c = '\r' || c = '\n'

/-! ## The parser -/

/-- The locals of the loop. -/
structure Parser (σ : Type) where
  memory : LogicalMemory σ
  records : Vec RawRecord := {}
  fields : Vec RawField := {}
  value : Vec Char := {}
  fieldStart : Nat := 0
  recordStart : Nat := 0
  quoted : Bool := false
  afterQuote : Bool := false
  atFieldStart : Bool := true

section
variable {σ : Type} (runtime : Runtime σ) (limits : Limits)

namespace Parser

/-- The checkpoint at the offsets that are multiples of 4096. -/
def checkpoint (offset : Nat) (p : Parser σ) : Except ConversionError (Parser σ) :=
  if offset % 4096 = 0 then
    ((runtime.checkpoint p.memory.world).mapError .core).map fun world =>
      { p with memory.world := world }
  else .ok p

def pushFieldCharacter (p : Parser σ) (c : Char) : Except ConversionError (Parser σ) := do
  let next ← okOr (checkedAdd (byteLength p.value.items) c.utf8Size)
    (.core (.resourceLimit "max_field_bytes" "decoded field length overflowed"))
  refuse (limits.maxFieldBytes < next)
    (.core (.resourceLimit "max_field_bytes"
      s!"decoded field exceeds {limits.maxFieldBytes} bytes"))
  let reserved ← p.memory.reserveString runtime p.value c.utf8Size
  return { p with value := reserved.1.push c, memory := reserved.2 }

/-- `fields.push` of the value that is taken, after its reservation. -/
def pushField (p : Parser σ) (stop : Nat) : Except ConversionError (Parser σ) := do
  let reserved ← p.memory.reserveVec runtime slotBytes p.fields 1
  return { p with
    fields := reserved.1.push ⟨p.value.items, p.fieldStart, stop⟩
    value := {}
    memory := reserved.2 }

def pushRecord (p : Parser σ) (stop : Nat) : Except ConversionError (Parser σ) := do
  let next ← okOr (checkedAdd p.records.items.length 1)
    (.core (.resourceLimit "max_table_rows" "record count overflowed"))
  refuse (limits.maxTableRows < next)
    (.core (.resourceLimit "max_table_rows" s!"{next} > {limits.maxTableRows}"))
  let reserved ← p.memory.reserveVec runtime slotBytes p.records 1
  return { p with
    records := reserved.1.push ⟨p.fields.items, p.recordStart, stop⟩
    fields := {}
    memory := reserved.2 }

end Parser

/-- Where the terminator that starts here ends: CR and LF are one. -/
def terminatorEnd (offset : Nat) (c : Char) (next : Option Char) : Nat :=
  if c = '\r' ∧ next = some '\n' then offset + 1 + '\n'.utf8Size else offset + c.utf8Size

variable (format : InputFormat) (delimiter : Char)

/-- The body of the loop: the state after it, and whether it took the next character too. -/
def turn (offset : Nat) (c : Char) (next : Option Char) (p : Parser σ) :
    Except ConversionError (Parser σ × Bool) :=
  if p.quoted then
    if c = '"' then
      if next = some '"' then
        (p.pushFieldCharacter runtime limits '"').map fun p => (p, true)
      else .ok ({ p with quoted := false, afterQuote := true }, false)
    else (p.pushFieldCharacter runtime limits c).map fun p => (p, false)
  else if p.atFieldStart ∧ c = '"' then
    .ok ({ p with quoted := true, atFieldStart := false }, false)
  else if p.afterQuote ∧ c ≠ delimiter ∧ ¬ isLineBreak c then
    malformed format offset "unexpected character after closing quote"
  else if c = delimiter then
    (p.pushField runtime offset).map fun p =>
      ({ p with fieldStart := offset + c.utf8Size, atFieldStart := true, afterQuote := false },
        false)
  else if isLineBreak c then do
    let p ← p.pushField runtime offset
    let p ← p.pushRecord runtime limits offset
    return ({ p with
      recordStart := terminatorEnd offset c next
      fieldStart := terminatorEnd offset c next
      atFieldStart := true
      afterQuote := false }, c = '\r' ∧ next = some '\n')
  else if c = '"' then malformed format offset "quote in an unquoted field"
  else (p.pushFieldCharacter runtime limits c).map fun p => ({ p with atFieldStart := false }, false)

/-- The loop; the flag says that the turn before has taken the first character. -/
def loop : Text → Nat → Bool → Parser σ → Except ConversionError (Parser σ)
  | [], _, _, p => .ok p
  | c :: rest, offset, true, p => loop rest (offset + c.utf8Size) false p
  | c :: rest, offset, false, p => do
    let p ← p.checkpoint runtime offset
    let done ← turn runtime limits format delimiter offset c rest.head? p
    loop rest (offset + c.utf8Size) done.2 done.1

/-- What follows the loop. -/
def finish (length : Nat) (p : Parser σ) : Except ConversionError (Parser σ) :=
  if p.quoted then malformed format length "unterminated quoted field"
  else if p.recordStart < length ∨ p.records.items = [] ∨ p.fieldStart < length then do
    let p ← p.pushField runtime length
    p.pushRecord runtime limits length
  else .ok p

def parseRecords (text : Text) (memory : LogicalMemory σ) :
    Except ConversionError (List RawRecord × LogicalMemory σ) := do
  let p ← loop runtime limits format delimiter text 0 false { memory }
  let p ← finish runtime limits format (byteLength text) p
  return (p.records.items, p.memory)

end

/-! ## Without limits -/

/-- What a parser has read, its memory aside. -/
structure Scan where
  records : List RawRecord := []
  fields : List RawField := []
  value : Text := []
  fieldStart : Nat := 0
  recordStart : Nat := 0
  quoted : Bool := false
  afterQuote : Bool := false
  atFieldStart : Bool := true
  deriving DecidableEq, Repr

def Parser.scan {σ : Type} (p : Parser σ) : Scan where
  records := p.records.items
  fields := p.fields.items
  value := p.value.items
  fieldStart := p.fieldStart
  recordStart := p.recordStart
  quoted := p.quoted
  afterQuote := p.afterQuote
  atFieldStart := p.atFieldStart

namespace Scan

def pushFieldCharacter (s : Scan) (c : Char) : Scan := { s with value := s.value ++ [c] }

def pushField (s : Scan) (stop : Nat) : Scan :=
  { s with fields := s.fields ++ [⟨s.value, s.fieldStart, stop⟩], value := [] }

def pushRecord (s : Scan) (stop : Nat) : Scan :=
  { s with records := s.records ++ [⟨s.fields, s.recordStart, stop⟩], fields := [] }

/-- At the start of the field after a delimiter. -/
def nextField (s : Scan) (start : Nat) : Scan :=
  { s with fieldStart := start, atFieldStart := true, afterQuote := false }

/-- At the start of the record after a terminator. -/
def nextRecord (s : Scan) (start : Nat) : Scan :=
  { s.nextField start with recordStart := start }

variable (format : InputFormat) (delimiter : Char)

def turn (offset : Nat) (c : Char) (next : Option Char) (s : Scan) :
    Except ConversionError (Scan × Bool) :=
  if s.quoted then
    if c = '"' then
      if next = some '"' then .ok (s.pushFieldCharacter '"', true)
      else .ok ({ s with quoted := false, afterQuote := true }, false)
    else .ok (s.pushFieldCharacter c, false)
  else if s.atFieldStart ∧ c = '"' then
    .ok ({ s with quoted := true, atFieldStart := false }, false)
  else if s.afterQuote ∧ c ≠ delimiter ∧ ¬ isLineBreak c then
    malformed format offset "unexpected character after closing quote"
  else if c = delimiter then .ok ((s.pushField offset).nextField (offset + c.utf8Size), false)
  else if isLineBreak c then
    .ok (((s.pushField offset).pushRecord offset).nextRecord (terminatorEnd offset c next),
      c = '\r' ∧ next = some '\n')
  else if c = '"' then malformed format offset "quote in an unquoted field"
  else .ok ({ s.pushFieldCharacter c with atFieldStart := false }, false)

def loop : Text → Nat → Bool → Scan → Except ConversionError Scan
  | [], _, _, s => .ok s
  | c :: rest, offset, true, s => loop rest (offset + c.utf8Size) false s
  | c :: rest, offset, false, s => do
    let done ← turn format delimiter offset c rest.head? s
    loop rest (offset + c.utf8Size) done.2 done.1

def finish (length : Nat) (s : Scan) : Except ConversionError Scan :=
  if s.quoted then malformed format length "unterminated quoted field"
  else if s.recordStart < length ∨ s.records = [] ∨ s.fieldStart < length then
    .ok ((s.pushField length).pushRecord length)
  else .ok s

end Scan

/-- The records of a text when nothing is limited. -/
def scanRecords (format : InputFormat) (delimiter : Char) (text : Text) :
    Except ConversionError (List RawRecord) := do
  let s ← Scan.loop format delimiter text 0 false {}
  return (← Scan.finish format (byteLength text) s).records

/-! ## The limits only refuse -/

section
variable {σ : Type} {runtime : Runtime σ} {limits : Limits}

/-- A parser has read what a scan has. -/
def Reads (p : Parser σ) (s : Scan) : Prop := p.scan = s

theorem checkpoint_limited (offset : Nat) (p : Parser σ) :
    Limited Reads (p.checkpoint runtime offset) (.ok p.scan) := by
  unfold Parser.checkpoint
  split
  · refine .of_coreOnly (CoreOnly.mapError _).map fun a h => ?_
    obtain ⟨_, _, rfl⟩ := map_ok h
    rfl
  · exact .ok rfl

theorem pushFieldCharacter_limited (p : Parser σ) (c : Char) :
    Limited Reads (p.pushFieldCharacter runtime limits c)
      (.ok (p.scan.pushFieldCharacter c)) := by
  refine .of_coreOnly ((CoreOnly.okOr _ _).bind fun _ => (CoreOnly.refuse _).bind fun _ =>
    (LogicalMemory.reserveString_coreOnly runtime _ _ _).bind fun _ => .ok _) fun a h => ?_
  obtain ⟨_, _, h⟩ := ok_bind h
  obtain ⟨_, _, h⟩ := ok_bind h
  obtain ⟨_, hreserved, h⟩ := ok_bind h
  obtain rfl := Except.ok.inj h
  simp only [Reads, Parser.scan, Scan.pushFieldCharacter, Vec.push_items,
    LogicalMemory.reserveString_items runtime hreserved]

theorem pushField_limited (p : Parser σ) (stop : Nat) :
    Limited Reads (p.pushField runtime stop) (.ok (p.scan.pushField stop)) := by
  refine .of_coreOnly ((LogicalMemory.reserveVec_coreOnly runtime _ _ _ _).bind fun _ => .ok _)
    fun a h => ?_
  obtain ⟨_, hreserved, h⟩ := ok_bind h
  obtain rfl := Except.ok.inj h
  simp only [Reads, Parser.scan, Scan.pushField, Vec.push_items,
    LogicalMemory.reserveVec_items runtime hreserved]

theorem pushRecord_limited (p : Parser σ) (stop : Nat) :
    Limited Reads (p.pushRecord runtime limits stop) (.ok (p.scan.pushRecord stop)) := by
  refine .of_coreOnly ((CoreOnly.okOr _ _).bind fun _ => (CoreOnly.refuse _).bind fun _ =>
    (LogicalMemory.reserveVec_coreOnly runtime _ _ _ _).bind fun _ => .ok _) fun a h => ?_
  obtain ⟨_, _, h⟩ := ok_bind h
  obtain ⟨_, _, h⟩ := ok_bind h
  obtain ⟨_, hreserved, h⟩ := ok_bind h
  obtain rfl := Except.ok.inj h
  simp only [Reads, Parser.scan, Scan.pushRecord, Vec.push_items,
    LogicalMemory.reserveVec_items runtime hreserved]

variable (format : InputFormat) (delimiter : Char)

/-- A turn of the loop and that of the scan. -/
def TurnReads (a : Parser σ × Bool) (b : Scan × Bool) : Prop := a.1.scan = b.1 ∧ a.2 = b.2

theorem turn_limited (offset : Nat) (c : Char) (next : Option Char) (p : Parser σ) :
    Limited TurnReads (turn runtime limits format delimiter offset c next p)
      (Scan.turn format delimiter offset c next p.scan) := by
  unfold turn Scan.turn
  by_cases hquoted : p.quoted = true
  · rw [if_pos hquoted, if_pos (show p.scan.quoted = true from hquoted)]
    split_ifs
    · exact (pushFieldCharacter_limited p '"').map_ok fun _ h => ⟨h, rfl⟩
    · exact .ok ⟨rfl, rfl⟩
    · exact (pushFieldCharacter_limited p c).map_ok fun _ h => ⟨h, rfl⟩
  rw [if_neg hquoted, if_neg (show ¬ p.scan.quoted = true from hquoted)]
  by_cases hstart : p.atFieldStart ∧ c = '"'
  · rw [if_pos hstart, if_pos (show p.scan.atFieldStart ∧ c = '"' from hstart)]
    exact .ok ⟨rfl, rfl⟩
  rw [if_neg hstart, if_neg (show ¬ (p.scan.atFieldStart ∧ c = '"') from hstart)]
  by_cases hafter : p.afterQuote ∧ c ≠ delimiter ∧ ¬ isLineBreak c
  · rw [if_pos hafter,
      if_pos (show p.scan.afterQuote ∧ c ≠ delimiter ∧ ¬ isLineBreak c from hafter)]
    exact .error _
  rw [if_neg hafter,
    if_neg (show ¬ (p.scan.afterQuote ∧ c ≠ delimiter ∧ ¬ isLineBreak c) from hafter)]
  split_ifs
  · refine (pushField_limited p offset).map_ok fun a h => ⟨?_, rfl⟩
    rw [← show a.scan = _ from h]
    rfl
  · refine (pushField_limited p offset).bind_ok fun a h => ?_
    refine (pushRecord_limited a offset).bind_ok fun a' h' => .ok ⟨?_, rfl⟩
    rw [← show a.scan = _ from h, ← show a'.scan = _ from h']
    rfl
  · exact .error _
  · refine (pushFieldCharacter_limited p c).map_ok fun a h => ⟨?_, rfl⟩
    rw [← show a.scan = _ from h]
    rfl

theorem loop_limited (text : Text) (offset : Nat) (taken : Bool) (p : Parser σ) :
    Limited Reads (loop runtime limits format delimiter text offset taken p)
      (Scan.loop format delimiter text offset taken p.scan) := by
  induction text generalizing offset taken p with
  | nil => exact .ok rfl
  | cons c rest ih =>
    cases taken with
    | true => exact ih (offset + c.utf8Size) false p
    | false =>
      refine (checkpoint_limited offset p).bind_ok fun a h => ?_
      rw [← show a.scan = _ from h]
      refine (turn_limited format delimiter offset c rest.head? a).bind fun b s hs => ?_
      rw [← hs.1, ← hs.2]
      exact ih (offset + c.utf8Size) b.2 b.1

theorem finish_limited (length : Nat) (p : Parser σ) :
    Limited Reads (finish runtime limits format length p)
      (Scan.finish format length p.scan) := by
  unfold finish Scan.finish
  by_cases hquoted : p.quoted = true
  · rw [if_pos hquoted, if_pos (show p.scan.quoted = true from hquoted)]
    exact .error _
  rw [if_neg hquoted, if_neg (show ¬ p.scan.quoted = true from hquoted)]
  by_cases hlast : p.recordStart < length ∨ p.records.items = [] ∨ p.fieldStart < length
  · rw [if_pos hlast, if_pos (show p.scan.recordStart < length ∨ p.scan.records = [] ∨
      p.scan.fieldStart < length from hlast)]
    refine (pushField_limited p length).bind_ok fun a h => ?_
    rw [← show a.scan = _ from h]
    exact pushRecord_limited a length
  · rw [if_neg hlast, if_neg (show ¬ (p.scan.recordStart < length ∨ p.scan.records = [] ∨
      p.scan.fieldStart < length) from hlast)]
    exact .ok rfl

/-- The parser fails for a limit, or it does what the scan does. -/
theorem parseRecords_limited (runtime : Runtime σ) (limits : Limits) (text : Text)
    (memory : LogicalMemory σ) :
    Limited (fun done records => done.1 = records)
      (parseRecords runtime limits format delimiter text memory)
      (scanRecords format delimiter text) := by
  refine (loop_limited format delimiter text 0 false { memory }).bind fun p s h => ?_
  rw [← show p.scan = s from h]
  exact (finish_limited format (byteLength text) p).bind fun q s hs =>
    .ok (congrArg Scan.records hs)

end

/-! ## What the limits grant -/

/-- Every field and the number of records are within the limits. -/
structure Within (limits : Limits) (s : Scan) : Prop where
  records : ∀ r ∈ s.records, ∀ f ∈ r.fields, byteLength f.value ≤ limits.maxFieldBytes
  fields : ∀ f ∈ s.fields, byteLength f.value ≤ limits.maxFieldBytes
  value : byteLength s.value ≤ limits.maxFieldBytes
  count : s.records.length ≤ limits.maxTableRows

namespace Within
variable {limits : Limits} {s : Scan}

theorem of_pushFieldCharacter {c : Char} (h : Within limits (s.pushFieldCharacter c)) :
    Within limits s := by
  refine ⟨h.records, h.fields, ?_, h.count⟩
  have hvalue : byteLength (s.value ++ [c]) ≤ limits.maxFieldBytes := h.value
  rw [byteLength_append] at hvalue
  omega

theorem of_pushField {stop : Nat} (h : Within limits (s.pushField stop)) : Within limits s := by
  refine ⟨h.records, fun f hf => h.fields f (List.mem_append_left _ hf), ?_, h.count⟩
  exact h.fields ⟨s.value, s.fieldStart, stop⟩ (List.mem_append_right _ List.mem_cons_self)

theorem of_pushRecord {stop : Nat} (h : Within limits (s.pushRecord stop)) : Within limits s := by
  refine ⟨fun r hr => h.records r (List.mem_append_left _ hr), ?_, h.value, ?_⟩
  · have hlast : (⟨s.fields, s.recordStart, stop⟩ : RawRecord) ∈ (s.pushRecord stop).records :=
      List.mem_append_right _ List.mem_cons_self
    exact h.records _ hlast
  · have hcount := h.count
    simp only [Scan.pushRecord, List.length_append] at hcount
    omega

/-- The flags and the starts are not limited. -/
theorem congr {s' : Scan} (h : Within limits s') (hrecords : s'.records = s.records)
    (hfields : s'.fields = s.fields) (hvalue : s'.value = s.value) : Within limits s :=
  ⟨hrecords ▸ h.records, hfields ▸ h.fields, hvalue ▸ h.value, hrecords ▸ h.count⟩

end Within

/-- Nothing that has been read has more bytes or elements than this. -/
structure Small (n : Nat) (s : Scan) : Prop where
  records : s.records.length ≤ n
  fields : s.fields.length ≤ n
  value : byteLength s.value ≤ n
  fieldValues : ∀ f ∈ s.fields, byteLength f.value ≤ n
  recordValues : ∀ r ∈ s.records, ∀ f ∈ r.fields, byteLength f.value ≤ n

/-- What one turn can charge, over a text of so many bytes. -/
def turnCost (length : Nat) : Nat :=
  2 * (LogicalMemory.Growth.vector slotBytes).cost (length + 1) +
    LogicalMemory.Growth.string.cost length

/-- What the parser can charge. -/
def parseCost (text : Text) : Nat := (text.length + 1) * turnCost (byteLength text)

namespace Small
variable {n m : Nat} {s : Scan}

theorem start : Small 0 {} :=
  ⟨Nat.le_refl 0, Nat.le_refl 0, Nat.le_refl 0, List.forall_mem_nil _, List.forall_mem_nil _⟩

theorem mono (h : Small n s) (hnm : n ≤ m) : Small m s :=
  ⟨h.records.trans hnm, h.fields.trans hnm, h.value.trans hnm,
    fun f hf => (h.fieldValues f hf).trans hnm, fun r hr f hf => (h.recordValues r hr f hf).trans hnm⟩

theorem pushFieldCharacter (h : Small n s) (c : Char) :
    Small (n + c.utf8Size) (s.pushFieldCharacter c) := by
  have hmono := h.mono (Nat.le_add_right n c.utf8Size)
  refine ⟨hmono.records, hmono.fields, ?_, hmono.fieldValues, hmono.recordValues⟩
  have := h.value
  simp only [Scan.pushFieldCharacter, byteLength_append, byteLength_cons, byteLength_nil]
  omega

theorem pushField (h : Small n s) (stop : Nat) : Small (n + 1) (s.pushField stop) := by
  have hmono := h.mono (Nat.le_succ n)
  refine ⟨hmono.records, ?_, Nat.zero_le _, fun f hf => ?_, hmono.recordValues⟩
  · have := h.fields
    simp only [Scan.pushField, List.length_append, List.length_singleton]
    omega
  · rcases List.mem_append.mp hf with hf | hf
    · exact hmono.fieldValues f hf
    · obtain rfl := List.mem_singleton.mp hf
      exact hmono.value

/-- The record takes the fields that were pushed for it. -/
theorem pushRecord (h : Small n s) (start stop : Nat) :
    Small (n + 1) ((s.pushField start).pushRecord stop) := by
  have hpushed := h.pushField start
  refine ⟨?_, Nat.zero_le _, hpushed.value, List.forall_mem_nil _, fun r hr => ?_⟩
  · have := h.records
    simp only [Scan.pushRecord, Scan.pushField, List.length_append, List.length_singleton]
    omega
  · rcases List.mem_append.mp hr with hr | hr
    · exact hpushed.recordValues r hr
    · obtain rfl := List.mem_singleton.mp hr
      exact hpushed.fieldValues

/-- The flags and the starts do not count. -/
theorem congr {s' : Scan} (h : Small n s) (hrecords : s'.records = s.records)
    (hfields : s'.fields = s.fields) (hvalue : s'.value = s.value) : Small n s' :=
  ⟨hrecords ▸ h.records, hfields ▸ h.fields, hvalue ▸ h.value, hfields ▸ h.fieldValues,
    hrecords ▸ h.recordValues⟩

theorem within {limits : Limits} (h : Small n s) (hfield : n ≤ limits.maxFieldBytes)
    (hrows : n ≤ limits.maxTableRows) : Within limits s :=
  ⟨fun r hr f hf => (h.recordValues r hr f hf).trans hfield,
    fun f hf => (h.fieldValues f hf).trans hfield, h.value.trans hfield, h.records.trans hrows⟩

end Small

section
variable {σ : Type} {runtime : Runtime σ} {limits : Limits}

/-- The call succeeds, has read this, and leaves so many bytes to charge. -/
def Grants (x : Except ConversionError (Parser σ)) (s : Scan) (more : Nat) : Prop :=
  ∃ p, x = .ok p ∧ p.scan = s ∧ p.memory.Affords more

theorem Grants.of_limited {x : Except ConversionError (Parser σ)} {p : Parser σ} {s : Scan}
    {more : Nat} (hx : x = .ok p) (hlimited : Limited Reads x (.ok s))
    (hmore : p.memory.Affords more) : Grants x s more := by
  rcases hlimited with ⟨c, hc⟩ | hrefines
  · cases hx.symm.trans hc
  · obtain ⟨s', hs', hreads⟩ := hrefines.of_ok hx
    exact ⟨p, hx, hreads.trans (Except.ok.inj hs').symm, hmore⟩

variable {length n more : Nat} {p : Parser σ}

theorem checkpoint_granted (hruntime : runtime.Generous) (offset : Nat)
    (h : p.memory.Affords more) : Grants (p.checkpoint runtime offset) p.scan more := by
  unfold Parser.checkpoint
  split
  · obtain ⟨world, hworld⟩ := hruntime.checkpoint p.memory.world
    rw [hworld]
    exact ⟨_, rfl, rfl, h.total, h.limit⟩
  · exact ⟨p, rfl, rfl, h⟩

theorem pushFieldCharacter_granted (hruntime : runtime.Generous) {c : Char}
    (hsmall : Small n p.scan) (hn : n + c.utf8Size ≤ length)
    (hwithin : Within limits (p.scan.pushFieldCharacter c))
    (h : p.memory.Affords (turnCost length + more)) :
    Grants (p.pushFieldCharacter runtime limits c) (p.scan.pushFieldCharacter c) more := by
  have hvalue : byteLength p.value.items + c.utf8Size ≤ length :=
    (Nat.add_le_add_right hsmall.value _).trans hn
  have hlimit : byteLength p.value.items + c.utf8Size ≤ limits.maxFieldBytes := by
    have hbytes : byteLength (p.value.items ++ [c]) ≤ limits.maxFieldBytes := hwithin.value
    rwa [byteLength_append, byteLength_cons, byteLength_nil] at hbytes
  have hcost : LogicalMemory.Growth.string.cost (byteLength p.value.items + c.utf8Size) + more ≤
      turnCost length + more := by
    have := LogicalMemory.Growth.string.cost_mono hvalue
    unfold turnCost
    omega
  have hmodulus : byteLength p.value.items + c.utf8Size < usizeModulus := by
    have htotal := (h.mono hcost).total
    simp only [LogicalMemory.Growth.cost, LogicalMemory.Growth.string] at htotal
    omega
  obtain ⟨done, hdone, hafter⟩ :=
    LogicalMemory.reserveString_ok hruntime hmodulus (h.mono hcost)
  refine .of_limited (p := { p with value := done.1.push c, memory := done.2 }) ?_
    (pushFieldCharacter_limited p c) hafter
  rw [Parser.pushFieldCharacter, show checkedAdd _ _ = some _ from if_pos hmodulus]
  exact bind_ok_iff.mpr ⟨_, rfl, refuse_bind_ok.mpr
    ⟨Nat.not_lt.mpr hlimit, bind_ok_iff.mpr ⟨done, hdone, rfl⟩⟩⟩

theorem pushField_granted (hruntime : runtime.Generous) (stop : Nat)
    (hsmall : p.scan.fields.length ≤ length)
    (h : p.memory.Affords ((LogicalMemory.Growth.vector slotBytes).cost (length + 1) + more)) :
    Grants (p.pushField runtime stop) (p.scan.pushField stop) more := by
  have hfields : p.fields.items.length + 1 ≤ length + 1 :=
    Nat.succ_le_succ hsmall
  have hcost := h.mono (Nat.add_le_add_right
    ((LogicalMemory.Growth.vector slotBytes).cost_mono hfields) more)
  have hmodulus : p.fields.items.length + 1 < usizeModulus := by
    have htotal := hcost.total
    simp only [LogicalMemory.Growth.cost, LogicalMemory.Growth.vector, slotBytes] at htotal
    omega
  obtain ⟨done, hdone, hafter⟩ := LogicalMemory.reserveVec_ok hruntime hmodulus hcost
  refine .of_limited (p := { p with
    fields := done.1.push ⟨p.value.items, p.fieldStart, stop⟩
    value := {}
    memory := done.2 }) ?_ (pushField_limited p stop) hafter
  exact bind_ok_iff.mpr ⟨done, hdone, rfl⟩

theorem pushRecord_granted (hruntime : runtime.Generous) (stop : Nat)
    (hsmall : p.scan.records.length ≤ length) (hwithin : Within limits (p.scan.pushRecord stop))
    (h : p.memory.Affords ((LogicalMemory.Growth.vector slotBytes).cost (length + 1) + more)) :
    Grants (p.pushRecord runtime limits stop) (p.scan.pushRecord stop) more := by
  have hrecords : p.records.items.length + 1 ≤ length + 1 :=
    Nat.succ_le_succ hsmall
  have hlimit : p.records.items.length + 1 ≤ limits.maxTableRows := by
    have hcount := hwithin.count
    simp only [Scan.pushRecord, List.length_append] at hcount
    exact hcount
  have hcost := h.mono (Nat.add_le_add_right
    ((LogicalMemory.Growth.vector slotBytes).cost_mono hrecords) more)
  have hmodulus : p.records.items.length + 1 < usizeModulus := by
    have htotal := hcost.total
    simp only [LogicalMemory.Growth.cost, LogicalMemory.Growth.vector, slotBytes] at htotal
    omega
  obtain ⟨done, hdone, hafter⟩ := LogicalMemory.reserveVec_ok hruntime hmodulus hcost
  refine .of_limited (p := { p with
    records := done.1.push ⟨p.fields.items, p.recordStart, stop⟩
    fields := {}
    memory := done.2 }) ?_ (pushRecord_limited p stop) hafter
  rw [Parser.pushRecord, show checkedAdd _ _ = some _ from if_pos hmodulus]
  exact bind_ok_iff.mpr ⟨_, rfl, refuse_bind_ok.mpr
    ⟨Nat.not_lt.mpr hlimit, bind_ok_iff.mpr ⟨done, hdone, rfl⟩⟩⟩

theorem endRecord_granted (hruntime : runtime.Generous) (stop : Nat)
    (hsmall : Small length p.scan)
    (hwithin : Within limits ((p.scan.pushField stop).pushRecord stop))
    (h : p.memory.Affords (turnCost length + more)) :
    Grants (p.pushField runtime stop >>= fun p => p.pushRecord runtime limits stop)
      ((p.scan.pushField stop).pushRecord stop) more := by
  have hcost : p.memory.Affords ((LogicalMemory.Growth.vector slotBytes).cost (length + 1) +
      ((LogicalMemory.Growth.vector slotBytes).cost (length + 1) + more)) :=
    h.mono (by unfold turnCost; omega)
  obtain ⟨p₁, hp₁, hscan₁, hafford₁⟩ := pushField_granted hruntime stop hsmall.fields hcost
  rw [← hscan₁] at hwithin ⊢
  obtain ⟨p₂, hp₂, hdone⟩ := pushRecord_granted hruntime stop
    (hscan₁ ▸ hsmall.records) hwithin hafford₁
  exact ⟨p₂, bind_ok_iff.mpr ⟨p₁, hp₁, hp₂⟩, hdone⟩

variable {format : InputFormat} {delimiter : Char}

theorem turn_within {offset : Nat} {c : Char} {next : Option Char} {s s' : Scan} {taken : Bool}
    (h : Scan.turn format delimiter offset c next s = .ok (s', taken))
    (hwithin : Within limits s') : Within limits s := by
  unfold Scan.turn at h
  split_ifs at h
  · obtain ⟨rfl, rfl⟩ := Prod.mk.inj (Except.ok.inj h)
    exact hwithin.of_pushFieldCharacter
  · obtain ⟨rfl, rfl⟩ := Prod.mk.inj (Except.ok.inj h)
    exact hwithin.congr rfl rfl rfl
  · obtain ⟨rfl, rfl⟩ := Prod.mk.inj (Except.ok.inj h)
    exact hwithin.of_pushFieldCharacter
  · obtain ⟨rfl, rfl⟩ := Prod.mk.inj (Except.ok.inj h)
    exact hwithin.congr rfl rfl rfl
  · cases h
  · obtain ⟨rfl, rfl⟩ := Prod.mk.inj (Except.ok.inj h)
    have hpushed : Within limits (s.pushField offset) := hwithin.congr rfl rfl rfl
    exact hpushed.of_pushField
  · obtain ⟨rfl, rfl⟩ := Prod.mk.inj (Except.ok.inj h)
    have hpushed : Within limits ((s.pushField offset).pushRecord offset) :=
      hwithin.congr rfl rfl rfl
    exact hpushed.of_pushRecord.of_pushField
  · cases h
  · obtain ⟨rfl, rfl⟩ := Prod.mk.inj (Except.ok.inj h)
    have hpushed : Within limits (s.pushFieldCharacter c) := hwithin.congr rfl rfl rfl
    exact hpushed.of_pushFieldCharacter

theorem loop_within (text : Text) {offset : Nat} {taken : Bool} {s s' : Scan}
    (h : Scan.loop format delimiter text offset taken s = .ok s') (hwithin : Within limits s') :
    Within limits s := by
  induction text generalizing offset taken s with
  | nil =>
    obtain rfl := Except.ok.inj h
    exact hwithin
  | cons c rest ih =>
    cases taken with
    | true => exact ih h
    | false =>
      obtain ⟨done, hturn, h⟩ := ok_bind h
      exact turn_within hturn (ih h)

theorem turn_small {offset : Nat} {c : Char} {next : Option Char} {s s' : Scan} {taken : Bool}
    (h : Scan.turn format delimiter offset c next s = .ok (s', taken)) (hsmall : Small n s) :
    Small (n + c.utf8Size) s' := by
  have hone : n + 1 ≤ n + c.utf8Size := Nat.add_le_add_left c.utf8Size_pos n
  unfold Scan.turn at h
  split_ifs at h with _ hquote
  · obtain ⟨rfl, rfl⟩ := Prod.mk.inj (Except.ok.inj h)
    subst hquote
    exact hsmall.pushFieldCharacter '"'
  · obtain ⟨rfl, rfl⟩ := Prod.mk.inj (Except.ok.inj h)
    exact (hsmall.mono (Nat.le_add_right _ _)).congr rfl rfl rfl
  · obtain ⟨rfl, rfl⟩ := Prod.mk.inj (Except.ok.inj h)
    exact hsmall.pushFieldCharacter c
  · obtain ⟨rfl, rfl⟩ := Prod.mk.inj (Except.ok.inj h)
    exact (hsmall.mono (Nat.le_add_right _ _)).congr rfl rfl rfl
  · cases h
  · obtain ⟨rfl, rfl⟩ := Prod.mk.inj (Except.ok.inj h)
    exact ((hsmall.pushField offset).mono hone).congr rfl rfl rfl
  · obtain ⟨rfl, rfl⟩ := Prod.mk.inj (Except.ok.inj h)
    exact ((hsmall.pushRecord offset offset).mono hone).congr rfl rfl rfl
  · cases h
  · obtain ⟨rfl, rfl⟩ := Prod.mk.inj (Except.ok.inj h)
    exact (hsmall.pushFieldCharacter c).congr rfl rfl rfl

theorem loop_small (text : Text) {offset : Nat} {taken : Bool} {s s' : Scan}
    (h : Scan.loop format delimiter text offset taken s = .ok s') (hsmall : Small n s) :
    Small (n + byteLength text) s' := by
  induction text generalizing offset taken s n with
  | nil =>
    obtain rfl := Except.ok.inj h
    exact hsmall
  | cons c rest ih =>
    rw [byteLength_cons, ← Nat.add_assoc]
    cases taken with
    | true => exact ih h (hsmall.mono (Nat.le_add_right _ _))
    | false =>
      obtain ⟨done, hturn, h⟩ := ok_bind h
      exact ih h (turn_small hturn hsmall)

theorem finish_small {s s' : Scan} (h : Scan.finish format length s = .ok s')
    (hsmall : Small n s) : Small (n + 1) s' := by
  unfold Scan.finish at h
  split_ifs at h
  · cases h
  · obtain rfl := Except.ok.inj h
    exact hsmall.pushRecord length length
  · obtain rfl := Except.ok.inj h
    exact hsmall.mono (Nat.le_succ n)

theorem turn_granted (hruntime : runtime.Generous) {offset : Nat} {c : Char} {next : Option Char}
    {s' : Scan} {taken : Bool}
    (hturn : Scan.turn format delimiter offset c next p.scan = .ok (s', taken))
    (hsmall : Small n p.scan) (hn : n + c.utf8Size ≤ length) (hwithin : Within limits s')
    (h : p.memory.Affords (turnCost length + more)) :
    ∃ p', turn runtime limits format delimiter offset c next p = .ok (p', taken) ∧
      p'.scan = s' ∧ p'.memory.Affords more := by
  have hmore : p.memory.Affords more := h.mono (Nat.le_add_left _ _)
  have hlength : n ≤ length := Nat.le_of_add_right_le hn
  unfold Scan.turn at hturn
  unfold turn
  split_ifs at hturn with hquoted hquote hnext hstart hafter hdelimiter hbreak hquote
  · obtain ⟨rfl, rfl⟩ := Prod.mk.inj (Except.ok.inj hturn)
    subst hquote
    obtain ⟨p', hp', hscan, hafford⟩ := pushFieldCharacter_granted hruntime hsmall hn hwithin h
    refine ⟨p', ?_, hscan, hafford⟩
    rw [if_pos (show p.quoted = true from hquoted), if_pos rfl, if_pos hnext, hp']
    rfl
  · obtain ⟨rfl, rfl⟩ := Prod.mk.inj (Except.ok.inj hturn)
    refine ⟨{ p with quoted := false, afterQuote := true }, ?_, rfl, hmore⟩
    rw [if_pos (show p.quoted = true from hquoted), if_pos hquote, if_neg hnext]
  · obtain ⟨rfl, rfl⟩ := Prod.mk.inj (Except.ok.inj hturn)
    obtain ⟨p', hp', hscan, hafford⟩ := pushFieldCharacter_granted hruntime hsmall hn hwithin h
    refine ⟨p', ?_, hscan, hafford⟩
    rw [if_pos (show p.quoted = true from hquoted), if_neg hquote, hp']
    rfl
  · obtain ⟨rfl, rfl⟩ := Prod.mk.inj (Except.ok.inj hturn)
    refine ⟨{ p with quoted := true, atFieldStart := false }, ?_, rfl, hmore⟩
    rw [if_neg (show ¬ p.quoted = true from hquoted),
      if_pos (show p.atFieldStart ∧ c = '"' from hstart)]
  · cases hturn
  · obtain ⟨rfl, rfl⟩ := Prod.mk.inj (Except.ok.inj hturn)
    have hcost : p.memory.Affords
        ((LogicalMemory.Growth.vector slotBytes).cost (length + 1) + more) :=
      h.mono (by unfold turnCost; omega)
    obtain ⟨p', hp', hscan, hafford⟩ :=
      pushField_granted hruntime offset (hsmall.fields.trans hlength) hcost
    refine ⟨{ p' with fieldStart := offset + c.utf8Size, atFieldStart := true, afterQuote := false },
      ?_, ?_, hafford⟩
    · rw [if_neg (show ¬ p.quoted = true from hquoted),
        if_neg (show ¬ (p.atFieldStart ∧ c = '"') from hstart),
        if_neg (show ¬ (p.afterQuote ∧ c ≠ delimiter ∧ ¬ isLineBreak c) from hafter),
        if_pos hdelimiter, hp']
      rfl
    · rw [← hscan]
      rfl
  · obtain ⟨rfl, rfl⟩ := Prod.mk.inj (Except.ok.inj hturn)
    have hpushed : Within limits ((p.scan.pushField offset).pushRecord offset) :=
      hwithin.congr rfl rfl rfl
    obtain ⟨p₂, hp₂, hscan₂, hafford₂⟩ :=
      endRecord_granted hruntime offset (hsmall.mono hlength) hpushed h
    obtain ⟨p₁, hp₁, hp₂⟩ := ok_bind hp₂
    refine ⟨{ p₂ with
      recordStart := terminatorEnd offset c next
      fieldStart := terminatorEnd offset c next
      atFieldStart := true
      afterQuote := false }, ?_, ?_, hafford₂⟩
    · rw [if_neg (show ¬ p.quoted = true from hquoted),
        if_neg (show ¬ (p.atFieldStart ∧ c = '"') from hstart),
        if_neg (show ¬ (p.afterQuote ∧ c ≠ delimiter ∧ ¬ isLineBreak c) from hafter),
        if_neg hdelimiter, if_pos hbreak]
      exact bind_ok_iff.mpr ⟨p₁, hp₁, bind_ok_iff.mpr ⟨p₂, hp₂, rfl⟩⟩
    · rw [← hscan₂]
      rfl
  · cases hturn
  · obtain ⟨rfl, rfl⟩ := Prod.mk.inj (Except.ok.inj hturn)
    have hpushed : Within limits (p.scan.pushFieldCharacter c) := hwithin.congr rfl rfl rfl
    obtain ⟨p', hp', hscan, hafford⟩ := pushFieldCharacter_granted hruntime hsmall hn hpushed h
    refine ⟨{ p' with atFieldStart := false }, ?_, ?_, hafford⟩
    · rw [if_neg (show ¬ p.quoted = true from hquoted),
        if_neg (show ¬ (p.atFieldStart ∧ c = '"') from hstart),
        if_neg (show ¬ (p.afterQuote ∧ c ≠ delimiter ∧ ¬ isLineBreak c) from hafter),
        if_neg hdelimiter, if_neg hbreak, if_neg hquote, hp']
      rfl
    · rw [← hscan]
      rfl

theorem loop_granted (hruntime : runtime.Generous) (text : Text) {offset : Nat} {taken : Bool}
    {s' : Scan} (hloop : Scan.loop format delimiter text offset taken p.scan = .ok s')
    (hsmall : Small n p.scan) (hn : n + byteLength text ≤ length) (hwithin : Within limits s')
    (h : p.memory.Affords (text.length * turnCost length + more)) :
    ∃ p', loop runtime limits format delimiter text offset taken p = .ok p' ∧ p'.scan = s' ∧
      p'.memory.Affords more := by
  induction text generalizing offset taken p n with
  | nil =>
    obtain rfl := Except.ok.inj hloop
    exact ⟨p, rfl, rfl, h.mono (Nat.le_add_left _ _)⟩
  | cons c rest ih =>
    rw [byteLength_cons] at hn
    have hcost : turnCost length + (rest.length * turnCost length + more) =
        (c :: rest).length * turnCost length + more := by
      rw [List.length_cons, Nat.succ_mul]
      omega
    rw [← hcost] at h
    cases taken with
    | true =>
      obtain ⟨p', hp', hdone⟩ := ih hloop hsmall (by omega) (h.mono (Nat.le_add_left _ _))
      exact ⟨p', hp', hdone⟩
    | false =>
      obtain ⟨done, hturn, hloop⟩ := ok_bind hloop
      obtain ⟨p₁, hp₁, hscan₁, hafford₁⟩ := checkpoint_granted hruntime offset h
      rw [← hscan₁] at hturn hsmall
      obtain ⟨p₂, hp₂, hscan₂, hafford₂⟩ := turn_granted hruntime hturn hsmall (by omega)
        (loop_within rest hloop hwithin) hafford₁
      have hsmall₂ := turn_small hturn hsmall
      rw [← hscan₂] at hloop hsmall₂
      obtain ⟨p₃, hp₃, hdone⟩ := ih hloop hsmall₂ (by omega) hafford₂
      exact ⟨p₃, bind_ok_iff.mpr ⟨p₁, hp₁, bind_ok_iff.mpr ⟨_, hp₂, hp₃⟩⟩, hdone⟩

theorem finish_granted (hruntime : runtime.Generous) {s' : Scan}
    (hfinish : Scan.finish format length p.scan = .ok s') (hsmall : Small length p.scan)
    (hwithin : Within limits s') (h : p.memory.Affords (turnCost length)) :
    ∃ p', finish runtime limits format length p = .ok p' ∧ p'.scan = s' := by
  unfold Scan.finish at hfinish
  split_ifs at hfinish with hquoted hlast
  · cases hfinish
  · obtain rfl := Except.ok.inj hfinish
    have hcost : p.memory.Affords (turnCost length + 0) := h
    obtain ⟨p', hp', hscan, _⟩ := endRecord_granted hruntime length hsmall hwithin hcost
    refine ⟨p', ?_, hscan⟩
    rw [finish, if_neg (show ¬ p.quoted = true from hquoted),
      if_pos (show p.recordStart < length ∨ p.records.items = [] ∨ p.fieldStart < length from hlast)]
    exact hp'
  · obtain rfl := Except.ok.inj hfinish
    refine ⟨p, ?_, rfl⟩
    rw [finish, if_neg (show ¬ p.quoted = true from hquoted),
      if_neg (show ¬ (p.recordStart < length ∨ p.records.items = [] ∨ p.fieldStart < length)
        from hlast)]

theorem finish_within {s s' : Scan} (h : Scan.finish format length s = .ok s')
    (hwithin : Within limits s') : Within limits s := by
  unfold Scan.finish at h
  split_ifs at h
  · cases h
  · obtain rfl := Except.ok.inj h
    exact hwithin.of_pushRecord.of_pushField
  · obtain rfl := Except.ok.inj h
    exact hwithin

/-- What the scan reads within the limits the parser reads. -/
theorem parseRecords_granted (hruntime : runtime.Generous) {text : Text} {s s' : Scan}
    (hloop : Scan.loop format delimiter text 0 false {} = .ok s)
    (hfinish : Scan.finish format (byteLength text) s = .ok s') (hwithin : Within limits s')
    {memory : LogicalMemory σ} (h : memory.Affords (parseCost text)) :
    ∃ memory', parseRecords runtime limits format delimiter text memory =
      .ok (s'.records, memory') := by
  have hcost : memory.Affords
      (text.length * turnCost (byteLength text) + turnCost (byteLength text)) := by
    rwa [parseCost, Nat.succ_mul] at h
  have hsmall' := loop_small text hloop Small.start
  rw [Nat.zero_add] at hsmall'
  obtain ⟨p, hp, rfl, hafford⟩ := loop_granted hruntime text
    (show Scan.loop format delimiter text 0 false (Parser.scan { memory }) = .ok s from hloop)
    Small.start (Nat.zero_add _).le (finish_within hfinish hwithin) hcost
  obtain ⟨p', hp', rfl⟩ := finish_granted hruntime hfinish hsmall' hwithin hafford
  exact ⟨p'.memory, bind_ok_iff.mpr ⟨p, hp, bind_ok_iff.mpr ⟨p', hp', rfl⟩⟩⟩

end

end IntoMarkdown.Converters.Delimited
