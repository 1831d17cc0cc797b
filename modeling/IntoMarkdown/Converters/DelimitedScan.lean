import IntoMarkdown.Converters.DelimitedGrammar

/-! # What the scan accepts

After every turn the scan stands for a stretch of written text: terminated records, the
fields of the record it is in, and the part of a field that it has read. -/

namespace IntoMarkdown.Converters.Delimited
open Lib Strings

/-! ## Accepted texts are written -/

/-- The field that the scan is in. -/
inductive Part where
  | start
  | plain (value : Text)
  | opened (value : Text)
  | closed (value : Text)

namespace Part

def value : Part → Text
  | start => []
  | plain value => value
  | opened value => value
  | closed value => value

def text : Part → Text
  | start => []
  | plain value => value
  | opened value => '"' :: escape value
  | closed value => '"' :: (escape value ++ ['"'])

/-- The field when it ends here. -/
def field : Part → Field
  | start => .plain []
  | plain value => .plain value
  | opened value => .quoted value
  | closed value => .quoted value

def quoted : Part → Bool
  | opened _ => true
  | _ => false

def afterQuote : Part → Bool
  | closed _ => true
  | _ => false

def atFieldStart : Part → Bool
  | start => true
  | _ => false

def Valid (delimiter : Char) : Part → Prop
  | plain value => value ≠ [] ∧ ∀ c ∈ value, Free delimiter c
  | _ => True

@[simp] theorem text_start : start.text = [] := rfl

@[simp] theorem value_start : start.value = [] := rfl

@[simp] theorem quoted_start : start.quoted = false := rfl

@[simp] theorem afterQuote_start : start.afterQuote = false := rfl

@[simp] theorem atFieldStart_start : start.atFieldStart = true := rfl

@[simp] theorem value_field (part : Part) : part.field.value = part.value := by
  cases part <;> rfl

theorem eq_opened {part : Part} (h : part.quoted = true) : ∃ value, part = opened value := by
  cases part with
  | opened value => exact ⟨value, rfl⟩
  | _ => cases h

theorem eq_start {part : Part} (h : part.atFieldStart = true) : part = start := by
  cases part with
  | start => rfl
  | _ => cases h

theorem text_field {part : Part} (h : part.quoted = false) : part.field.text = part.text := by
  cases part with
  | opened value => cases h
  | _ => rfl

theorem valid_field {delimiter : Char} {part : Part} (h : part.Valid delimiter) :
    part.field.Valid delimiter := by
  cases part with
  | start => exact List.forall_mem_nil _
  | plain value => exact h.2
  | opened value => trivial
  | closed value => trivial

end Part

/-- What has been read. -/
structure Consumed where
  rows : List Row
  fields : List Field
  part : Part

section
variable {delimiter : Char}

namespace Consumed

def text (delimiter : Char) (k : Consumed) : Text :=
  rowsText delimiter k.rows ++ (openText delimiter k.fields ++ k.part.text)

structure Valid (delimiter : Char) (k : Consumed) : Prop where
  rows : ∀ row ∈ k.rows, ValidFields delimiter row.1
  fields : ∀ f ∈ k.fields, f.Valid delimiter
  part : k.part.Valid delimiter

/-- The state of a scan that has read this. -/
def scan (delimiter : Char) (k : Consumed) : Scan where
  records := layoutRows delimiter 0 k.rows
  fields := layoutFields delimiter (byteLength (rowsText delimiter k.rows)) k.fields
  value := k.part.value
  fieldStart :=
    byteLength (rowsText delimiter k.rows) + byteLength (openText delimiter k.fields)
  recordStart := byteLength (rowsText delimiter k.rows)
  quoted := k.part.quoted
  afterQuote := k.part.afterQuote
  atFieldStart := k.part.atFieldStart

/-- The fields of the record when it ends here. -/
def closed (k : Consumed) : List Field := k.fields ++ [k.part.field]

theorem validFields_closed {k : Consumed} (h : k.Valid delimiter) :
    ValidFields delimiter k.closed := by
  refine ⟨by simp [closed], fun f hf => ?_⟩
  rcases List.mem_append.mp hf with hf | hf
  · exact h.fields f hf
  · obtain rfl := List.mem_singleton.mp hf
    exact Part.valid_field h.part

theorem text_closed {k : Consumed} (h : k.part.quoted = false) :
    k.text delimiter = rowsText delimiter k.rows ++ fieldsText delimiter k.closed := by
  rw [closed, fieldsText_concat, Part.text_field h, text]

/-- The scan after the field is pushed. -/
theorem pushField_scan {k : Consumed} (h : k.part.quoted = false) :
    (k.scan delimiter).pushField (byteLength (k.text delimiter)) = { k.scan delimiter with
      fields := layoutFields delimiter (byteLength (rowsText delimiter k.rows)) k.closed
      value := [] } := by
  simp only [Scan.pushField, scan, closed, layoutFields_concat, text, byteLength_append,
    Part.value_field, Part.text_field h, Nat.add_assoc]

def afterDelimiter (k : Consumed) : Consumed := ⟨k.rows, k.closed, .start⟩

def afterTerminator (k : Consumed) (t : Terminator) : Consumed :=
  ⟨k.rows ++ [(k.closed, t)], [], .start⟩

theorem afterDelimiter_text {k : Consumed} (h : k.part.quoted = false) :
    k.afterDelimiter.text delimiter = k.text delimiter ++ [delimiter] := by
  simp [afterDelimiter, text, closed, openText, Part.text, Part.text_field h]

theorem afterDelimiter_valid {k : Consumed} (h : k.Valid delimiter) :
    k.afterDelimiter.Valid delimiter :=
  ⟨h.rows, (validFields_closed h).2, trivial⟩

theorem afterDelimiter_scan {k : Consumed} (h : k.part.quoted = false) :
    ((k.scan delimiter).pushField (byteLength (k.text delimiter))).nextField
      (byteLength (k.text delimiter) + delimiter.utf8Size) = k.afterDelimiter.scan delimiter := by
  have htext := congrArg byteLength (@afterDelimiter_text delimiter k h)
  simp only [afterDelimiter, text, Part.text_start, List.append_nil, byteLength_append,
    byteLength_cons, byteLength_nil, Nat.add_zero] at htext
  rw [pushField_scan h]
  simp only [Scan.nextField, scan, afterDelimiter, Part.value_start, Part.quoted_start,
    Part.afterQuote_start, Part.atFieldStart_start, h, text, byteLength_append, htext]

theorem afterTerminator_text {k : Consumed} (h : k.part.quoted = false) (t : Terminator) :
    (k.afterTerminator t).text delimiter = k.text delimiter ++ t.text := by
  rw [text_closed h]
  simp [afterTerminator, text, rowsText_append, openText, rowText]

theorem afterTerminator_valid {k : Consumed} (h : k.Valid delimiter) (t : Terminator) :
    (k.afterTerminator t).Valid delimiter := by
  refine ⟨fun row hrow => ?_, List.forall_mem_nil _, trivial⟩
  rcases List.mem_append.mp hrow with hrow | hrow
  · exact h.rows row hrow
  · obtain rfl := List.mem_singleton.mp hrow
    exact validFields_closed h

theorem afterTerminator_scan {k : Consumed} (h : k.part.quoted = false) (t : Terminator) :
    (((k.scan delimiter).pushField (byteLength (k.text delimiter))).pushRecord
      (byteLength (k.text delimiter))).nextRecord
        (byteLength (k.text delimiter) + byteLength t.text) =
      (k.afterTerminator t).scan delimiter := by
  have hrecord : (byteLength (k.text delimiter)) = byteLength (rowsText delimiter k.rows) +
      byteLength (fieldsText delimiter k.closed) := by
    rw [text_closed h, byteLength_append]
  rw [pushField_scan h]
  simp only [Scan.pushRecord, Scan.nextRecord, Scan.nextField, scan, afterTerminator,
    Part.value_start, Part.quoted_start, Part.afterQuote_start, Part.atFieldStart_start, h,
    layoutRows_concat, layoutRecord, Nat.zero_add, hrecord, layoutFields, openText,
    List.flatMap_nil, byteLength_nil, Nat.add_zero, rowText, byteLength_append, rowsText_append,
    rowsText_cons, rowsText_nil, Nat.add_assoc]

end Consumed

/-! ## One turn -/

/-- A terminator that begins with this character when the next one is in sight. -/
def terminatorAt (c : Char) (next : Option Char) : Terminator :=
  if c = '\r' then if next = some '\n' then .crlf else .cr else .lf

theorem terminatorEnd_eq {c : Char} (hc : isLineBreak c = true) (offset : Nat)
    (next : Option Char) :
    terminatorEnd offset c next = offset + byteLength (terminatorAt c next).text := by
  have hbreak : c = '\r' ∨ c = '\n' := by simpa [isLineBreak] using hc
  rcases hbreak with rfl | rfl
  · by_cases hnext : next = some '\n'
    · simp [terminatorEnd, terminatorAt, hnext, Terminator.text, Nat.add_assoc]
      decide
    · simp [terminatorEnd, terminatorAt, hnext, Terminator.text]
  · simp [terminatorEnd, terminatorAt, Terminator.text]

theorem terminatorAt_text {c : Char} (hc : isLineBreak c = true) (next : Option Char) :
    (terminatorAt c next).text =
      if c = '\r' ∧ next = some '\n' then ['\r', '\n'] else [c] := by
  have hbreak : c = '\r' ∨ c = '\n' := by simpa [isLineBreak] using hc
  rcases hbreak with rfl | rfl
  · by_cases hnext : next = some '\n' <;> simp [terminatorAt, hnext, Terminator.text]
  · simp [terminatorAt, Terminator.text]

variable {format : InputFormat}

/-- What a turn reads: its character, and the next one if it takes that too. -/
def Takes (c : Char) (next : Option Char) (taken : Bool) (text : Text) : Prop :=
  taken = false ∧ text = [c] ∨ ∃ d, taken = true ∧ next = some d ∧ text = [c, d]

/-- A turn inside quotes. -/
theorem turn_opened {rows : List Row} {fields : List Field} {value : Text} {offset : Nat}
    {c : Char} {next : Option Char} {s : Scan} {taken : Bool}
    (h : Scan.turn format delimiter offset c next
      (Consumed.scan delimiter ⟨rows, fields, .opened value⟩) = .ok (s, taken)) :
    ∃ part : Part, ∃ text, part.Valid delimiter ∧ s = Consumed.scan delimiter ⟨rows, fields, part⟩ ∧
      part.text = Part.text (.opened value) ++ text ∧ Takes c next taken text := by
  unfold Scan.turn at h
  rw [if_pos (show (Consumed.scan delimiter ⟨rows, fields, .opened value⟩).quoted = true from rfl)]
    at h
  split_ifs at h with hc hnext
  · obtain ⟨rfl, rfl⟩ := Prod.mk.inj (Except.ok.inj h)
    refine ⟨.opened (value ++ ['"']), ['"', '"'], trivial, rfl, ?_, Or.inr ⟨'"', rfl, hnext, ?_⟩⟩
    · simp [Part.text, escape]
    · rw [hc]
  · obtain ⟨rfl, rfl⟩ := Prod.mk.inj (Except.ok.inj h)
    refine ⟨.closed value, ['"'], trivial, rfl, rfl, Or.inl ⟨rfl, ?_⟩⟩
    rw [hc]
  · obtain ⟨rfl, rfl⟩ := Prod.mk.inj (Except.ok.inj h)
    refine ⟨.opened (value ++ [c]), [c], trivial, rfl, ?_, Or.inl ⟨rfl, rfl⟩⟩
    simp [Part.text, escape_append, escape_other hc]

/-- A turn that does not fail leads from what has been read to what has been read then. -/
theorem turn_consumed {k : Consumed} (hk : k.Valid delimiter) {c : Char} {next : Option Char}
    {s : Scan} {taken : Bool}
    (h : Scan.turn format delimiter (byteLength (k.text delimiter)) c next (k.scan delimiter) =
      .ok (s, taken)) :
    ∃ k' : Consumed, ∃ text, k'.Valid delimiter ∧ s = k'.scan delimiter ∧
      k'.text delimiter = k.text delimiter ++ text ∧ Takes c next taken text := by
  by_cases hquoted : k.part.quoted = true
  · obtain ⟨rows, fields, part⟩ := k
    obtain ⟨value, rfl⟩ := Part.eq_opened hquoted
    obtain ⟨part, text, hpart, rfl, htext, htakes⟩ := turn_opened h
    refine ⟨⟨rows, fields, part⟩, text, ⟨hk.rows, hk.fields, hpart⟩, rfl, ?_, htakes⟩
    simp only [Consumed.text, htext, List.append_assoc]
  have hopen := Bool.eq_false_iff.mpr hquoted
  unfold Scan.turn at h
  rw [if_neg (show ¬ (k.scan delimiter).quoted = true from hquoted)] at h
  split_ifs at h with hstart hafter hdelimiter hbreak hquote
  · obtain ⟨rfl, rfl⟩ := Prod.mk.inj (Except.ok.inj h)
    obtain ⟨rows, fields, part⟩ := k
    obtain rfl := Part.eq_start hstart.1
    refine ⟨⟨rows, fields, .opened []⟩, ['"'], ⟨hk.rows, hk.fields, trivial⟩, rfl, ?_,
      Or.inl ⟨rfl, by rw [hstart.2]⟩⟩
    simp [Consumed.text, Part.text]
  · cases h
  · obtain ⟨rfl, rfl⟩ := Prod.mk.inj (Except.ok.inj h)
    subst hdelimiter
    exact ⟨k.afterDelimiter, _, Consumed.afterDelimiter_valid hk,
      Consumed.afterDelimiter_scan hopen, Consumed.afterDelimiter_text hopen, Or.inl ⟨rfl, rfl⟩⟩
  · obtain ⟨rfl, rfl⟩ := Prod.mk.inj (Except.ok.inj h)
    refine ⟨k.afterTerminator (terminatorAt c next), _, Consumed.afterTerminator_valid hk _, ?_,
      Consumed.afterTerminator_text hopen _, ?_⟩
    · rw [terminatorEnd_eq hbreak]
      exact Consumed.afterTerminator_scan hopen _
    · rw [terminatorAt_text hbreak]
      by_cases hcrlf : c = '\r' ∧ next = some '\n'
      · exact Or.inr ⟨'\n', decide_eq_true hcrlf, hcrlf.2, by rw [if_pos hcrlf, hcrlf.1]⟩
      · exact Or.inl ⟨decide_eq_false hcrlf, if_neg hcrlf⟩
  · cases h
  · obtain ⟨rfl, rfl⟩ := Prod.mk.inj (Except.ok.inj h)
    have hfree : Free delimiter c := ⟨hquote, hdelimiter, Bool.eq_false_iff.mpr hbreak⟩
    obtain ⟨rows, fields, part⟩ := k
    cases part with
    | start =>
      refine ⟨⟨rows, fields, .plain [c]⟩, [c], ⟨hk.rows, hk.fields, by simp, by simpa using hfree⟩,
        rfl, ?_, Or.inl ⟨rfl, rfl⟩⟩
      simp [Consumed.text, Part.text]
    | plain value =>
      refine ⟨⟨rows, fields, .plain (value ++ [c])⟩, [c], ⟨hk.rows, hk.fields, by simp, ?_⟩,
        rfl, ?_, Or.inl ⟨rfl, rfl⟩⟩
      · intro d hd
        rcases List.mem_append.mp hd with hd | hd
        · exact hk.part.2 d hd
        · obtain rfl := List.mem_singleton.mp hd
          exact hfree
      · simp [Consumed.text, Part.text]
    | opened value => exact absurd rfl hquoted
    | closed value => exact absurd ⟨rfl, hdelimiter, hbreak⟩ hafter

/-- So does the whole loop. -/
theorem loop_consumed (rest : Text) {k : Consumed} (hk : k.Valid delimiter) {s : Scan} :
    (Scan.loop format delimiter rest (byteLength (k.text delimiter)) false (k.scan delimiter) =
      .ok s →
      ∃ k' : Consumed, k'.Valid delimiter ∧ s = k'.scan delimiter ∧
        k'.text delimiter = k.text delimiter ++ rest) ∧
    ∀ d tail offset, rest = d :: tail → offset + d.utf8Size = byteLength (k.text delimiter) →
      Scan.loop format delimiter rest offset true (k.scan delimiter) = .ok s →
      ∃ k' : Consumed, k'.Valid delimiter ∧ s = k'.scan delimiter ∧
        k'.text delimiter = k.text delimiter ++ tail := by
  induction rest generalizing k with
  | nil =>
    refine ⟨fun h => ⟨k, hk, (Except.ok.inj h).symm, (List.append_nil _).symm⟩, ?_⟩
    intro d tail offset hrest
    cases hrest
  | cons c rest ih =>
    constructor
    · intro h
      obtain ⟨⟨s', taken⟩, hturn, h⟩ := ok_bind h
      obtain ⟨k', text, hk', rfl, htext, ⟨htaken, rfl⟩ | ⟨d, htaken, hnext, rfl⟩⟩ :=
        turn_consumed hk hturn
      · have hoffset : byteLength (k.text delimiter) + c.utf8Size =
            byteLength (k'.text delimiter) := by simp [htext]
        rw [show (k'.scan delimiter, taken).2 = false from htaken, hoffset] at h
        obtain ⟨k'', hk'', rfl, htext'⟩ := (ih hk').1 h
        exact ⟨k'', hk'', rfl, by simp [htext', htext]⟩
      · obtain ⟨tail, rfl⟩ : ∃ tail, rest = d :: tail := by
          cases rest with
          | nil => cases hnext
          | cons e tail => exact ⟨tail, by rw [Option.some.inj hnext]⟩
        have hoffset : byteLength (k.text delimiter) + c.utf8Size + d.utf8Size =
            byteLength (k'.text delimiter) := by simp [htext, Nat.add_assoc]
        rw [show (k'.scan delimiter, taken).2 = true from htaken] at h
        obtain ⟨k'', hk'', rfl, htext'⟩ := (ih hk').2 d tail _ rfl hoffset h
        exact ⟨k'', hk'', rfl, by simp [htext', htext]⟩
    · intro d tail offset hrest hoffset h
      obtain ⟨rfl, rfl⟩ := List.cons.inj hrest
      have h : Scan.loop format delimiter rest (offset + c.utf8Size) false (k.scan delimiter) =
        .ok s := h
      rw [hoffset] at h
      exact (ih hk).1 h

theorem byteLength_eq_zero {text : Text} : byteLength text = 0 ↔ text = [] := by
  cases text with
  | nil => simp
  | cons c rest =>
    have := c.utf8Size_pos
    simp only [byteLength_cons, reduceCtorEq, iff_false]
    omega

theorem loop_from_start {text : Text} {s : Scan}
    (h : Scan.loop format delimiter text 0 false {} = .ok s) :
    ∃ k : Consumed, k.Valid delimiter ∧ s = k.scan delimiter ∧ k.text delimiter = text := by
  have hstart : Consumed.Valid delimiter ⟨[], [], .start⟩ :=
    ⟨List.forall_mem_nil _, List.forall_mem_nil _, trivial⟩
  exact (loop_consumed text hstart).1 h

/-- Nothing of a record has been read when the text ends where the record begins. -/
theorem closed_empty {k : Consumed} (hopen : k.part.quoted = false)
    (h : ¬ (k.scan delimiter).recordStart < byteLength (k.text delimiter)) :
    fieldsText delimiter k.closed = [] := by
  have hlength := congrArg byteLength (@Consumed.text_closed delimiter k hopen)
  rw [byteLength_append] at hlength
  have : ¬ byteLength (rowsText delimiter k.rows) < byteLength (k.text delimiter) := h
  exact byteLength_eq_zero.mp (by omega)

/-- An accepted text is a written text, and its records are those of the writing. -/
theorem scanRecords_written {text : Text} {records : List RawRecord}
    (h : scanRecords format delimiter text = .ok records) :
    ∃ w : Written, w.Valid delimiter ∧ w.text delimiter = text ∧ records = w.layout delimiter := by
  obtain ⟨s, hloop, h⟩ := ok_bind h
  obtain ⟨s', hfinish, h⟩ := ok_bind h
  obtain rfl := Except.ok.inj h
  obtain ⟨k, hk, rfl, rfl⟩ := loop_from_start hloop
  unfold Scan.finish at hfinish
  split_ifs at hfinish with hquoted hlast
  · cases hfinish
  · obtain rfl := Except.ok.inj hfinish
    have hopen : k.part.quoted = false := Bool.eq_false_iff.mpr hquoted
    have hclosed := @Consumed.text_closed delimiter k hopen
    refine ⟨⟨k.rows, some k.closed⟩, ⟨hk.rows, ?_, Or.inr (by simp)⟩, hclosed.symm, ?_⟩
    · intro fields hfields
      obtain rfl := Option.some.inj hfields
      exact Consumed.validFields_closed hk
    · rw [Consumed.pushField_scan hopen]
      simp only [Scan.pushRecord, Consumed.scan, Written.layout, Option.toList_some, List.map_cons,
        List.map_nil, layoutRecord, hclosed, byteLength_append]
  · obtain rfl := Except.ok.inj hfinish
    have hopen : k.part.quoted = false := Bool.eq_false_iff.mpr hquoted
    obtain ⟨hrecord, hrows, -⟩ := not_or.mp hlast |>.imp id not_or.mp
    have hclosed := @Consumed.text_closed delimiter k hopen
    have hempty := closed_empty hopen hrecord
    refine ⟨⟨k.rows, none⟩, ⟨hk.rows, by simp, Or.inl fun hnil => hrows ?_⟩, ?_, ?_⟩
    · rw [Consumed.scan, show k.rows = [] from hnil, layoutRows]
    · rw [hclosed, hempty]
      rfl
    · simp only [Consumed.scan, Written.layout, Option.toList_none, List.map_nil, List.append_nil]

/-! ## Written texts are accepted -/

/-- A character that neither the quotes nor the terminators use. -/
structure Delimits (delimiter : Char) : Prop where
  quote : delimiter ≠ '"'
  lineBreak : isLineBreak delimiter = false

/-- What may stand after a field. -/
def Stops (delimiter : Char) (rest : Text) : Prop :=
  ∀ c ∈ rest.head?, c = delimiter ∨ isLineBreak c = true

theorem Stops.ne_quote (hdelimits : Delimits delimiter) {rest : Text}
    (h : Stops delimiter rest) : rest.head? ≠ some '"' := by
  intro hhead
  rcases h '"' hhead with heq | hbreak
  · exact hdelimits.quote heq.symm
  · cases hbreak

theorem loop_of_turn {c : Char} {rest : Text} {offset : Nat} {s s' : Scan} {taken : Bool}
    (h : Scan.turn format delimiter offset c rest.head? s = .ok (s', taken)) :
    Scan.loop format delimiter (c :: rest) offset false s =
      Scan.loop format delimiter rest (offset + c.utf8Size) taken s' := by
  rw [Scan.loop, h]
  rfl

theorem turn_free {c : Char} (hc : Free delimiter c) {s : Scan} (hquoted : s.quoted = false)
    (hafter : s.afterQuote = false) (offset : Nat) (next : Option Char) :
    Scan.turn format delimiter offset c next s =
      .ok ({ s.pushFieldCharacter c with atFieldStart := false }, false) := by
  obtain ⟨hquote, hdelimiter, hbreak⟩ := hc
  simp [Scan.turn, hquoted, hafter, hquote, hdelimiter, hbreak]

theorem turn_quoted_other {c : Char} (hc : c ≠ '"') {s : Scan} (hquoted : s.quoted = true)
    (offset : Nat) (next : Option Char) :
    Scan.turn format delimiter offset c next s = .ok (s.pushFieldCharacter c, false) := by
  simp [Scan.turn, hquoted, hc]

theorem turn_quoted_double {s : Scan} (hquoted : s.quoted = true) (offset : Nat) :
    Scan.turn format delimiter offset '"' (some '"') s =
      .ok (s.pushFieldCharacter '"', true) := by
  simp [Scan.turn, hquoted]

theorem turn_quoted_close {s : Scan} (hquoted : s.quoted = true) {next : Option Char}
    (hnext : next ≠ some '"') (offset : Nat) :
    Scan.turn format delimiter offset '"' next s =
      .ok ({ s with quoted := false, afterQuote := true }, false) := by
  simp [Scan.turn, hquoted, hnext]

theorem turn_open {s : Scan} (hquoted : s.quoted = false) (hstart : s.atFieldStart = true)
    (offset : Nat) (next : Option Char) :
    Scan.turn format delimiter offset '"' next s =
      .ok ({ s with quoted := true, atFieldStart := false }, false) := by
  simp [Scan.turn, hquoted, hstart]

theorem turn_delimiter (hdelimits : Delimits delimiter) {s : Scan} (hquoted : s.quoted = false)
    (offset : Nat) (next : Option Char) :
    Scan.turn format delimiter offset delimiter next s =
      .ok ((s.pushField offset).nextField (offset + delimiter.utf8Size), false) := by
  simp [Scan.turn, hquoted, hdelimits.quote]

theorem turn_lineBreak (hdelimits : Delimits delimiter) {s : Scan} (hquoted : s.quoted = false)
    {c : Char} (hc : isLineBreak c = true) (offset : Nat) (next : Option Char) :
    Scan.turn format delimiter offset c next s =
      .ok (((s.pushField offset).pushRecord offset).nextRecord (terminatorEnd offset c next),
        c = '\r' ∧ next = some '\n') := by
  have hdelimiter : c ≠ delimiter := by
    rintro rfl
    exact absurd hc (by simp [hdelimits.lineBreak])
  have hquote : c ≠ '"' := by
    rintro rfl
    cases hc
  simp [Scan.turn, hquoted, hc, hdelimiter, hquote]

theorem plain_scanned {value : Text} (hvalue : ∀ c ∈ value, Free delimiter c) (rest : Text)
    (offset : Nat) {s : Scan} (hquoted : s.quoted = false) (hafter : s.afterQuote = false) :
    Scan.loop format delimiter (value ++ rest) offset false s =
      Scan.loop format delimiter rest (offset + byteLength value) false { s with
        value := s.value ++ value
        atFieldStart := s.atFieldStart && value.isEmpty } := by
  induction value generalizing offset s with
  | nil => simp
  | cons c value ih =>
    obtain ⟨hc, hvalue⟩ := List.forall_mem_cons.mp hvalue
    rw [List.cons_append, loop_of_turn (turn_free hc hquoted hafter offset _), ih hvalue]
    · simp [Scan.pushFieldCharacter, Nat.add_assoc]
    · exact hquoted
    · exact hafter

theorem quoted_scanned (value : Text) {rest : Text} (hrest : rest.head? ≠ some '"')
    (offset : Nat) {s : Scan} (hquoted : s.quoted = true) :
    Scan.loop format delimiter (escape value ++ '"' :: rest) offset false s =
      Scan.loop format delimiter rest (offset + byteLength (escape value ++ ['"'])) false { s with
        value := s.value ++ value
        quoted := false
        afterQuote := true } := by
  induction value generalizing offset s with
  | nil =>
    rw [escape_nil, List.nil_append, loop_of_turn (turn_quoted_close hquoted hrest offset)]
    simp
  | cons c value ih =>
    by_cases hc : c = '"'
    · subst hc
      rw [escape_quote, List.cons_append, List.cons_append,
        loop_of_turn (turn_quoted_double hquoted offset), Scan.loop, ih]
      · simp [Scan.pushFieldCharacter, Nat.add_assoc]
      · exact hquoted
    · rw [escape_other hc, List.cons_append, loop_of_turn (turn_quoted_other hc hquoted offset _),
        ih]
      · simp [Scan.pushFieldCharacter, Nat.add_assoc]
      · exact hquoted

/-- At the start of a field. -/
structure Fresh (offset : Nat) (s : Scan) : Prop where
  quoted : s.quoted = false
  afterQuote : s.afterQuote = false
  atFieldStart : s.atFieldStart = true
  value : s.value = []
  fieldStart : s.fieldStart = offset

/-- At the end of a field. -/
def Scan.after (s : Scan) (f : Field) : Scan :=
  { s with value := f.value, atFieldStart := f.text.isEmpty, afterQuote := f.isQuoted }

theorem field_scanned (hdelimits : Delimits delimiter) {f : Field} (hf : f.Valid delimiter)
    {rest : Text} (hrest : Stops delimiter rest) {offset : Nat} {s : Scan} (hs : Fresh offset s) :
    Scan.loop format delimiter (f.text ++ rest) offset false s =
      Scan.loop format delimiter rest (offset + byteLength f.text) false (s.after f) := by
  cases f with
  | plain value =>
    rw [Field.text, plain_scanned hf rest offset hs.quoted hs.afterQuote]
    simp [Scan.after, hs.value, hs.atFieldStart, Field.value, Field.text, Field.isQuoted,
      hs.afterQuote]
  | quoted value =>
    have htext : Field.text (.quoted value) ++ rest = '"' :: (escape value ++ '"' :: rest) := by
      simp [Field.text]
    rw [htext, loop_of_turn (turn_open hs.quoted hs.atFieldStart offset _),
      quoted_scanned value (hrest.ne_quote hdelimits)]
    · simp [Scan.after, hs.value, Field.value, Field.text, Field.isQuoted, hs.quoted,
        Nat.add_assoc]
    · rfl

/-- A record has been read up to the end of its last field. -/
structure RecordRead (offset : Nat) (fields : List Field) (delimiter : Char) (s s' : Scan) :
    Prop where
  quoted : s'.quoted = false
  records : s'.records = s.records
  recordStart : s'.recordStart = s.recordStart
  fieldStart : offset ≤ s'.fieldStart
  fields : s'.fields ++ [⟨s'.value, s'.fieldStart,
    offset + byteLength (fieldsText delimiter fields)⟩] =
      s.fields ++ layoutFields delimiter offset fields

theorem fieldsText_cons_cons (f g : Field) (rest : List Field) :
    fieldsText delimiter (f :: g :: rest) =
      f.text ++ delimiter :: fieldsText delimiter (g :: rest) := rfl

theorem fields_scanned (format : InputFormat) (hdelimits : Delimits delimiter)
    {fields : List Field}
    (hfields : ValidFields delimiter fields) {tail : Text} (htail : Stops delimiter tail)
    {offset : Nat} {s : Scan} (hs : Fresh offset s) :
    ∃ s', RecordRead offset fields delimiter s s' ∧
      Scan.loop format delimiter (fieldsText delimiter fields ++ tail) offset false s =
        Scan.loop format delimiter tail (offset + byteLength (fieldsText delimiter fields)) false
          s' := by
  obtain ⟨hne, hvalid⟩ := hfields
  induction fields generalizing offset s with
  | nil => exact absurd rfl hne
  | cons f rest ih =>
    obtain ⟨hf, hrest⟩ := List.forall_mem_cons.mp hvalid
    cases rest with
    | nil =>
      have htext : fieldsText delimiter [f] = f.text := List.append_nil _
      rw [htext]
      refine ⟨s.after f, ⟨hs.quoted, rfl, rfl, hs.fieldStart.ge, ?_⟩,
        field_scanned hdelimits hf htail hs⟩
      simp [Scan.after, layoutFields, hs.fieldStart, htext]
    | cons g rest =>
      have hstops : Stops delimiter (delimiter :: (fieldsText delimiter (g :: rest) ++ tail)) :=
        fun c hc => Or.inl (Option.some.inj hc).symm
      have hfresh : Fresh (offset + byteLength f.text + delimiter.utf8Size)
          (((s.after f).pushField (offset + byteLength f.text)).nextField
            (offset + byteLength f.text + delimiter.utf8Size)) :=
        ⟨hs.quoted, rfl, rfl, rfl, rfl⟩
      obtain ⟨s', hread, hloop⟩ := ih hfresh (List.cons_ne_nil _ _) hrest
      refine ⟨s', ⟨hread.quoted, hread.records, hread.recordStart, ?_, ?_⟩, ?_⟩
      · have := hread.fieldStart
        omega
      · have hlayout := hread.fields
        simp only [Scan.nextField, Scan.pushField, Scan.after, hs.fieldStart,
          List.append_assoc] at hlayout
        rw [fieldsText_cons_cons, byteLength_append, byteLength_cons, ← Nat.add_assoc,
          ← Nat.add_assoc, hlayout]
        rfl
      · rw [fieldsText_cons_cons, List.append_assoc, List.cons_append,
          field_scanned hdelimits hf hstops hs,
          loop_of_turn (turn_delimiter hdelimits
            (show (s.after f).quoted = false from hs.quoted) _ _), hloop]
        congr 1
        simp only [byteLength_append, byteLength_cons]
        omega

/-- At the start of a record. -/
structure FreshRecord (offset : Nat) (s : Scan) : Prop extends Fresh offset s where
  fields : s.fields = []
  recordStart : s.recordStart = offset

/-- CR is read as a terminator of its own when no LF follows. -/
def Lone (t : Terminator) (tail : Text) : Prop := t = .cr → tail.head? ≠ some '\n'

theorem Terminator.stops (t : Terminator) (tail : Text) : Stops delimiter (t.text ++ tail) := by
  cases t <;> exact fun c hc => Or.inr (by obtain rfl := Option.some.inj hc; rfl)

theorem terminator_scanned (hdelimits : Delimits delimiter) {t : Terminator} {tail : Text}
    (htail : Lone t tail) {offset : Nat} {s : Scan} (hs : s.quoted = false) :
    Scan.loop format delimiter (t.text ++ tail) offset false s =
      Scan.loop format delimiter tail (offset + byteLength t.text) false
        (((s.pushField offset).pushRecord offset).nextRecord (offset + byteLength t.text)) := by
  cases t with
  | lf =>
    rw [Terminator.text, List.cons_append,
      loop_of_turn (turn_lineBreak hdelimits hs (by rfl) offset _)]
    rfl
  | crlf =>
    rw [Terminator.text, List.cons_append,
      loop_of_turn (turn_lineBreak hdelimits hs (by rfl) offset _)]
    rfl
  | cr =>
    rw [Terminator.text, List.cons_append,
      loop_of_turn (turn_lineBreak hdelimits hs (by rfl) offset _)]
    have hnext : ¬ ('\r' = '\r' ∧ tail.head? = some '\n') := fun h => htail rfl h.2
    rw [List.nil_append, decide_eq_false hnext, terminatorEnd, if_neg hnext]
    rfl

theorem row_scanned (format : InputFormat) (hdelimits : Delimits delimiter)
    {row : Row} (hrow : ValidFields delimiter row.1) {tail : Text} (htail : Lone row.2 tail) {offset : Nat}
    {s : Scan} (hs : FreshRecord offset s) :
    ∃ s', FreshRecord (offset + byteLength (rowText delimiter row)) s' ∧
      s'.records = s.records ++ [layoutRecord delimiter offset row.1] ∧
      Scan.loop format delimiter (rowText delimiter row ++ tail) offset false s =
        Scan.loop format delimiter tail (offset + byteLength (rowText delimiter row)) false
          s' := by
  obtain ⟨s', hread, hloop⟩ := fields_scanned format hdelimits hrow (row.2.stops tail) hs.toFresh
  have hfields := hread.fields
  rw [hs.fields, List.nil_append] at hfields
  rw [rowText, List.append_assoc, hloop, terminator_scanned hdelimits htail hread.quoted,
    byteLength_append, ← Nat.add_assoc]
  refine ⟨((s'.pushField (offset + byteLength (fieldsText delimiter row.1))).pushRecord
    (offset + byteLength (fieldsText delimiter row.1))).nextRecord
      (offset + byteLength (fieldsText delimiter row.1) + byteLength row.2.text),
    ⟨⟨hread.quoted, rfl, rfl, rfl, rfl⟩, rfl, rfl⟩, ?_, rfl⟩
  · simp only [Scan.nextRecord, Scan.nextField, Scan.pushRecord, Scan.pushField, hfields,
      hread.records, hread.recordStart, hs.recordStart, layoutRecord]

/-- No LF follows a CR terminator. -/
def Separate (delimiter : Char) : List Row → Text → Prop
  | [], _ => True
  | row :: rest, tail => Lone row.2 (rowsText delimiter rest ++ tail) ∧ Separate delimiter rest tail

theorem rows_scanned (format : InputFormat) (hdelimits : Delimits delimiter)
    {rows : List Row}
    (hrows : ∀ row ∈ rows, ValidFields delimiter row.1) {tail : Text}
    (hseparate : Separate delimiter rows tail) {offset : Nat} {s : Scan}
    (hs : FreshRecord offset s) :
    ∃ s', FreshRecord (offset + byteLength (rowsText delimiter rows)) s' ∧
      s'.records = s.records ++ layoutRows delimiter offset rows ∧
      Scan.loop format delimiter (rowsText delimiter rows ++ tail) offset false s =
        Scan.loop format delimiter tail (offset + byteLength (rowsText delimiter rows)) false
          s' := by
  induction rows generalizing offset s with
  | nil => exact ⟨s, hs, (List.append_nil _).symm, rfl⟩
  | cons row rest ih =>
    obtain ⟨hrow, hrest⟩ := List.forall_mem_cons.mp hrows
    obtain ⟨hlone, hseparate⟩ := hseparate
    obtain ⟨s₁, hs₁, hrecords₁, hloop₁⟩ := row_scanned format hdelimits hrow hlone hs
    obtain ⟨s₂, hs₂, hrecords₂, hloop₂⟩ := ih hrest hseparate hs₁
    rw [rowsText_cons, byteLength_append, ← Nat.add_assoc]
    refine ⟨s₂, hs₂, ?_, ?_⟩
    · rw [hrecords₂, hrecords₁, List.append_assoc]
      rfl
    · rw [List.append_assoc, hloop₁, hloop₂]

/-- A writing that the scan reads as it stands: CR and LF are one terminator, and a record
without a terminator is not empty unless it is the only one. -/
structure Written.Canonical (delimiter : Char) (w : Written) : Prop where
  separate : Separate delimiter w.rows (w.last.elim [] (fieldsText delimiter))
  last : ∀ fields ∈ w.last, fieldsText delimiter fields = [] → w.rows = []

theorem finish_terminated {s : Scan} {length : Nat} (hs : FreshRecord length s)
    (hrecords : s.records ≠ []) : Scan.finish format length s = .ok s := by
  have hlast : ¬ (s.recordStart < length ∨ s.records = [] ∨ s.fieldStart < length) := by
    rw [hs.recordStart, hs.fieldStart]
    simp [hrecords]
  rw [Scan.finish, if_neg (by simp [hs.quoted]), if_neg hlast]

theorem finish_unterminated (format : InputFormat) {s s' : Scan} {fields : List Field} {offset : Nat}
    (hs : FreshRecord offset s) (hread : RecordRead offset fields delimiter s s')
    (hempty : fieldsText delimiter fields = [] → s.records = []) :
    ∃ s'', Scan.finish format (offset + byteLength (fieldsText delimiter fields)) s' = .ok s'' ∧
      s''.records = s.records ++ [layoutRecord delimiter offset fields] := by
  have hlast : s'.recordStart < offset + byteLength (fieldsText delimiter fields) ∨
      s'.records = [] ∨ s'.fieldStart < offset + byteLength (fieldsText delimiter fields) := by
    rw [hread.recordStart, hs.recordStart, hread.records]
    rcases Nat.eq_zero_or_pos (byteLength (fieldsText delimiter fields)) with hzero | hpos
    · exact Or.inr (Or.inl (hempty (byteLength_eq_zero.mp hzero)))
    · exact Or.inl (by omega)
  have hfields := hread.fields
  rw [hs.fields, List.nil_append] at hfields
  refine ⟨(s'.pushField (offset + byteLength (fieldsText delimiter fields))).pushRecord
    (offset + byteLength (fieldsText delimiter fields)), ?_, ?_⟩
  · rw [Scan.finish, if_neg (by simp [hread.quoted]), if_pos hlast]
  · simp only [Scan.pushRecord, Scan.pushField, hfields, hread.records, hread.recordStart,
      hs.recordStart, layoutRecord]

theorem layoutRows_eq_nil {start : Nat} {rows : List Row} :
    layoutRows delimiter start rows = [] ↔ rows = [] := by
  cases rows <;> simp [layoutRows]

theorem canonical_scanned (format : InputFormat) (hdelimits : Delimits delimiter) {w : Written} (hw : w.Valid delimiter)
    (hcanonical : w.Canonical delimiter) :
    scanRecords format delimiter (w.text delimiter) = .ok (w.layout delimiter) := by
  have hstart : FreshRecord 0 {} := ⟨⟨rfl, rfl, rfl, rfl, rfl⟩, rfl, rfl⟩
  obtain ⟨s, hs, hrecords, hloop⟩ :=
    rows_scanned format hdelimits hw.rows hcanonical.separate hstart
  rw [Nat.zero_add] at hs hloop
  rw [List.nil_append] at hrecords
  obtain ⟨rows, last⟩ := w
  cases last with
  | none =>
    have hne : rows ≠ [] := hw.nonempty.elim id fun h => absurd rfl h
    have htext : Written.text delimiter ⟨rows, none⟩ = rowsText delimiter rows :=
      List.append_nil _
    have hfinish : Scan.finish format (byteLength (rowsText delimiter rows)) s = .ok s :=
      finish_terminated hs (by rwa [hrecords, ne_eq, layoutRows_eq_nil])
    have hlayout : Written.layout delimiter ⟨rows, none⟩ = s.records :=
      (List.append_nil _).trans hrecords.symm
    rw [htext, hlayout]
    refine bind_ok_iff.mpr ⟨s, ?_, bind_ok_iff.mpr ⟨s, hfinish, rfl⟩⟩
    rw [show rowsText delimiter rows = Written.text delimiter ⟨rows, none⟩ from htext.symm]
    exact hloop
  | some fields =>
    have hfields := hw.last fields rfl
    have htail : Stops delimiter [] := fun c hc => nomatch hc
    obtain ⟨s', hread, hloop'⟩ := fields_scanned format hdelimits hfields htail hs.toFresh
    rw [List.append_nil] at hloop'
    obtain ⟨s'', hfinish, hrecords'⟩ := finish_unterminated format hs hread
      fun hempty => by
        rw [hrecords, layoutRows_eq_nil]
        exact hcanonical.last fields rfl hempty
    have hlength : byteLength (Written.text delimiter ⟨rows, some fields⟩) =
        byteLength (rowsText delimiter rows) + byteLength (fieldsText delimiter fields) :=
      byteLength_append _ _
    refine bind_ok_iff.mpr ⟨s', hloop.trans hloop', bind_ok_iff.mpr ⟨s'', ?_, ?_⟩⟩
    · rw [hlength]
      exact hfinish
    · exact congrArg Except.ok (by rw [hrecords', hrecords]; rfl)

end

end IntoMarkdown.Converters.Delimited
