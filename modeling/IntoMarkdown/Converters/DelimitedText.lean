import IntoMarkdown.Converters.DelimitedScan

/-! # Parsing of delimited text

A text is accepted if it can be written, the ranges of its fields cover it, and a text
with every field in quotes is read back. -/

namespace IntoMarkdown.Converters.Delimited
open Lib Strings

variable {delimiter : Char}

/-! ## Every written text has a canonical writing -/

/-- CR before an empty record that LF ends. -/
def joins (a b : Row) : Bool := a.2 = .cr && b = ([.plain []], .lf)

def mergeRows : List Row → List Row
  | [] => []
  | [a] => [a]
  | a :: b :: rest =>
    if joins a b then (a.1, .crlf) :: mergeRows rest else a :: mergeRows (b :: rest)

theorem mergeRows_text (rows : List Row) :
    rowsText delimiter (mergeRows rows) = rowsText delimiter rows := by
  fun_induction mergeRows rows with
  | case1 => rfl
  | case2 a => rfl
  | case3 a b rest hjoins ih =>
    obtain ⟨fields, t⟩ := a
    simp only [joins, Bool.and_eq_true, decide_eq_true_eq] at hjoins
    obtain ⟨rfl, rfl⟩ := hjoins
    simp [ih, rowText, fieldsText, Field.text, Terminator.text]
  | case4 a b rest hjoins ih => exact congrArg (rowText delimiter a ++ ·) ih

theorem mergeRows_valid {rows : List Row} (h : ∀ row ∈ rows, ValidFields delimiter row.1) :
    ∀ row ∈ mergeRows rows, ValidFields delimiter row.1 := by
  fun_induction mergeRows rows with
  | case1 => exact h
  | case2 a => exact h
  | case3 a b rest hjoins ih =>
    obtain ⟨ha, hrest⟩ := List.forall_mem_cons.mp h
    exact List.forall_mem_cons.mpr ⟨ha, ih (List.forall_mem_cons.mp hrest).2⟩
  | case4 a b rest hjoins ih =>
    obtain ⟨ha, hrest⟩ := List.forall_mem_cons.mp h
    exact List.forall_mem_cons.mpr ⟨ha, ih hrest⟩

theorem mergeRows_eq_nil {rows : List Row} : mergeRows rows = [] ↔ rows = [] := by
  fun_induction mergeRows rows <;> simp

theorem fieldsText_head (hdelimits : Delimits delimiter) {fields : List Field}
    (h : ValidFields delimiter fields) : (fieldsText delimiter fields).head? ≠ some '\n' := by
  have hdelimiter : delimiter ≠ '\n' := by
    rintro rfl
    cases hdelimits.lineBreak
  cases fields with
  | nil => exact absurd rfl h.1
  | cons f rest =>
    have hf := (List.forall_mem_cons.mp h.2).1
    cases f with
    | quoted value => simp [fieldsText, Field.text]
    | plain value =>
      cases value with
      | nil => cases rest <;> simp [fieldsText, Field.text, hdelimiter]
      | cons c value =>
        have hc : Free delimiter c := hf c List.mem_cons_self
        have hbreak : c ≠ '\n' := by
          rintro rfl
          cases hc.2.2
        simp [fieldsText, Field.text, hbreak]

theorem fieldsText_eq_nil {fields : List Field} (h : ValidFields delimiter fields)
    (hempty : fieldsText delimiter fields = []) : fields = [.plain []] := by
  cases fields with
  | nil => exact absurd rfl h.1
  | cons f rest =>
    obtain ⟨hf, hrest⟩ := List.append_eq_nil_iff.mp hempty
    cases f with
    | quoted value => simp [Field.text] at hf
    | plain value =>
      obtain rfl : value = [] := hf
      cases rest with
      | nil => rfl
      | cons g rest => simp at hrest

theorem rows_head (hdelimits : Delimits delimiter) {row : Row} {rows : List Row} {tail : Text}
    (h : ValidFields delimiter row.1)
    (hhead : (rowsText delimiter (row :: rows) ++ tail).head? = some '\n') :
    row = ([.plain []], .lf) := by
  obtain ⟨fields, t⟩ := row
  rw [rowsText_cons, rowText, List.append_assoc, List.append_assoc, List.head?_append] at hhead
  cases htext : fieldsText delimiter fields with
  | nil =>
    obtain rfl := fieldsText_eq_nil h htext
    rw [htext] at hhead
    cases t with
    | lf => rfl
    | cr => simp [Terminator.text] at hhead
    | crlf => simp [Terminator.text] at hhead
  | cons c rest =>
    have hfirst := fieldsText_head hdelimits h
    rw [htext] at hhead hfirst
    exact absurd hhead hfirst

theorem mergeRows_separate (hdelimits : Delimits delimiter) {rows : List Row} {tail : Text}
    (h : ∀ row ∈ rows, ValidFields delimiter row.1) (htail : tail.head? ≠ some '\n') :
    Separate delimiter (mergeRows rows) tail := by
  fun_induction mergeRows rows with
  | case1 => trivial
  | case2 a => exact ⟨fun _ => htail, trivial⟩
  | case3 a b rest hjoins ih =>
    exact ⟨nofun, ih fun row hrow => h row (by simp [hrow])⟩
  | case4 a b rest hjoins ih =>
    obtain ⟨_, hrest⟩ := List.forall_mem_cons.mp h
    refine ⟨fun hcr hhead => hjoins ?_, ih hrest⟩
    rw [mergeRows_text] at hhead
    rw [rows_head hdelimits (List.forall_mem_cons.mp hrest).1 hhead]
    simp [joins, hcr]

/-- The writing that the scan reads. -/
theorem exists_canonical (hdelimits : Delimits delimiter) {w : Written} (hw : w.Valid delimiter) :
    ∃ w' : Written, w'.Valid delimiter ∧ w'.Canonical delimiter ∧
      w'.text delimiter = w.text delimiter := by
  obtain ⟨rows, last⟩ := w
  have hrows := mergeRows_valid hw.rows
  cases last with
  | none =>
    have hne : rows ≠ [] := hw.nonempty.elim id fun h => absurd rfl h
    refine ⟨⟨mergeRows rows, none⟩, ⟨hrows, nofun, Or.inl (mt mergeRows_eq_nil.mp hne)⟩,
      ⟨mergeRows_separate hdelimits hw.rows nofun, nofun⟩, ?_⟩
    simp only [Written.text, mergeRows_text]
  | some fields =>
    have hfields := hw.last fields rfl
    by_cases hdrop : fieldsText delimiter fields = [] ∧ rows ≠ []
    · refine ⟨⟨mergeRows rows, none⟩,
        ⟨hrows, nofun, Or.inl (mt mergeRows_eq_nil.mp hdrop.2)⟩,
        ⟨mergeRows_separate hdelimits hw.rows nofun, nofun⟩, ?_⟩
      simp only [Written.text, mergeRows_text, Option.elim_some, hdrop.1, Option.elim_none]
    · refine ⟨⟨mergeRows rows, some fields⟩, ⟨hrows, hw.last, Or.inr nofun⟩,
        ⟨mergeRows_separate hdelimits hw.rows (fieldsText_head hdelimits hfields), ?_⟩, ?_⟩
      · intro fields' hfields' hempty
        obtain rfl := Option.some.inj hfields'
        exact mergeRows_eq_nil.mpr (not_not.mp fun hne => hdrop ⟨hempty, hne⟩)
      · simp only [Written.text, mergeRows_text]

/-- The texts that the scan accepts are those that can be written. -/
theorem scanRecords_accepts_iff (hdelimits : Delimits delimiter) (format : InputFormat)
    (text : Text) :
    (∃ records, scanRecords format delimiter text = .ok records) ↔
      ∃ w : Written, w.Valid delimiter ∧ w.text delimiter = text := by
  constructor
  · rintro ⟨records, h⟩
    obtain ⟨w, hw, htext, _⟩ := scanRecords_written h
    exact ⟨w, hw, htext⟩
  · rintro ⟨w, hw, rfl⟩
    obtain ⟨w', hw', hcanonical, htext⟩ := exists_canonical hdelimits hw
    rw [← htext]
    exact ⟨_, canonical_scanned format hdelimits hw' hcanonical⟩

/-! ## Ranges -/

/-- The fields of a text that starts at a byte: each range is a stretch of the text, and a
delimiter or a terminator stands between two of them. -/
inductive Covered (delimiter : Char) : Nat → Text → List RawField → Prop where
  | done (start : Nat) : Covered delimiter start [] []
  | last (start : Nat) (text value : Text) :
      Covered delimiter start text [⟨value, start, start + byteLength text⟩]
  | delimiter {start : Nat} {text rest value : Text} {next : RawField} {more : List RawField}
      (h : Covered delimiter (start + byteLength text + delimiter.utf8Size) rest (next :: more)) :
      Covered delimiter start (text ++ delimiter :: rest)
        (⟨value, start, start + byteLength text⟩ :: next :: more)
  | terminator {start : Nat} {text rest value : Text} {more : List RawField} (t : Terminator)
      (h : Covered delimiter (start + byteLength text + byteLength t.text) rest more) :
      Covered delimiter start (text ++ (t.text ++ rest))
        (⟨value, start, start + byteLength text⟩ :: more)

/-- A range lies on the boundaries of characters. -/
def OnBoundaries (text : Text) (f : RawField) : Prop :=
  ∃ before inside after, text = before ++ (inside ++ after) ∧ f.start = byteLength before ∧
    f.stop = byteLength before + byteLength inside

theorem Covered.stretches {start : Nat} {text : Text} {fields : List RawField}
    (h : Covered delimiter start text fields) : ∀ f ∈ fields, ∃ before inside after,
      text = before ++ (inside ++ after) ∧ f.start = start + byteLength before ∧
        f.stop = start + byteLength before + byteLength inside := by
  induction h with
  | done start => exact List.forall_mem_nil _
  | last start text value =>
    refine List.forall_mem_singleton.mpr ⟨[], text, [], by simp, by simp, by simp⟩
  | @delimiter start text rest value next more _ ih =>
    refine List.forall_mem_cons.mpr ⟨⟨[], text, delimiter :: rest, by simp, by simp, by simp⟩, ?_⟩
    intro f hf
    obtain ⟨before, inside, after, hrest, hstart, hstop⟩ := ih f hf
    refine ⟨text ++ delimiter :: before, inside, after, by simp [hrest], ?_, ?_⟩
    · simp only [hstart, byteLength_append, byteLength_cons]
      omega
    · simp only [hstop, byteLength_append, byteLength_cons]
      omega
  | @terminator start text rest value more t _ ih =>
    refine List.forall_mem_cons.mpr ⟨⟨[], text, t.text ++ rest, by simp, by simp, by simp⟩, ?_⟩
    intro f hf
    obtain ⟨before, inside, after, hrest, hstart, hstop⟩ := ih f hf
    refine ⟨text ++ (t.text ++ before), inside, after, by simp [hrest], ?_, ?_⟩
    · simp only [hstart, byteLength_append]
      omega
    · simp only [hstop, byteLength_append]
      omega

theorem Covered.onBoundaries {text : Text} {fields : List RawField}
    (h : Covered delimiter 0 text fields) : ∀ f ∈ fields, OnBoundaries text f := by
  intro f hf
  obtain ⟨before, inside, after, htext, hstart, hstop⟩ := h.stretches f hf
  rw [Nat.zero_add] at hstart hstop
  exact ⟨before, inside, after, htext, hstart, hstop⟩

theorem Terminator.byteLength_pos (t : Terminator) : 0 < byteLength t.text := by
  cases t <;> decide

/-- A range ends before the next one begins. -/
theorem Covered.ordered {start : Nat} {text : Text} {fields : List RawField}
    (h : Covered delimiter start text fields) :
    fields.Pairwise fun a b => a.stop < b.start := by
  induction h with
  | done start => exact .nil
  | last start text value => exact List.pairwise_singleton _ _
  | delimiter hrest ih =>
    refine List.pairwise_cons.mpr ⟨fun f hf => ?_, ih⟩
    obtain ⟨before, _, _, _, hstart, _⟩ := hrest.stretches f hf
    have := delimiter.utf8Size_pos
    simp only [hstart]
    omega
  | terminator t hrest ih =>
    refine List.pairwise_cons.mpr ⟨fun f hf => ?_, ih⟩
    obtain ⟨before, _, _, _, hstart, _⟩ := hrest.stretches f hf
    have := t.byteLength_pos
    simp only [hstart]
    omega

theorem covered_last {fields : List Field} (hne : fields ≠ []) (start : Nat) :
    Covered delimiter start (fieldsText delimiter fields)
      (layoutFields delimiter start fields) := by
  induction fields generalizing start with
  | nil => exact absurd rfl hne
  | cons f rest ih =>
    cases rest with
    | nil =>
      rw [show fieldsText delimiter [f] = f.text from List.append_nil _]
      exact .last start f.text f.value
    | cons g rest => exact .delimiter (ih (List.cons_ne_nil _ _) _)

theorem covered_row {fields : List Field} (hne : fields ≠ []) (t : Terminator) {start : Nat}
    {rest : Text} {more : List RawField}
    (h : Covered delimiter (start + byteLength (fieldsText delimiter fields) + byteLength t.text)
      rest more) :
    Covered delimiter start (fieldsText delimiter fields ++ (t.text ++ rest))
      (layoutFields delimiter start fields ++ more) := by
  induction fields generalizing start with
  | nil => exact absurd rfl hne
  | cons f tail ih =>
    cases tail with
    | nil =>
      rw [show fieldsText delimiter [f] = f.text from List.append_nil _] at h ⊢
      exact .terminator t h
    | cons g tail =>
      rw [fieldsText_cons_cons, List.append_assoc, List.cons_append]
      refine .delimiter (ih (List.cons_ne_nil _ _) ?_)
      rw [fieldsText_cons_cons, byteLength_append, byteLength_cons] at h
      simpa only [Nat.add_assoc] using h

theorem covered_rows {rows : List Row} (hrows : ∀ row ∈ rows, ValidFields delimiter row.1)
    {start : Nat} {rest : Text} {more : List RawField}
    (h : Covered delimiter (start + byteLength (rowsText delimiter rows)) rest more) :
    Covered delimiter start (rowsText delimiter rows ++ rest)
      ((layoutRows delimiter start rows).flatMap (·.fields) ++ more) := by
  induction rows generalizing start with
  | nil => exact h
  | cons row rows ih =>
    obtain ⟨hrow, hrows⟩ := List.forall_mem_cons.mp hrows
    rw [rowsText_cons, byteLength_append, ← Nat.add_assoc] at h
    have htail := ih hrows h
    rw [rowText, byteLength_append, ← Nat.add_assoc] at htail
    rw [rowsText_cons, rowText, List.append_assoc, List.append_assoc, layoutRows,
      List.flatMap_cons, List.append_assoc, rowText, byteLength_append, ← Nat.add_assoc]
    exact covered_row hrow.1 row.2 htail

theorem layout_covered {w : Written} (hw : w.Valid delimiter) :
    Covered delimiter 0 (w.text delimiter) ((w.layout delimiter).flatMap (·.fields)) := by
  obtain ⟨rows, last⟩ := w
  rw [Written.text, Written.layout, List.flatMap_append]
  cases last with
  | none => exact covered_rows hw.rows (.done _)
  | some fields =>
    refine covered_rows hw.rows ?_
    rw [Nat.zero_add, Option.toList_some, List.map_singleton, List.flatMap_singleton]
    exact covered_last (hw.last fields rfl).1 _

/-! ## Every field in quotes -/

/-- The values of records, each with its terminator, and of one without a terminator. -/
structure Sheet where
  rows : List (List Text × Terminator)
  last : Option (List Text)

namespace Sheet

def values (sheet : Sheet) : List (List Text) := sheet.rows.map (·.1) ++ sheet.last.toList

/-- There is a record, and each has a field. -/
structure Valid (sheet : Sheet) : Prop where
  nonempty : sheet.values ≠ []
  fields : ∀ record ∈ sheet.values, record ≠ []

/-- Every field is written in double quotes, and inner quotes are doubled. -/
def quoted (sheet : Sheet) : Written where
  rows := sheet.rows.map fun row => (row.1.map .quoted, row.2)
  last := sheet.last.map (·.map .quoted)

variable {sheet : Sheet}

theorem validFields_quoted {record : List Text} (h : record ≠ []) :
    ValidFields delimiter (record.map .quoted) := by
  refine ⟨by simpa using h, fun f hf => ?_⟩
  obtain ⟨value, _, rfl⟩ := List.mem_map.mp hf
  trivial

theorem quoted_valid (h : sheet.Valid) : sheet.quoted.Valid delimiter := by
  obtain ⟨rows, last⟩ := sheet
  refine ⟨fun row hrow => ?_, fun fields hfields => ?_, ?_⟩
  · obtain ⟨row, hmem, rfl⟩ := List.mem_map.mp hrow
    exact validFields_quoted (h.fields _ (List.mem_append_left _ (List.mem_map_of_mem hmem)))
  · obtain ⟨record, rfl, rfl⟩ := Option.mem_map.mp hfields
    exact validFields_quoted (h.fields _ (List.mem_append_right _ List.mem_cons_self))
  · have hnonempty := h.nonempty
    cases last with
    | none => exact Or.inl (by simpa [values, quoted] using hnonempty)
    | some record => exact Or.inr nofun

theorem quoted_head {record : List Text} (h : record ≠ []) :
    (fieldsText delimiter (record.map .quoted)).head? = some '"' := by
  cases record with
  | nil => exact absurd rfl h
  | cons value rest => rfl

theorem quoted_separate {rows : List (List Text × Terminator)} (hrows : ∀ row ∈ rows, row.1 ≠ [])
    {tail : Text} (htail : tail.head? ≠ some '\n') :
    Separate delimiter (rows.map fun row => (row.1.map .quoted, row.2)) tail := by
  induction rows with
  | nil => trivial
  | cons row rest ih =>
    obtain ⟨_, hrest⟩ := List.forall_mem_cons.mp hrows
    refine ⟨fun _ => ?_, ih hrest⟩
    cases rest with
    | nil => exact htail
    | cons next rest =>
      have hnext := @quoted_head delimiter next.1 (hrest next List.mem_cons_self)
      rw [List.map_cons, rowsText_cons, rowText, List.append_assoc, List.append_assoc,
        List.head?_append, hnext, Option.some_or]
      exact fun hbreak => absurd hbreak (by decide)

theorem quoted_canonical (h : sheet.Valid) : sheet.quoted.Canonical delimiter := by
  obtain ⟨rows, last⟩ := sheet
  have hrows : ∀ row ∈ rows, row.1 ≠ [] := fun row hrow =>
    h.fields _ (List.mem_append_left _ (List.mem_map_of_mem hrow))
  cases last with
  | none => exact ⟨quoted_separate hrows nofun, nofun⟩
  | some record =>
    have hhead := @quoted_head delimiter record
      (h.fields record (List.mem_append_right _ List.mem_cons_self))
    refine ⟨quoted_separate hrows ?_, fun fields hfields hempty => ?_⟩
    · exact fun hbreak => absurd (hhead.symm.trans hbreak) (by decide)
    · obtain rfl := Option.some.inj hfields
      rw [hempty] at hhead
      cases hhead

theorem layoutRecord_quoted (start : Nat) (record : List Text) :
    (layoutRecord delimiter start (record.map .quoted)).fields.map (·.value) = record := by
  simp [layoutRecord, layoutFields_values, Function.comp_def, Field.value]

theorem quoted_values : (sheet.quoted.layout delimiter).map (fun r => r.fields.map (·.value)) =
    sheet.values := by
  obtain ⟨rows, last⟩ := sheet
  rw [Written.layout, List.map_append, layoutRows_values]
  cases last with
  | none => simp [quoted, values, Function.comp_def, Field.value]
  | some record =>
    simp [quoted, values, Function.comp_def, Field.value, layoutRecord_quoted]

end Sheet

/-! ## The parser -/

theorem scan_ends {format : InputFormat} {text : Text} {s s' : Scan}
    (hloop : Scan.loop format delimiter text 0 false {} = .ok s)
    (hfinish : Scan.finish format (byteLength text) s = .ok s') :
    s'.fields = [] ∧ s'.value = [] := by
  obtain ⟨k, hk, rfl, rfl⟩ := loop_from_start hloop
  unfold Scan.finish at hfinish
  split_ifs at hfinish with hquoted hlast
  · cases hfinish
  · obtain rfl := Except.ok.inj hfinish
    exact ⟨rfl, rfl⟩
  · obtain rfl := Except.ok.inj hfinish
    have hempty := closed_empty (Bool.eq_false_iff.mpr hquoted) (not_or.mp hlast).1
    have hclosed := fieldsText_eq_nil (Consumed.validFields_closed hk) hempty
    rcases List.append_eq_singleton_iff.mp hclosed with ⟨hfields, hpart⟩ | ⟨_, hpart⟩
    · refine ⟨by rw [Consumed.scan, hfields, layoutFields], ?_⟩
      have hvalue := congrArg Field.value (List.singleton_inj.mp hpart)
      rwa [Part.value_field] at hvalue
    · cases hpart

/-- A text is delimited when it can be written in fields and records. -/
def InGrammar (delimiter : Char) (text : Text) : Prop :=
  ∃ w : Written, w.Valid delimiter ∧ w.text delimiter = text

section
variable {σ : Type} {runtime : Runtime σ} {limits : Limits} {format : InputFormat} {text : Text}
  {memory : LogicalMemory σ}

theorem parseRecords_ok {done : List RawRecord × LogicalMemory σ}
    (h : parseRecords runtime limits format delimiter text memory = .ok done) :
    scanRecords format delimiter text = .ok done.1 := by
  rcases parseRecords_limited format delimiter runtime limits text memory with ⟨c, hc⟩ | hrefines
  · cases hc.symm.trans h
  · obtain ⟨records, hrecords, hdone⟩ := hrefines.of_ok h
    rw [hrecords, hdone]

/-- The parser fails for a limit, or it does what the scan does. -/
theorem parseRecords_of_scan (runtime : Runtime σ) (limits : Limits) (memory : LogicalMemory σ)
    {records : List RawRecord}
    (h : scanRecords format delimiter text = .ok records) :
    (∃ c, parseRecords runtime limits format delimiter text memory = .error (.core c)) ∨
      ∃ memory', parseRecords runtime limits format delimiter text memory =
        .ok (records, memory') := by
  rcases parseRecords_limited format delimiter runtime limits text memory with hlimit | hrefines
  · exact Or.inl hlimit
  · obtain ⟨done, hdone, hrecords⟩ := hrefines.ok_of h
    exact Or.inr ⟨done.2, by rw [hdone, ← hrecords]⟩

/-- Nothing interrupts, and the memory can be charged. -/
structure Permits (runtime : Runtime σ) (memory : LogicalMemory σ) (text : Text) : Prop where
  generous : runtime.Generous
  affords : memory.Affords (parseCost text)

theorem parseRecords_within (hpermits : Permits runtime memory text) {records : List RawRecord}
    (h : scanRecords format delimiter text = .ok records)
    (hfields : ∀ r ∈ records, ∀ f ∈ r.fields, byteLength f.value ≤ limits.maxFieldBytes)
    (hrows : records.length ≤ limits.maxTableRows) :
    ∃ memory', parseRecords runtime limits format delimiter text memory =
      .ok (records, memory') := by
  obtain ⟨s, hloop, h⟩ := ok_bind h
  obtain ⟨s', hfinish, h⟩ := ok_bind h
  obtain rfl := Except.ok.inj h
  obtain ⟨hnone, hempty⟩ := scan_ends hloop hfinish
  have hwithin : Within limits s' := by
    refine ⟨hfields, ?_, ?_, hrows⟩
    · rw [hnone]
      exact List.forall_mem_nil _
    · rw [hempty]
      exact Nat.zero_le _
  exact parseRecords_granted hpermits.generous hloop hfinish hwithin hpermits.affords

theorem parseRecords_accepts (hdelimits : Delimits delimiter)
    (hpermits : Permits runtime memory text) (hfield : byteLength text < limits.maxFieldBytes)
    (hrows : byteLength text < limits.maxTableRows) :
    (∃ done, parseRecords runtime limits format delimiter text memory = .ok done) ↔
      InGrammar delimiter text := by
  rw [InGrammar, ← scanRecords_accepts_iff hdelimits format text]
  constructor
  · rintro ⟨done, h⟩
    exact ⟨done.1, parseRecords_ok h⟩
  · rintro ⟨records, h⟩
    obtain ⟨s, hloop, h⟩ := ok_bind h
    obtain ⟨s', hfinish, h⟩ := ok_bind h
    have hsmall := finish_small hfinish (loop_small text hloop Small.start)
    rw [Nat.zero_add] at hsmall
    obtain ⟨memory', hdone⟩ := parseRecords_granted hpermits.generous hloop hfinish
      (hsmall.within hfield hrows) hpermits.affords
    exact ⟨_, hdone⟩

theorem parseRecords_quoted (hdelimits : Delimits delimiter) {sheet : Sheet} (hsheet : sheet.Valid)
    (htext : sheet.quoted.text delimiter = text) (hpermits : Permits runtime memory text)
    (hfields : ∀ record ∈ sheet.values, ∀ value ∈ record,
      byteLength value ≤ limits.maxFieldBytes)
    (hrows : sheet.values.length ≤ limits.maxTableRows) :
    ∃ records memory', parseRecords runtime limits format delimiter text memory =
      .ok (records, memory') ∧
        records.map (fun r => r.fields.map (·.value)) = sheet.values := by
  subst htext
  have hscan := canonical_scanned format hdelimits (Sheet.quoted_valid hsheet)
    (Sheet.quoted_canonical hsheet)
  have hvalues := @Sheet.quoted_values delimiter sheet
  have hrecords : ∀ r ∈ sheet.quoted.layout delimiter, ∀ f ∈ r.fields,
      byteLength f.value ≤ limits.maxFieldBytes := fun r hr f hf => by
    refine hfields (r.fields.map (·.value)) ?_ f.value (List.mem_map_of_mem hf)
    rw [← hvalues]
    exact List.mem_map_of_mem hr
  have hcount : (sheet.quoted.layout delimiter).length ≤ limits.maxTableRows := by
    have hlength := congrArg List.length hvalues
    rw [List.length_map] at hlength
    omega
  obtain ⟨memory', h⟩ := parseRecords_within hpermits hscan hrecords hcount
  exact ⟨_, memory', h, hvalues⟩

end

theorem delimits_of {delimiter : Char} (h : delimiter = ',' ∨ delimiter = '\t') :
    Delimits delimiter := by
  rcases h with rfl | rfl <;> exact ⟨by decide, by decide⟩

/-- `parse_records` reads back what is written in quotes, accepts its grammar and nothing
else, and its field ranges cover the text. A limit or an interruption can refuse a text,
and nothing else refuses one of the grammar. -/
theorem parse_records_exact {delimiter : Char} (hdelimiter : delimiter = ',' ∨ delimiter = '\t')
    (format : InputFormat) {σ : Type} (runtime : Runtime σ) (limits : Limits)
    (memory : LogicalMemory σ) :
    (∀ sheet : Sheet, sheet.Valid →
      (Permits runtime memory (sheet.quoted.text delimiter) →
        (∀ record ∈ sheet.values, ∀ value ∈ record, byteLength value ≤ limits.maxFieldBytes) →
        sheet.values.length ≤ limits.maxTableRows →
        ∃ records memory', parseRecords runtime limits format delimiter
          (sheet.quoted.text delimiter) memory = .ok (records, memory') ∧
            records.map (fun r => r.fields.map (·.value)) = sheet.values) ∧
      ((∃ c, parseRecords runtime limits format delimiter (sheet.quoted.text delimiter) memory =
          .error (.core c)) ∨
        ∃ records memory', parseRecords runtime limits format delimiter
          (sheet.quoted.text delimiter) memory = .ok (records, memory') ∧
            records.map (fun r => r.fields.map (·.value)) = sheet.values)) ∧
    (∀ text,
      (Permits runtime memory text → byteLength text < limits.maxFieldBytes →
        byteLength text < limits.maxTableRows →
        ((∃ done, parseRecords runtime limits format delimiter text memory = .ok done) ↔
          InGrammar delimiter text)) ∧
      ((∃ c, parseRecords runtime limits format delimiter text memory = .error (.core c)) ∨
        ((∃ done, parseRecords runtime limits format delimiter text memory = .ok done) ↔
          InGrammar delimiter text))) ∧
    ∀ text records memory',
      parseRecords runtime limits format delimiter text memory = .ok (records, memory') →
      Covered delimiter 0 text (records.flatMap (·.fields)) ∧
        ((records.flatMap (·.fields)).Pairwise fun a b => a.stop < b.start) ∧
        ∀ f ∈ records.flatMap (·.fields), OnBoundaries text f := by
  have hdelimits := delimits_of hdelimiter
  refine ⟨fun sheet hsheet => ⟨fun hpermits hfields hrows => ?_, ?_⟩, fun text => ⟨?_, ?_⟩, ?_⟩
  · exact parseRecords_quoted hdelimits hsheet rfl hpermits hfields hrows
  · have hscan := canonical_scanned format hdelimits (Sheet.quoted_valid hsheet)
      (Sheet.quoted_canonical hsheet)
    exact (parseRecords_of_scan runtime limits memory hscan).imp_right fun h =>
      ⟨_, h.choose, h.choose_spec, Sheet.quoted_values⟩
  · exact fun hpermits hfield hrows => parseRecords_accepts hdelimits hpermits hfield hrows
  · cases hparse : parseRecords runtime limits format delimiter text memory with
    | ok done =>
      refine Or.inr (iff_of_true ⟨done, rfl⟩ ?_)
      exact (scanRecords_accepts_iff hdelimits format text).mp ⟨done.1, parseRecords_ok hparse⟩
    | error error =>
      by_cases hgrammar : InGrammar delimiter text
      · obtain ⟨records, hscan⟩ := (scanRecords_accepts_iff hdelimits format text).mpr hgrammar
        rcases parseRecords_of_scan runtime limits memory hscan with ⟨c, hc⟩ | ⟨memory', h⟩
        · exact Or.inl ⟨c, by rw [← hparse, hc]⟩
        · cases hparse.symm.trans h
      · refine Or.inr (iff_of_false ?_ hgrammar)
        rintro ⟨done, h⟩
        cases h
  · intro text records memory' h
    obtain ⟨w, hw, rfl, rfl⟩ := scanRecords_written (parseRecords_ok h)
    have hcovered := layout_covered hw
    exact ⟨hcovered, hcovered.ordered, hcovered.onBoundaries⟩

/-- A runtime that grants everything. -/
def freeRuntime : Runtime Unit where
  checkpoint := .ok
  grow := fun s _ => .ok s
  shrink := fun s _ => .ok s
  allocate := fun s target => .ok (target, s)

theorem freeRuntime_generous : freeRuntime.Generous :=
  ⟨fun s => ⟨s, rfl⟩, fun s _ => ⟨s, rfl⟩, fun s _ => ⟨s, rfl⟩⟩

/-- Two records, the first with a line break and a quote in a field. -/
def exampleSheet : Sheet := ⟨[([['a', '\n', '"'], []], .crlf)], some [['b'], [',']]⟩

theorem parse_records_exact_quoted :
    ∃ records memory', parseRecords freeRuntime ⟨100, 10⟩ .csv ',' (exampleSheet.quoted.text ',')
      ⟨(), true, 0, none⟩ = .ok (records, memory') ∧
        records.map (fun r => r.fields.map (·.value)) = exampleSheet.values := by
  have hvalid : exampleSheet.Valid := ⟨by decide, by decide⟩
  have haffords : LogicalMemory.Affords ⟨(), true, 0, none⟩
      (parseCost (exampleSheet.quoted.text ',')) := ⟨by decide +kernel, nofun⟩
  exact ((parse_records_exact (Or.inl rfl) .csv freeRuntime ⟨100, 10⟩ ⟨(), true, 0, none⟩).1
    exampleSheet hvalid).1 ⟨freeRuntime_generous, haffords⟩ (by decide +kernel) (by decide)

end IntoMarkdown.Converters.Delimited
