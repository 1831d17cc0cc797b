import IntoMarkdown.Sheet.SharedFormulas

/-! # Only clear formulas

Where a formula is moved rightly into every cell, one pass over its characters was enough. -/

namespace IntoMarkdown.Sheet
open Lib Strings

section
variable {rowDelta columnDelta : Int} {previous : Option Char} {reference : Reference}
  {text behind rest : Text}

/-! ## What the pass leaves at a boundary -/

theorem not_read_of_isBreak {c : Char} (h : isBreak c = true) :
    isAsciiAlphabetic c = false ∧ c ≠ '$' := by
  simp only [isBreak, Bool.and_eq_true, Bool.not_eq_true', decide_eq_true_eq] at h
  refine ⟨?_, h.2⟩
  cases hletter : isAsciiAlphabetic c with
  | false => rfl
  | true =>
    rw [isFormulaIdentifier_of_alphabetic hletter] at h
    cases h.1

theorem head_scan {c : Char} (h : isBreak c = true) :
    (scan rowDelta columnDelta previous (c :: text)).head? = some c := by
  cases hquote : isQuote c with
  | true =>
    rw [scan_quote hquote]
    rfl
  | false =>
    obtain ⟨hletter, hdollar⟩ := not_read_of_isBreak h
    rw [scan_copy hquote (by rw [translatedReferenceAt, not_read hletter hdollar]; rfl)]
    rfl

theorem head_scan_eq (h : ∀ c ∈ text.head?, isBreak c = true) :
    (scan rowDelta columnDelta previous text).head? = text.head? := by
  cases text with
  | nil => rfl
  | cons c text => exact head_scan (h c rfl)

theorem Closes.of_head {text' : Text} (h : Closes text) (hhead : text'.head? = text.head?) :
    Closes text' := fun c hc => h c (hhead ▸ hc)

/-- Two references before a boundary are the same where the texts are. -/
theorem same_reference {reference' : Reference} {text' : Text} (hspelled : reference.Spelled)
    (hspelled' : reference'.Spelled) (hcloses : Closes text) (hcloses' : Closes text')
    (h : reference.text ++ text = reference'.text ++ text') : reference = reference' := by
  have hnone : (none : Option Char).any isFormulaIdentifier = false := rfl
  have hread := readReference_of hnone hspelled hcloses
  rw [h, readReference_of hnone hspelled' hcloses'] at hread
  exact (congrArg Prod.fst (Option.some.inj hread)).symm

/-- Two words before a break are the same where the texts are. -/
theorem same_word {word word' behind' : Text} (hword : word.all (fun c => !isBreak c) = true)
    (hword' : word'.all (fun c => !isBreak c) = true)
    (hbreak : ∀ c ∈ behind.head?, isBreak c = true)
    (hbreak' : ∀ c ∈ behind'.head?, isBreak c = true) (h : word ++ behind = word' ++ behind') :
    word = word' ∧ behind = behind' := by
  have hstop (text : Text) (h : ∀ c ∈ text.head?, isBreak c = true) :
      ∀ c ∈ text.head?, (!isBreak c) = false := fun c hc => by simp [h c hc]
  have htake := takeWhile_append_of hword (hstop _ hbreak)
  have hdrop := dropWhile_append_of hword (hstop _ hbreak)
  rw [h, takeWhile_append_of hword' (hstop _ hbreak')] at htake
  rw [h, dropWhile_append_of hword' (hstop _ hbreak')] at hdrop
  exact ⟨htake.symm, hdrop.symm⟩

/-! ## Cells -/

theorem translate_some {translated : Text}
    (h : reference.translate rowDelta columnDelta = some translated) :
    ∃ reference' : Reference, reference'.Spelled ∧ translated = reference'.text := by
  rw [Reference.translate] at h
  obtain ⟨column, -, h⟩ := Option.bind_eq_some_iff.mp h
  obtain ⟨number, -, h⟩ := Option.bind_eq_some_iff.mp h
  obtain ⟨-, h⟩ := Option.ite_none_right_eq_some.mp h
  obtain rfl := Option.some.inj h
  exact ⟨⟨reference.columnAbsolute, columnName _, reference.rowAbsolute, natText _⟩,
    ⟨List.all_eq_true.mpr fun c hc => isAsciiAlphabetic_of_mem_columnLetters hc,
      columnName_ne_nil _, length_columnLetters_le 3 _,
      List.all_eq_true.mpr fun c hc => isAsciiDigit_of_mem_natText hc, natText_ne_nil _⟩, rfl⟩

theorem translate_eq {column row : Nat} {toRow toColumn : Int}
    (hcolumn : parseColumn reference.letters = some column)
    (hdecimal : decimal reference.digits = some (row + 1)) (hrow : row < maxExcelRows)
    (htoRow : (if reference.rowAbsolute = true then (row : Int) else row + rowDelta) = toRow)
    (htoColumn : (if reference.columnAbsolute = true then (column : Int)
      else column + columnDelta) = toColumn)
    (hgrid : 0 ≤ toRow ∧ toRow < maxExcelRows ∧ 0 ≤ toColumn ∧ toColumn < maxExcelColumns) :
    reference.translate rowDelta columnDelta =
      some (Reference.text ⟨reference.columnAbsolute, columnName toColumn.toNat,
        reference.rowAbsolute, natText (toRow.toNat + 1)⟩) := by
  have hfilter : (some (row + 1)).filter (fun n => decide (n < 2 ^ 63)) = some (row + 1) := by
    have hsmall : row + 1 < 2 ^ 63 := Nat.lt_of_le_of_lt hrow (by decide)
    rw [Option.filter_some, if_pos (decide_eq_true hsmall)]
  have hnumber : ((row + 1 : Nat) : Int) - 1 = row := by omega
  subst htoRow htoColumn
  simp only [Reference.translate, hcolumn, hdecimal, hfilter, hnumber, Option.bind_eq_bind,
    Option.bind_some]
  rw [if_pos hgrid]
  rfl

theorem stays_zero (isAbsolute : Bool) (index : Int) :
    (if isAbsolute = true then index else index + 0) = index := by
  rw [Int.add_zero, ite_self]

/-- In its own cell a reference on the grid becomes canonical. -/
theorem Reference.OnGrid.translate_zero (h : reference.OnGrid) :
    ∃ reference' : Reference, reference'.Canonical ∧
      reference.translate 0 0 = some reference'.text := by
  obtain ⟨column, hcolumn⟩ := Option.isSome_iff_exists.mp h.column
  obtain ⟨row, hrow⟩ := Option.isSome_iff_exists.mp h.row
  have hlt := parseColumn_lt hcolumn
  obtain ⟨hdecimal, hrowLt⟩ := decimal_of_parseRow hrow
  exact ⟨_, ⟨column, row, hlt, hrowLt, rfl, rfl⟩, translate_eq hcolumn hdecimal hrowLt
    (stays_zero _ _) (stays_zero _ _) ⟨Int.natCast_nonneg row, Int.ofNat_lt.mpr hrowLt,
      Int.natCast_nonneg column, Int.ofNat_lt.mpr hlt⟩⟩

theorem scan_reference {translated : Text} (hspelled : reference.Spelled)
    (hprevious : previous.any isFormulaIdentifier = false) (hcloses : Closes behind)
    (h : reference.translate rowDelta columnDelta = some translated) :
    scan rowDelta columnDelta previous (reference.text ++ behind) =
      translated ++ scan rowDelta columnDelta reference.digits.getLast? behind := by
  have hat : translatedReferenceAt rowDelta columnDelta previous (reference.text ++ behind) =
      some (translated, behind, reference.digits.getLast?) := by
    rw [translatedReferenceAt, readReference_of hprevious hspelled hcloses]
    simp [h]
  obtain ⟨c, tail, htext⟩ := List.exists_cons_of_ne_nil (Reference.text_ne_nil hspelled)
  rw [htext, List.cons_append] at hat ⊢
  exact scan_read hat

/-- A reference that is copied has not moved. -/
theorem unmoved_of_scan {translated after : Text} (hspelled : reference.Spelled)
    (hprevious : previous.any isFormulaIdentifier = false) (hcloses : Closes behind)
    (hbreak : ∀ c ∈ behind.head?, isBreak c = true)
    (htranslate : reference.translate rowDelta columnDelta = some translated)
    (hafter : after.head? = behind.head?)
    (h : scan rowDelta columnDelta previous (reference.text ++ behind) =
      reference.text ++ after) : translated = reference.text := by
  obtain ⟨reference', hspelled', rfl⟩ := translate_some htranslate
  rw [scan_reference hspelled hprevious hcloses htranslate] at h
  rw [same_reference hspelled' hspelled (hcloses.of_head (head_scan_eq hbreak))
    (hcloses.of_head hafter) h]

theorem canonical_of_scan (hgrid : reference.OnGrid)
    (hprevious : previous.any isFormulaIdentifier = false) (hcloses : Closes behind)
    (hbreak : ∀ c ∈ behind.head?, isBreak c = true)
    (h : scan 0 0 previous (reference.text ++ behind) = reference.text ++ behind) :
    reference.Canonical := by
  obtain ⟨reference', hcanonical, htranslate⟩ := hgrid.translate_zero
  have hsame := unmoved_of_scan hgrid.toSpelled hprevious hcloses hbreak htranslate rfl h
  have hclosed : Closes [] := by
    intro c hc
    cases hc
  exact same_reference hcanonical.spelled hgrid.toSpelled hclosed hclosed
    (congrArg (· ++ []) hsame) ▸ hcanonical

/-! ## Names, numbers and brackets -/

/-- Only the next character of what stands behind a text matters for what is read in it. -/
theorem read_next {previous' : Option Char} {back between behind' : Text}
    (hback : back = reference.text ++ between)
    (hprevious : previous'.any isFormulaIdentifier = false)
    (hnext : behind'.head? = behind.head?)
    (hread : readReference previous (back ++ behind) = some (reference, rest)) :
    readReference previous' (back ++ behind') = some (reference, between ++ behind') := by
  obtain ⟨-, hspelled, htext, hcloses⟩ := readReference_eq_some_iff.mp hread
  subst hback
  obtain rfl : between ++ behind = rest := by
    rw [List.append_assoc] at htext
    exact List.append_cancel_left htext
  rw [List.append_assoc]
  refine readReference_of hprevious hspelled (hcloses.of_head ?_)
  cases between with
  | cons c between => rfl
  | nil => exact hnext

theorem head_toList (text : Text) : text.head?.toList.head? = text.head? := by
  cases text <;> rfl

theorem any_lastOf {p : Char → Bool} (hprevious : previous.any p = false)
    (h : text.getLast?.any p = false) : (lastOf previous text).any p = false := by
  unfold lastOf
  cases hlast : text.getLast? with
  | none => exact hprevious
  | some c => rwa [hlast] at h

theorem any_getLast {p : Char → Bool} (h : (lastOf previous text).any p = false) :
    text.getLast?.any p = false := by
  unfold lastOf at h
  cases hlast : text.getLast? with
  | none => rfl
  | some c => rwa [hlast] at h

theorem identifier_or_dollar {c : Char} (hspelled : reference.Spelled) (hc : c ∈ reference.text) :
    isFormulaIdentifier c = true ∨ c = '$' := by
  have hbreak := isBreak_false_of_mem hspelled hc
  cases hidentifier : isFormulaIdentifier c with
  | true => exact Or.inl rfl
  | false => exact Or.inr (by simpa [isBreak, hidentifier] using hbreak)

/-- What is read ends before the next place where something can be read. -/
theorem ends_before {front back between : Text} (hspelled : reference.Spelled)
    (hdollar : '$' ∉ front) (hsome : front ≠ [])
    (hprevious : (lastOf previous front).any isFormulaIdentifier = false)
    (h : front ++ back = reference.text ++ between) : reference.text <+: front := by
  rcases List.append_eq_append_iff.mp h with ⟨excess, htext, -⟩ | ⟨excess, hfront, -⟩
  · obtain ⟨front, c, rfl⟩ := (List.eq_nil_or_concat' front).resolve_left hsome
    rw [lastOf_concat, Option.any_some] at hprevious
    rcases identifier_or_dollar hspelled (c := c) (by rw [htext]; simp) with hc | rfl
    · rw [hprevious] at hc
      cases hc
    · exact absurd (by simp) hdollar
  · exact ⟨excess, hfront.symm⟩

/-- Where a text is copied in every cell, nothing in it reads as a reference that moves. The induction
is on the place: what is read before it does not move and ends there. -/
theorem quiet_of_scan (hquotes : text.any isQuote = false) (hdollar : '$' ∉ text)
    (hprevious : previous.any isFormulaIdentifier = false)
    (hbreak : ∀ c ∈ behind.head?, isBreak c = true)
    (h : ∀ anchor target, InGrid anchor → InGrid target →
      ∃ after : Text, after.head? = behind.head? ∧
        scan ((target.1 : Int) - anchor.1) ((target.2 : Int) - anchor.2) previous
          (text ++ behind) = text ++ after) : Quiet text behind.head? := by
  intro front
  induction hn : front.length using Nat.strong_induction_on generalizing front with
  | _ n ih =>
    intro back reference rest htext hread hmoves
    obtain ⟨anchor, target, hanchor, htarget, translated, htranslate, hmoved⟩ := hmoves
    subst htext
    obtain ⟨hlast, hspelled, hsplit, -⟩ := readReference_eq_some_iff.mp hread
    obtain ⟨between, hback, -⟩ := text_of_read hspelled (by rwa [head_toList]) hsplit
    have hlast' := any_lastOf hprevious hlast
    rw [List.any_append, Bool.or_eq_false_iff] at hquotes
    simp only [List.mem_append, not_or] at hdollar
    have hstill : Still ((target.1 : Int) - anchor.1) ((target.2 : Int) - anchor.2) previous front
        (back ++ behind) := by
      intro front' back' reference' rest' translated' hfront hsome hread' htranslate'
      obtain ⟨hlast'', hspelled', hsplit', -⟩ := readReference_eq_some_iff.mp hread'
      rw [hfront, lastOf_append] at hlast'
      rw [hfront, List.mem_append, not_or] at hdollar
      have hends := ends_before hspelled' hdollar.1.2 hsome hlast' hsplit'
      refine ⟨?_, hends⟩
      obtain ⟨between', hbetween'⟩ := hends
      by_contra hmoved'
      have hshorter : front'.length < n := by
        have := List.length_pos_iff.mpr hsome
        rw [← hn, hfront, List.length_append]
        omega
      have hwhole : back' ++ back = reference'.text ++ (between' ++ back) := by
        rw [← hbetween', List.append_assoc]
      rw [← List.append_assoc] at hread'
      exact ih front'.length hshorter front' rfl (back' ++ back) reference' _
        (by rw [hfront, List.append_assoc])
        (read_next hwhole (any_getLast hlast'') (head_toList behind) hread')
        ⟨anchor, target, hanchor, htarget, translated', htranslate', hmoved'⟩
    obtain ⟨after, hafter, hscan⟩ := h anchor target hanchor htarget
    rw [List.append_assoc, scan_still hquotes.1 hstill, List.append_assoc] at hscan
    have hscan := List.append_cancel_left hscan
    have hread' := read_next hback hlast' (head_toList behind).symm hread
    obtain ⟨-, -, -, hcloses⟩ := readReference_eq_some_iff.mp hread'
    rw [hback, List.append_assoc, List.append_assoc] at hscan
    refine hmoved (unmoved_of_scan hspelled hlast' hcloses ?_ htranslate ?_ hscan)
    · intro c hc
      cases between with
      | nil => exact hbreak c hc
      | cons d between =>
        obtain rfl := Option.some.inj hc
        have hd : d ≠ '$' := by
          rintro rfl
          exact hdollar.2 (by rw [hback]; simp)
        simp [isBreak, (hcloses d rfl).1, hd]
    · cases between with
      | nil => exact hafter
      | cons d between => rfl

theorem quiet_bracket {body : Text} {next : Option Char} (hquiet : Quiet body next) :
    Quiet ('[' :: body) next := by
  intro front back reference rest htext hread
  obtain ⟨hprevious, hspelled, hback, -⟩ := readReference_eq_some_iff.mp hread
  cases front with
  | nil =>
    rw [← show '[' :: body = back from htext, List.cons_append, not_read (by decide) (by decide)]
      at hread
    cases hread
  | cons c front =>
    obtain ⟨rfl, rfl⟩ := List.cons.inj htext
    refine hquiet front back reference rest rfl ?_
    rw [hback] at hread ⊢
    obtain ⟨-, -, -, hcloses⟩ := readReference_eq_some_iff.mp hread
    have hlast : lastOf (some '[') front = ('[' :: front).getLast? := by
      rw [lastOf, List.getLast?_cons]
      cases front.getLast? <;> rfl
    exact readReference_of (any_getLast (hlast ▸ hprevious)) hspelled hcloses

/-! ## Whole columns and rows -/

theorem edge_text_not_break (edge : Edge) {p : Char → Bool}
    (hp : ∀ c, p c = true → isBreak c = false) (hall : edge.spelling.all p = true) :
    edge.text.all (fun c => !isBreak c) = true := by
  refine List.all_eq_true.mpr fun c hc => ?_
  rcases List.mem_append.mp hc with hc | hc
  · obtain rfl := dollar_mem hc
    decide
  · rw [hp c (List.all_eq_true.mp hall c hc)]
    rfl

theorem same_edge {edge : Edge} {spelling : Text}
    (h : edge.text = Edge.text { edge with spelling }) : { edge with spelling } = edge := by
  have hspelling : edge.spelling = spelling := List.append_cancel_left h
  rw [← hspelling]

/-- Two edges before a break are the same where the texts are. -/
theorem same_edges {first last : Edge} {a b text' : Text} {p : Char → Bool}
    (hp : ∀ c, p c = true → isBreak c = false) (hfirst : first.spelling.all p = true)
    (hlast : last.spelling.all p = true) (ha : a.all p = true) (hb : b.all p = true)
    (hbreak : ∀ c ∈ text.head?, isBreak c = true) (hbreak' : ∀ c ∈ text'.head?, isBreak c = true)
    (h : first.text ++ ':' :: last.text ++ text =
      Edge.text { first with spelling := a } ++ ':' :: Edge.text { last with spelling := b } ++
        text') : { first with spelling := a } = first ∧ { last with spelling := b } = last := by
  rw [List.append_assoc, List.append_assoc] at h
  have hcolon (text : Text) : ∀ c ∈ (':' :: text).head?, isBreak c = true := by
    intro c hc
    obtain rfl := Option.some.inj hc
    decide
  obtain ⟨hsame, h⟩ := same_word (edge_text_not_break first hp hfirst)
    (edge_text_not_break { first with spelling := a } hp ha) (hcolon _) (hcolon _) h
  obtain ⟨hsame', -⟩ := same_word (edge_text_not_break last hp hlast)
    (edge_text_not_break { last with spelling := b } hp hb) hbreak hbreak'
    (List.cons.inj h).2
  exact ⟨same_edge hsame, same_edge hsame'⟩

theorem all_movedLetters {isAbsolute : Bool} {letters moved : Text}
    (hall : letters.all isAsciiAlphabetic = true)
    (h : movedLetters isAbsolute columnDelta letters = some moved) :
    moved.all isAsciiAlphabetic = true := by
  obtain ⟨column, -, h⟩ := Option.bind_eq_some_iff.mp h
  obtain ⟨index, -, h⟩ := Option.bind_eq_some_iff.mp h
  obtain rfl := Option.some.inj h
  split
  · exact hall
  · exact List.all_eq_true.mpr fun c hc => isAsciiAlphabetic_of_mem_columnLetters hc

theorem all_movedDigits {isAbsolute : Bool} {digits moved : Text}
    (hall : digits.all isAsciiDigit = true)
    (h : movedDigits isAbsolute rowDelta digits = some moved) :
    moved.all isAsciiDigit = true := by
  obtain ⟨row, -, h⟩ := Option.bind_eq_some_iff.mp h
  obtain ⟨index, -, h⟩ := Option.bind_eq_some_iff.mp h
  obtain rfl := Option.some.inj h
  split
  · exact hall
  · exact List.all_eq_true.mpr fun c hc => isAsciiDigit_of_mem_natText hc

theorem isBreak_false_of_identifier {c : Char} (h : isFormulaIdentifier c = true) :
    isBreak c = false := by
  rw [isBreak, h]
  rfl

theorem columns_stay {first last : Edge} {text' : Text} (hfirst : first.IsColumn)
    (hlast : last.IsColumn) (hbreak : ∀ c ∈ text.head?, isBreak c = true)
    (hbreak' : ∀ c ∈ text'.head?, isBreak c = true)
    (h : (Token.columns first last).text ++ text =
      ((Token.columns first last).shifted rowDelta columnDelta).text ++ text') :
    (Token.columns first last).shifted rowDelta columnDelta = .columns first last := by
  rw [Token.shifted] at h ⊢
  split at h
  · rename_i a b ha hb
    obtain ⟨hfirst', hlast'⟩ := same_edges
      (fun c hc => isBreak_false_of_identifier (isFormulaIdentifier_of_alphabetic hc))
      hfirst.1 hlast.1 (all_movedLetters hfirst.1 ha) (all_movedLetters hlast.1 hb) hbreak hbreak' h
    rw [hfirst', hlast']
  · rfl

theorem rows_stay {first last : Edge} {text' : Text} (hfirst : first.IsRow) (hlast : last.IsRow)
    (hbreak : ∀ c ∈ text.head?, isBreak c = true) (hbreak' : ∀ c ∈ text'.head?, isBreak c = true)
    (h : (Token.rows first last).text ++ text =
      ((Token.rows first last).shifted rowDelta columnDelta).text ++ text') :
    (Token.rows first last).shifted rowDelta columnDelta = .rows first last := by
  rw [Token.shifted] at h ⊢
  split at h
  · rename_i a b ha hb
    obtain ⟨hfirst', hlast'⟩ := same_edges
      (fun c hc => isBreak_false_of_identifier (isFormulaIdentifier_of_digit hc))
      hfirst.1 hlast.1 (all_movedDigits hfirst.1 ha) (all_movedDigits hlast.1 hb) hbreak hbreak' h
    rw [hfirst', hlast']
  · rfl

end

/-! ## Formulas -/

section
variable {token : Token} {rest formula : List Token} {previous : Option Char}

theorem head_break_of_scan {rowDelta columnDelta : Int} (hformed : Formed (token :: rest))
    (hwordy : token.wordy = true) :
    ∀ c ∈ (scan rowDelta columnDelta previous (render rest)).head?, isBreak c = true := by
  rw [head_scan_eq (hformed.isBreak_behind hwordy)]
  exact hformed.isBreak_behind hwordy

theorem head_break_shifted {anchor target : CellCoordinate} (hformed : Formed (token :: rest))
    (hwordy : token.wordy = true) :
    ∀ c ∈ (render (shiftedFormula anchor target rest)).head?, isBreak c = true := by
  rw [head_shifted hformed hwordy]
  exact hformed.isBreak_behind hwordy

theorem clear_token_of_scan (hformed : Formed (token :: rest))
    (hplain : ∀ body, token = .bracket body → body.any isQuote = false ∧ '$' ∉ body)
    (hprevious : token.wordy = true → previous.any isFormulaIdentifier = false)
    (h : ∀ anchor target, InGrid anchor → InGrid target →
      scan ((target.1 : Int) - anchor.1) ((target.2 : Int) - anchor.2) previous
          (token.text ++ render rest) =
        (token.shifted ((target.1 : Int) - anchor.1) ((target.2 : Int) - anchor.2)).text ++
          render (shiftedFormula anchor target rest)) : token.Clear (render rest).head? := by
  cases token with
  | literal body => trivial
  | qualifier body => trivial
  | symbol c => trivial
  | cell reference =>
    have hgrid : InGrid (0, 0) := ⟨by decide, by decide⟩
    have hzero := h (0, 0) (0, 0) hgrid hgrid
    rw [Int.sub_self, Token.shifted_zero hformed.1, shiftedFormula_self hformed.2.2] at hzero
    exact canonical_of_scan hformed.1 (hprevious rfl) hformed.closes (hformed.isBreak_behind rfl)
      hzero
  | columns first last =>
    intro anchor target hanchor htarget
    have hscan := h anchor target hanchor htarget
    rw [scan_columns hformed.1.1 hformed.1.2 (hformed.isBreak_behind rfl)] at hscan
    exact columns_stay hformed.1.1 hformed.1.2 (head_break_of_scan hformed rfl)
      (head_break_shifted hformed rfl) hscan
  | rows first last =>
    intro anchor target hanchor htarget
    have hscan := h anchor target hanchor htarget
    rw [scan_rows hformed.1.1 hformed.1.2 (hformed.isBreak_behind rfl)] at hscan
    exact rows_stay hformed.1.1 hformed.1.2 (head_break_of_scan hformed rfl)
      (head_break_shifted hformed rfl) hscan
  | word text =>
    refine quiet_of_scan ?_ ?_ (hprevious rfl) (hformed.isBreak_behind rfl) ?_
    · rw [List.any_eq_false]
      intro c hc
      simp [isQuote_false_of_word (List.all_eq_true.mp hformed.1.2 c hc)]
    · intro hdollar
      exact absurd (List.all_eq_true.mp hformed.1.2 _ hdollar) (by decide)
    · intro anchor target hanchor htarget
      exact ⟨_, head_shifted hformed rfl, h anchor target hanchor htarget⟩
  | bracket body =>
    obtain ⟨hquotes, hdollar⟩ := hplain body rfl
    have hbracket : (some '[').any isFormulaIdentifier = false := by decide
    suffices hquiet : Quiet body (']' :: render rest).head? from ⟨hquotes, quiet_bracket hquiet⟩
    refine quiet_of_scan hquotes hdollar hbracket ?_ ?_
    · intro c hc
      obtain rfl := Option.some.inj hc
      decide
    · intro anchor target hanchor htarget
      refine ⟨']' :: render (shiftedFormula anchor target rest), rfl, ?_⟩
      have hscan := h anchor target hanchor htarget
      have htext (text : Text) :
          (Token.bracket body).text ++ text = '[' :: (body ++ ']' :: text) := by
        simp [Token.text]
      rw [shifted_of_not_wordy rfl, htext, htext, scan_copy (by decide) (by
        rw [translatedReferenceAt, not_read (by decide) (by decide)]
        rfl)] at hscan
      exact (List.cons.inj hscan).2

theorem clear_of_scan (hformed : Formed formula) (hplain : PlainBrackets formula)
    (hprevious : ∀ token ∈ formula.head?, token.wordy = true →
      previous.any isFormulaIdentifier = false)
    (h : ∀ anchor target, InGrid anchor → InGrid target →
      scan ((target.1 : Int) - anchor.1) ((target.2 : Int) - anchor.2) previous (render formula) =
        render (shiftedFormula anchor target formula)) : Clear formula := by
  induction formula generalizing previous with
  | nil => trivial
  | cons token rest ih =>
    have hclear : token.Clear (render rest).head? := by
      refine clear_token_of_scan hformed
        (fun body hbody => hplain body (hbody ▸ List.mem_cons_self)) (hprevious token rfl) ?_
      intro anchor target hanchor htarget
      rw [← render_cons, h anchor target hanchor htarget]
      exact render_cons _ _
    refine ⟨hclear, @ih (lastOf previous token.text) hformed.2.2
      (fun body hbody => hplain body (List.mem_cons_of_mem _ hbody)) ?_ ?_⟩
    · intro next hnext hwordy
      refine last_not_identifier hformed.1 ?_
      cases htoken : token.wordy with
      | false => rfl
      | true =>
        rw [(hformed.2.1 next hnext).1 htoken] at hwordy
        cases hwordy
    · intro anchor target hanchor htarget
      have hscan := h anchor target hanchor htarget
      rw [render_cons, scan_token hanchor htarget hformed hclear (hprevious token rfl)] at hscan
      exact List.append_cancel_left (hscan.trans (render_cons _ _))

theorem TranslatesRight.clear (hright : TranslatesRight formula) (hformed : Formed formula)
    (hplain : PlainBrackets formula) : Clear formula :=
  @clear_of_scan formula none hformed hplain (fun _ _ _ => rfl) hright.shifts

end

/-! ## Exactly the clear formulas -/

/-- **Shared formulas.** A clear formula is moved rightly into every cell, composes and stays in its
own. Without quotes and signs in brackets, no other formula is. -/
theorem translates_right_iff {formula : List Token} (hformed : Formed formula) :
    (Clear formula → TranslatesRight formula) ∧
      (PlainBrackets formula → (TranslatesRight formula ↔ Clear formula)) :=
  ⟨fun hclear => hclear.translatesRight hformed, fun hplain =>
    ⟨fun hright => hright.clear hformed hplain, fun hclear => hclear.translatesRight hformed⟩⟩

theorem translates_right_text_in_quotes :
    TranslatesRight [.cell ⟨false, ['A'], true, ['1']⟩, .symbol '&', .literal ['A', '1']] := by
  have hcanonical : Reference.Canonical ⟨false, ['A'], true, ['1']⟩ :=
    ⟨0, 0, by decide, by decide, by decide, by decide⟩
  refine (translates_right_iff ?_).1 ⟨hcanonical, trivial, trivial, trivial⟩
  refine ⟨hcanonical.onGrid, ?_, ⟨by decide, by decide, by decide, by decide, by decide⟩, ?_,
    trivial, ?_, trivial⟩
  · intro next hnext
    obtain rfl := Option.some.inj hnext
    exact ⟨fun _ => rfl, by decide, by decide⟩
  · intro next hnext
    obtain rfl := Option.some.inj hnext
    exact ⟨(fun h => by cases h), trivial⟩
  · intro next hnext
    cases hnext

/-- A column of a table whose name reads as a cell is moved. -/
theorem structured_reference_moves :
    Formed [.word "Table1".toList, .bracket "Q1".toList] ∧
      translateSharedFormula "Table1[Q1]".toList (0, 0) (1, 0) = "Table1[Q2]".toList ∧
      ¬ TranslatesRight [.word "Table1".toList, .bracket "Q1".toList] := by
  have htext : render [.word "Table1".toList, .bracket "Q1".toList] = "Table1[Q1]".toList := by
    decide
  have hmoves : translateSharedFormula "Table1[Q1]".toList (0, 0) (1, 0) =
      "Table1[Q2]".toList := by
    decide +kernel
  refine ⟨⟨⟨by decide, by decide⟩, ?_, trivial, ?_, trivial⟩, hmoves, ?_⟩
  · intro next hnext
    obtain rfl := Option.some.inj hnext
    exact ⟨fun _ => rfl, trivial⟩
  · intro next hnext
    cases hnext
  · intro hright
    have hshifts := hright.shifts (0, 0) (1, 0) (by decide) (by decide)
    rw [htext, hmoves] at hshifts
    exact absurd hshifts (by decide)

end IntoMarkdown.Sheet
