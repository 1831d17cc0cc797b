import IntoMarkdown.Sheet.Still

/-! # Translation token by token

What the one pass makes of each token, and of a formula of them. -/

namespace IntoMarkdown.Sheet
open Lib Strings

section
variable {rowDelta columnDelta : Int} {previous : Option Char} {reference : Reference}
  {text behind : Text}

/-! ## Text without references -/

theorem still_of_no_read (hbreak : ∀ c ∈ behind.head?, isBreak c = true)
    (h : ∀ reference : Reference, reference.Spelled → ¬ reference.text <:+: text) :
    Still rowDelta columnDelta previous text behind := by
  intro front back reference rest translated htext _ hread
  obtain ⟨-, hspelled, hback, -⟩ := readReference_eq_some_iff.mp hread
  obtain ⟨between, hbetween, -⟩ := text_of_read hspelled hbreak hback
  exact absurd ⟨front, between, by rw [htext, hbetween, List.append_assoc]⟩ (h reference hspelled)

/-- What is quiet before the next character is still before all that follows. -/
theorem still_of_quiet {anchor target : CellCoordinate} (hanchor : InGrid anchor)
    (htarget : InGrid target) (hbreak : ∀ c ∈ behind.head?, isBreak c = true)
    (hquiet : Quiet text behind.head?) :
    Still ((target.1 : Int) - anchor.1) ((target.2 : Int) - anchor.2) previous text behind := by
  intro front back reference rest translated htext _ hread htranslate
  obtain ⟨hprevious, hspelled, hback, hcloses⟩ := readReference_eq_some_iff.mp hread
  obtain ⟨between, hbetween, hrest⟩ := text_of_read hspelled hbreak hback
  refine ⟨?_, ⟨between, hbetween.symm⟩⟩
  by_contra hmoved
  have hread' : readReference front.getLast? (back ++ behind.head?.toList) =
      some (reference, between ++ behind.head?.toList) := by
    refine readReference_eq_some_iff.mpr ⟨?_, hspelled, by rw [hbetween, List.append_assoc], ?_⟩
    · cases hlast : front.getLast? with
      | none => rfl
      | some c =>
        rw [lastOf, hlast] at hprevious
        exact hprevious
    · intro c hc
      refine hcloses c ?_
      rw [hrest]
      cases between with
      | cons d between => exact hc
      | nil =>
        cases behind with
        | nil => exact hc
        | cons d behind => exact hc
  exact hquiet front back reference _ htext hread'
    ⟨anchor, target, hanchor, htarget, translated, htranslate, hmoved⟩

theorem dollar_mem {isAbsolute : Bool} {c : Char} (h : c ∈ dollar isAbsolute) : c = '$' := by
  cases isAbsolute with
  | true => exact List.mem_singleton.mp h
  | false => cases h

theorem exists_digit_mem (hspelled : reference.Spelled) :
    ∃ c ∈ reference.text, isAsciiDigit c = true := by
  obtain ⟨c, digits, hdigits⟩ := List.exists_cons_of_ne_nil hspelled.some_digit
  have hmem : c ∈ reference.digits := hdigits ▸ List.mem_cons_self
  exact ⟨c, List.mem_append_right _ hmem, List.all_eq_true.mp hspelled.digits c hmem⟩

theorem exists_letter_mem (hspelled : reference.Spelled) :
    ∃ c ∈ reference.text, isAsciiAlphabetic c = true := by
  obtain ⟨c, letters, hletters⟩ := List.exists_cons_of_ne_nil hspelled.some_letter
  have hmem : c ∈ reference.letters := hletters ▸ List.mem_cons_self
  refine ⟨c, ?_, List.all_eq_true.mp hspelled.letters c hmem⟩
  simp only [Reference.text, List.mem_append]
  exact Or.inl (Or.inl (Or.inr hmem))

theorem mem_edges {first last : Edge} {p : Char → Bool}
    (hfirst : first.spelling.all p = true) (hlast : last.spelling.all p = true) {c : Char}
    (h : c ∈ first.text ++ ':' :: last.text) : c = '$' ∨ c = ':' ∨ p c = true := by
  simp only [Edge.text, List.mem_append, List.mem_cons] at h
  rcases h with (h | h) | h | h | h
  · exact Or.inl (dollar_mem h)
  · exact Or.inr (Or.inr (List.all_eq_true.mp hfirst c h))
  · exact Or.inr (Or.inl h)
  · exact Or.inl (dollar_mem h)
  · exact Or.inr (Or.inr (List.all_eq_true.mp hlast c h))

/-- Two edges of a kind have no reference in them. -/
theorem scan_edges {first last : Edge} {p : Char → Bool} (hquote : ∀ c, p c = true → isQuote c = false)
    (hfirst : first.spelling.all p = true) (hlast : last.spelling.all p = true)
    (hother : ∀ reference : Reference, reference.Spelled →
      ∃ c ∈ reference.text, c ≠ '$' ∧ c ≠ ':' ∧ p c = false)
    (hbreak : ∀ c ∈ behind.head?, isBreak c = true) :
    scan rowDelta columnDelta previous (first.text ++ ':' :: last.text ++ behind) =
      first.text ++ ':' :: last.text ++
        scan rowDelta columnDelta (lastOf previous (first.text ++ ':' :: last.text)) behind := by
  refine scan_still ?_ (still_of_no_read hbreak ?_)
  · rw [List.any_eq_false]
    intro c hc
    rcases mem_edges hfirst hlast hc with rfl | rfl | h
    · decide
    · decide
    · simp [hquote c h]
  · intro reference hspelled hwithin
    obtain ⟨c, hc, hdollar, hcolon, hp⟩ := hother reference hspelled
    rcases mem_edges hfirst hlast (hwithin.subset hc) with h | h | h
    · exact hdollar h
    · exact hcolon h
    · rw [hp] at h
      cases h

theorem isQuote_false_of_alphabetic {c : Char} (h : isAsciiAlphabetic c = true) :
    isQuote c = false := by
  cases hquote : isQuote c with
  | false => rfl
  | true =>
    have hc : c = '"' ∨ c = '\'' := by simpa [isQuote] using hquote
    rcases hc with rfl | rfl
    · exact absurd h (by decide)
    · exact absurd h (by decide)

theorem isQuote_false_of_digit {c : Char} (h : isAsciiDigit c = true) : isQuote c = false := by
  cases hquote : isQuote c with
  | false => rfl
  | true =>
    have hc : c = '"' ∨ c = '\'' := by simpa [isQuote] using hquote
    rcases hc with rfl | rfl
    · exact absurd h (by decide)
    · exact absurd h (by decide)

theorem scan_columns {first last : Edge} (hfirst : first.IsColumn) (hlast : last.IsColumn)
    (hbreak : ∀ c ∈ behind.head?, isBreak c = true) :
    scan rowDelta columnDelta previous ((Token.columns first last).text ++ behind) =
      (Token.columns first last).text ++ scan rowDelta columnDelta
        (lastOf previous (Token.columns first last).text) behind := by
  refine scan_edges (fun c => isQuote_false_of_alphabetic) hfirst.1 hlast.1 ?_ hbreak
  intro reference hspelled
  obtain ⟨c, hc, hdigit⟩ := exists_digit_mem hspelled
  refine ⟨c, hc, ?_, ?_, alphabetic_false_of_digit hdigit⟩
  · rintro rfl
    exact absurd hdigit (by decide)
  · rintro rfl
    exact absurd hdigit (by decide)

theorem scan_rows {first last : Edge} (hfirst : first.IsRow) (hlast : last.IsRow)
    (hbreak : ∀ c ∈ behind.head?, isBreak c = true) :
    scan rowDelta columnDelta previous ((Token.rows first last).text ++ behind) =
      (Token.rows first last).text ++ scan rowDelta columnDelta
        (lastOf previous (Token.rows first last).text) behind := by
  refine scan_edges (fun c => isQuote_false_of_digit) hfirst.1 hlast.1 ?_ hbreak
  intro reference hspelled
  obtain ⟨c, hc, hletter⟩ := exists_letter_mem hspelled
  refine ⟨c, hc, ?_, ?_, ?_⟩
  · rintro rfl
    exact absurd hletter (by decide)
  · rintro rfl
    exact absurd hletter (by decide)
  · cases hdigit : isAsciiDigit c with
    | false => rfl
    | true =>
      rw [alphabetic_false_of_digit hdigit] at hletter
      cases hletter

/-! ## Cells -/

theorem parseRow_natText {row : Nat} (h : row < maxExcelRows) :
    parseRow (natText (row + 1)) = some row := by
  simp only [parseRow, decimal_natText, if_pos h]

theorem movedLetters_columnName {column : Nat} (h : column < maxExcelColumns) (isAbsolute : Bool)
    (delta : Int) : movedLetters isAbsolute delta (columnName column) =
      (movedIndex maxExcelColumns isAbsolute delta column).map columnName := by
  rw [movedLetters, parseColumn_columnName h, Option.bind_eq_bind, Option.bind_some]
  cases movedIndex maxExcelColumns isAbsolute delta column with
  | none => rfl
  | some moved =>
    by_cases heq : moved = column
    · simp [heq]
    · simp [heq]

theorem movedDigits_natText {row : Nat} (h : row < maxExcelRows) (isAbsolute : Bool)
    (delta : Int) : movedDigits isAbsolute delta (natText (row + 1)) =
      (movedIndex maxExcelRows isAbsolute delta row).map fun moved => natText (moved + 1) := by
  rw [movedDigits, parseRow_natText h, Option.bind_eq_bind, Option.bind_some]
  cases movedIndex maxExcelRows isAbsolute delta row with
  | none => rfl
  | some moved =>
    by_cases heq : moved = row
    · simp [heq]
    · simp [heq]

namespace Reference.Canonical

theorem spelled (h : reference.Canonical) : reference.Spelled := by
  obtain ⟨column, row, -, -, hletters, hdigits⟩ := h
  exact {
    letters := hletters ▸ List.all_eq_true.mpr fun c hc => isAsciiAlphabetic_of_mem_columnLetters hc
    some_letter := hletters ▸ columnName_ne_nil column
    few_letters := hletters ▸ length_columnLetters_le 3 column
    digits := hdigits ▸ List.all_eq_true.mpr fun c hc => isAsciiDigit_of_mem_natText hc
    some_digit := hdigits ▸ natText_ne_nil _ }

/-- What moves is written as a reference that moves. -/
theorem translate (h : reference.Canonical) :
    reference.translate rowDelta columnDelta =
      match movedLetters reference.columnAbsolute columnDelta reference.letters,
          movedDigits reference.rowAbsolute rowDelta reference.digits with
      | some letters, some digits => some (Reference.text { reference with letters, digits })
      | _, _ => none := by
  obtain ⟨columnAbsolute, letters, rowAbsolute, digits⟩ := reference
  obtain ⟨column, row, hcolumn, hrow, rfl, rfl⟩ := h
  have hfilter : (some (row + 1)).filter (fun n => decide (n < 2 ^ 63)) = some (row + 1) := by
    have hlt : row + 1 < 2 ^ 63 := Nat.lt_of_le_of_lt hrow (by decide)
    rw [Option.filter_some, if_pos (decide_eq_true hlt)]
  have hnumber : ((row + 1 : Nat) : Int) - 1 = row := by omega
  simp only [Reference.translate, movedLetters_columnName hcolumn, movedDigits_natText hrow,
    parseColumn_columnName hcolumn, decimal_natText, hfilter, hnumber, Option.bind_eq_bind,
    Option.bind_some, movedIndex]
  generalize (if columnAbsolute = true then (column : Int) else column + columnDelta) = toColumn
  generalize (if rowAbsolute = true then (row : Int) else row + rowDelta) = toRow
  by_cases hcolumns : 0 ≤ toColumn ∧ toColumn < maxExcelColumns
  · by_cases hrows : 0 ≤ toRow ∧ toRow < maxExcelRows
    · rw [if_pos ⟨hrows.1, hrows.2, hcolumns⟩, if_pos hcolumns, if_pos hrows]
      rfl
    · rw [if_neg (fun h => hrows ⟨h.1, h.2.1⟩), if_pos hcolumns, if_neg hrows]
      rfl
  · rw [if_neg (fun h => hcolumns h.2.2), if_neg hcolumns]
    rfl

end Reference.Canonical

/-! ## References that leave the grid -/

theorem not_dollar_mem {text : Text} {p : Char → Bool} (hall : text.all p = true)
    (hdollar : p '$' = false) : '$' ∉ text := by
  intro h
  rw [List.all_eq_true.mp hall '$' h] at hdollar
  cases hdollar

/-- A sign behind the letters stands right before the digits. -/
theorem digits_of_dollar {letters digits front back : Text} {isAbsolute : Bool}
    (hletters : letters.all isAsciiAlphabetic = true) (hdigits : digits.all isAsciiDigit = true)
    (h : letters ++ (dollar isAbsolute ++ digits) = front ++ '$' :: back) : back = digits := by
  have hletter := not_dollar_mem hletters alphabetic_dollar
  have hdigit := not_dollar_mem hdigits digit_dollar
  rcases List.append_eq_append_iff.mp h with ⟨excess, rfl, hrest⟩ | ⟨excess, rfl, hrest⟩
  · cases isAbsolute with
    | false =>
      refine absurd ?_ hdigit
      have hmem : '$' ∈ excess ++ '$' :: back := by simp
      exact (show dollar false ++ digits = digits from rfl) ▸ hrest ▸ hmem
    | true =>
      cases excess with
      | nil => exact (List.cons.inj hrest).2.symm
      | cons c excess =>
        have hmem : digits = excess ++ '$' :: back := (List.cons.inj hrest).2
        exact absurd (by rw [hmem]; simp) hdigit
  · cases excess with
    | nil =>
      cases isAbsolute with
      | false =>
        refine absurd ?_ hdigit
        have hmem : '$' ∈ '$' :: back := List.mem_cons_self
        exact (show dollar false ++ digits = digits from rfl) ▸ hrest ▸ hmem
      | true => exact (List.cons.inj hrest).2
    | cons c excess =>
      refine absurd ?_ hletter
      rw [(List.cons.inj hrest).1]
      simp

/-- What reads as a reference inside of one is the same without its first sign. -/
theorem read_inside {front back rest : Text} {inner : Reference} (hspelled : reference.Spelled)
    (hsplit : reference.text = front ++ back) (hcloses : Closes behind)
    (hread : readReference (lastOf previous front) (back ++ behind) = some (inner, rest)) :
    inner = reference ∨ inner = { reference with columnAbsolute := false } := by
  have hprevious := (readReference_eq_some_iff.mp hread).1
  rcases List.eq_nil_or_concat' front with rfl | ⟨front, c, rfl⟩
  · rw [← List.nil_append back, ← hsplit, readReference_of hprevious hspelled hcloses] at hread
    exact Or.inl (congrArg Prod.fst (Option.some.inj hread)).symm
  · rw [lastOf_append] at hprevious hread
    have hc : isFormulaIdentifier c = false := hprevious
    have hmem : c ∈ reference.text := by
      rw [hsplit]
      simp
    obtain rfl : c = '$' := by
      have hbreak := isBreak_false_of_mem hspelled hmem
      simpa [isBreak, hc] using hbreak
    rw [List.append_assoc, List.singleton_append] at hsplit
    have before_digits {front : Text} (h : reference.letters ++
        (dollar reference.rowAbsolute ++ reference.digits) = front ++ '$' :: back) : False := by
      obtain rfl := digits_of_dollar hspelled.letters hspelled.digits h
      obtain ⟨d, digits, hd⟩ := List.exists_cons_of_ne_nil hspelled.some_digit
      have hdigit : isAsciiDigit d = true :=
        List.all_eq_true.mp hspelled.digits d (hd ▸ List.mem_cons_self)
      rw [hd, List.cons_append, not_read (alphabetic_false_of_digit hdigit) (by
        rintro rfl
        exact absurd hdigit (by decide))] at hread
      cases hread
    have htext : reference.text = dollar reference.columnAbsolute ++
        (reference.letters ++ (dollar reference.rowAbsolute ++ reference.digits)) := by
      simp [Reference.text]
    rw [htext] at hsplit
    cases habsolute : reference.columnAbsolute with
    | false =>
      rw [habsolute] at hsplit
      exact (before_digits hsplit).elim
    | true =>
      rw [habsolute] at hsplit
      cases front with
      | cons d front => exact (before_digits (List.cons.inj hsplit).2).elim
      | nil =>
        have hback : Reference.text { reference with columnAbsolute := false } = back := by
          rw [← (List.cons.inj hsplit).2]
          simp [Reference.text, dollar]
        have hspelled' : Reference.Spelled { reference with columnAbsolute := false } :=
          ⟨hspelled.letters, hspelled.some_letter, hspelled.few_letters, hspelled.digits,
            hspelled.some_digit⟩
        rw [← hback, readReference_of hprevious hspelled' hcloses] at hread
        exact Or.inr (congrArg Prod.fst (Option.some.inj hread)).symm

theorem isQuote_false_of_mem_text (hspelled : reference.Spelled) {c : Char}
    (h : c ∈ reference.text) : isQuote c = false := by
  have hbreak := isBreak_false_of_mem hspelled h
  cases hquote : isQuote c with
  | false => rfl
  | true =>
    have hc : c = '"' ∨ c = '\'' := by simpa [isQuote] using hquote
    rcases hc with rfl | rfl
    · exact absurd hbreak (by decide)
    · exact absurd hbreak (by decide)

/-- A reference that leaves the grid does not move without its first sign either. -/
theorem Reference.Canonical.inside_none (hcanonical : reference.Canonical)
    (hnone : reference.translate rowDelta columnDelta = none) :
    Reference.translate rowDelta columnDelta { reference with columnAbsolute := false } = none := by
  cases habsolute : reference.columnAbsolute with
  | false => rwa [← habsolute]
  | true =>
    have hinner : Reference.Canonical { reference with columnAbsolute := false } := hcanonical
    have hstays : movedLetters true columnDelta reference.letters = some reference.letters := by
      obtain ⟨column, row, hcolumn, -, hletters, -⟩ := hcanonical
      have hindex : movedIndex maxExcelColumns true columnDelta column = some column := by
        rw [movedIndex, if_pos ⟨Int.natCast_nonneg column, Int.ofNat_lt.mpr hcolumn⟩]
        rfl
      rw [hletters, movedLetters_columnName hcolumn, hindex]
      rfl
    rw [hcanonical.translate, habsolute, hstays] at hnone
    rw [hinner.translate]
    cases hdigits : movedDigits reference.rowAbsolute rowDelta reference.digits with
    | none => split <;> first | rfl | (rename_i h; cases h)
    | some digits =>
      rw [hdigits] at hnone
      cases hnone

theorem scan_cell (hcanonical : reference.Canonical)
    (hprevious : previous.any isFormulaIdentifier = false) (hcloses : Closes behind) :
    scan rowDelta columnDelta previous (reference.text ++ behind) =
      ((Token.cell reference).shifted rowDelta columnDelta).text ++
        scan rowDelta columnDelta (lastOf previous reference.text) behind := by
  have hspelled := hcanonical.spelled
  have hread := readReference_of hprevious hspelled hcloses
  cases htranslate : reference.translate rowDelta columnDelta with
  | none =>
    have hstays : ((Token.cell reference).shifted rowDelta columnDelta).text =
        reference.text := by
      rw [hcanonical.translate] at htranslate
      rw [Token.shifted]
      split
      · rename_i letters digits hletters hdigits
        rw [hletters, hdigits] at htranslate
        cases htranslate
      · rfl
    rw [hstays]
    refine scan_still ?_ ?_
    · rw [List.any_eq_false]
      intro c hc
      simp [isQuote_false_of_mem_text hspelled hc]
    · intro front back inner rest translated hsplit _ hinner hmoved
      rcases read_inside hspelled hsplit hcloses hinner with rfl | rfl
      · rw [htranslate] at hmoved
        cases hmoved
      · rw [hcanonical.inside_none htranslate] at hmoved
        cases hmoved
  | some translated =>
    have hmoved : ((Token.cell reference).shifted rowDelta columnDelta).text = translated := by
      rw [hcanonical.translate] at htranslate
      rw [Token.shifted]
      split
      · rename_i letters digits hletters hdigits
        rw [hletters, hdigits] at htranslate
        exact Option.some.inj htranslate
      · rename_i hnone
        split at htranslate
        · rename_i letters digits hletters hdigits
          exact absurd hdigits (hnone letters digits hletters)
        · cases htranslate
    have hat : translatedReferenceAt rowDelta columnDelta previous (reference.text ++ behind) =
        some (translated, behind, reference.digits.getLast?) := by
      rw [translatedReferenceAt, hread]
      simp [htranslate]
    obtain ⟨c, text, htext⟩ := List.exists_cons_of_ne_nil (Reference.text_ne_nil hspelled)
    rw [hmoved, getLast_text hspelled]
    rw [htext, List.cons_append] at hat ⊢
    rw [scan_read hat]

/-! ## Tokens -/

theorem scan_quoted {quote : Char} (hquote : isQuote quote = true) (body : Text)
    (hbehind : behind.head? ≠ some quote) :
    scan rowDelta columnDelta previous (quoted quote body ++ behind) =
      quoted quote body ++
        scan rowDelta columnDelta (lastOf previous (quoted quote body)) behind := by
  have hlast : lastOf previous (quoted quote body) = some quote := lastOf_concat _ _
  have htoken : quotedToken quote (doubled quote body ++ [quote] ++ behind) =
      (doubled quote body ++ [quote], behind) := by
    rw [List.append_assoc]
    exact quotedToken_quoted body hbehind
  rw [hlast, quoted, List.cons_append, List.cons_append, scan_quote hquote, htoken]
  simp

theorem isQuote_false_of_word {c : Char} (h : isWordChar c = true) : isQuote c = false := by
  cases hquote : isQuote c with
  | false => rfl
  | true =>
    have hc : c = '"' ∨ c = '\'' := by simpa [isQuote] using hquote
    rcases hc with rfl | rfl
    · exact absurd h (by decide)
    · exact absurd h (by decide)

theorem scan_bracket {anchor target : CellCoordinate} (hanchor : InGrid anchor)
    (htarget : InGrid target) {body : Text} (hquotes : body.any isQuote = false)
    (hquiet : Quiet ('[' :: body) (some ']')) :
    scan ((target.1 : Int) - anchor.1) ((target.2 : Int) - anchor.2) previous
        ((Token.bracket body).text ++ behind) =
      (Token.bracket body).text ++ scan ((target.1 : Int) - anchor.1)
        ((target.2 : Int) - anchor.2) (lastOf previous (Token.bracket body).text) behind := by
  have hbreak : ∀ c ∈ (']' :: behind).head?, isBreak c = true := by
    intro c hc
    obtain rfl := Option.some.inj hc
    decide
  have hquotes' : ('[' :: body).any isQuote = false := by
    rw [List.any_cons, hquotes]
    rfl
  have htext : (Token.bracket body).text ++ behind = ('[' :: body) ++ (']' :: behind) := by
    simp [Token.text]
  have hlast : lastOf previous (Token.bracket body).text = some ']' := lastOf_concat _ _
  have hclose : translatedReferenceAt ((target.1 : Int) - anchor.1) ((target.2 : Int) - anchor.2)
      (lastOf previous ('[' :: body)) (']' :: behind) = none := by
    rw [translatedReferenceAt, not_read (by decide) (by decide)]
    rfl
  rw [htext, scan_still hquotes' (still_of_quiet hanchor htarget hbreak hquiet),
    scan_copy (by decide) hclose, hlast]
  simp [Token.text]

end

end IntoMarkdown.Sheet
