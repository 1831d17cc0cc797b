import IntoMarkdown.Sheet.Tokens

/-! # Reading a formula character by character

What the one pass takes for a reference, and how it goes over text in which nothing moves. -/

namespace IntoMarkdown.Sheet
open Lib Strings

/-! ## Characters -/

/-- No reference goes on over this. -/
def isBreak (c : Char) : Bool := !isFormulaIdentifier c && c ≠ '$'

theorem isFormulaIdentifier_of_alphabetic {c : Char} (h : isAsciiAlphabetic c = true) :
    isFormulaIdentifier c = true := by
  simp [isFormulaIdentifier, isAsciiAlphanumeric, h]

theorem isFormulaIdentifier_of_digit {c : Char} (h : isAsciiDigit c = true) :
    isFormulaIdentifier c = true := by
  simp [isFormulaIdentifier, isAsciiAlphanumeric, h]

theorem alphabetic_false_of_digit {c : Char} (h : isAsciiDigit c = true) :
    isAsciiAlphabetic c = false := by
  simp only [isAsciiDigit, Bool.and_eq_true, decide_eq_true_eq] at h
  simp only [isAsciiAlphabetic, Bool.or_eq_false_iff, Bool.and_eq_false_iff,
    decide_eq_false_iff_not]
  omega

theorem alphabetic_dollar : isAsciiAlphabetic '$' = false := by decide

theorem digit_dollar : isAsciiDigit '$' = false := by decide

theorem takeWhile_append_of {p : Char → Bool} {front back : Text} (hfront : front.all p = true)
    (hback : ∀ c ∈ back.head?, p c = false) : (front ++ back).takeWhile p = front := by
  rw [List.takeWhile_append_of_pos (List.all_eq_true.mp hfront)]
  cases back with
  | nil => simp
  | cons c back => simp [hback c rfl]

theorem dropWhile_append_of {p : Char → Bool} {front back : Text} (hfront : front.all p = true)
    (hback : ∀ c ∈ back.head?, p c = false) : (front ++ back).dropWhile p = back := by
  rw [List.dropWhile_append_of_pos (List.all_eq_true.mp hfront)]
  cases back with
  | nil => rfl
  | cons c back => simp [hback c rfl]

/-! ## References -/

/-- What may stand behind a reference. -/
def Closes (rest : Text) : Prop :=
  ∀ c ∈ rest.head?, isFormulaIdentifier c = false ∧ c ≠ '(' ∧ c ≠ '!'

theorem dollar_head_iff {isAbsolute : Bool} {text : Text} (h : text.head? ≠ some '$') :
    (dollar isAbsolute ++ text).head? = some '$' ↔ isAbsolute = true := by
  cases isAbsolute with
  | true => simp [dollar]
  | false => simpa [dollar] using h

theorem dollar_stripped (isAbsolute : Bool) (text : Text) :
    (if isAbsolute = true then (dollar isAbsolute ++ text).tail
      else dollar isAbsolute ++ text) = text := by
  cases isAbsolute <;> rfl

theorem head_append_ne_dollar {text rest : Text} {p : Char → Bool} (hall : text.all p = true)
    (hsome : text ≠ []) (hdollar : p '$' = false) : (text ++ rest).head? ≠ some '$' := by
  obtain ⟨c, text, rfl⟩ := List.exists_cons_of_ne_nil hsome
  intro h
  obtain rfl : c = '$' := Option.some.inj h
  simp [hdollar] at hall

theorem digits_head {digits rest : Text} (hall : digits.all isAsciiDigit = true)
    (hsome : digits ≠ []) : ∀ c ∈ (digits ++ rest).head?, isAsciiAlphabetic c = false := by
  obtain ⟨d, digits, rfl⟩ := List.exists_cons_of_ne_nil hsome
  intro c hc
  obtain rfl : d = c := Option.some.inj hc
  exact alphabetic_false_of_digit (List.all_eq_true.mp hall _ List.mem_cons_self)

theorem dollar_digits_head {isAbsolute : Bool} {digits rest : Text}
    (hall : digits.all isAsciiDigit = true) (hsome : digits ≠ []) :
    ∀ c ∈ (dollar isAbsolute ++ (digits ++ rest)).head?, isAsciiAlphabetic c = false := by
  cases isAbsolute with
  | true =>
    intro c hc
    obtain rfl : '$' = c := Option.some.inj hc
    exact alphabetic_dollar
  | false => exact @digits_head digits rest hall hsome

theorem readReference_of {previous : Option Char} {reference : Reference} {rest : Text}
    (hprevious : previous.any isFormulaIdentifier = false) (hspelled : reference.Spelled)
    (hrest : Closes rest) :
    readReference previous (reference.text ++ rest) = some (reference, rest) := by
  obtain ⟨columnAbsolute, letters, rowAbsolute, digits⟩ := reference
  obtain ⟨hletters, hletter, hfew, hdigits, hdigit⟩ := hspelled
  dsimp only at hletters hletter hfew hdigits hdigit
  have hcolumn : (letters ++ (dollar rowAbsolute ++ (digits ++ rest))).head? ≠ some '$' :=
    head_append_ne_dollar hletters hletter alphabetic_dollar
  have hrow : (digits ++ rest).head? ≠ some '$' :=
    head_append_ne_dollar hdigits hdigit digit_dollar
  have hbehind : ∀ c ∈ (dollar rowAbsolute ++ (digits ++ rest)).head?,
      isAsciiAlphabetic c = false := dollar_digits_head hdigits hdigit
  have hend (c : Char) (hc : c ∈ rest.head?) : isAsciiDigit c = false := by
    cases h : isAsciiDigit c with
    | false => rfl
    | true => exact absurd (isFormulaIdentifier_of_digit h) (by simp [(hrest c hc).1])
  have htext : Reference.text ⟨columnAbsolute, letters, rowAbsolute, digits⟩ ++ rest =
      dollar columnAbsolute ++ (letters ++ (dollar rowAbsolute ++ (digits ++ rest))) := by
    simp [Reference.text]
  have hcloses : ¬ (digits = [] ∨ rest.head?.any isFormulaIdentifier = true ∨
      rest.head? = some '(' ∨ rest.head? = some '!') := by
    rintro (h | h | h | h)
    · exact hdigit h
    · cases hhead : rest.head? with
      | none => simp [hhead] at h
      | some c =>
        rw [hhead, Option.any_some, (hrest c hhead).1] at h
        cases h
    · exact (hrest _ h).2.1 rfl
    · exact (hrest _ h).2.2 rfl
  have hspells : ¬ (letters = [] ∨ 3 < letters.length) :=
    not_or.mpr ⟨hletter, Nat.not_lt.mpr hfew⟩
  rw [readReference, if_neg (by simp [hprevious]), htext]
  simp only [dollar_head_iff hcolumn, dollar_stripped, takeWhile_append_of hletters hbehind,
    dropWhile_append_of hletters hbehind, dollar_head_iff hrow, takeWhile_append_of hdigits hend,
    dropWhile_append_of hdigits hend, if_neg hspells, if_neg hcloses, Bool.decide_eq_true]

theorem dollar_append_stripped (text : Text) :
    dollar (decide (text.head? = some '$')) ++
      (if text.head? = some '$' then text.tail else text) = text := by
  by_cases h : text.head? = some '$'
  · obtain ⟨rest, rfl⟩ : ∃ rest, text = '$' :: rest := by
      cases text with
      | nil => cases h
      | cons c rest => exact ⟨rest, by rw [Option.some.inj h]⟩
    rfl
  · rw [if_neg h, decide_eq_false h]
    rfl

theorem readReference_some {previous : Option Char} {text rest : Text} {reference : Reference}
    (h : readReference previous text = some (reference, rest)) :
    previous.any isFormulaIdentifier = false ∧ reference.Spelled ∧ text = reference.text ++ rest ∧
      Closes rest := by
  unfold readReference at h
  split at h
  · cases h
  · rename_i hprevious
    dsimp only at h
    generalize hstripped : (if text.head? = some '$' then text.tail else text) = stripped at h
    split at h
    · cases h
    · rename_i hletters
      generalize hbehind : stripped.dropWhile isAsciiAlphabetic = behind at h
      generalize hnumber : (if behind.head? = some '$' then behind.tail else behind) = number at h
      split at h
      · cases h
      · rename_i hdigits
        obtain ⟨hreference, hrest⟩ := Prod.mk.inj (Option.some.inj h)
        subst hreference
        obtain ⟨hletter, hfew⟩ := not_or.mp hletters
        obtain ⟨hdigit, hcloses⟩ := not_or.mp hdigits
        refine ⟨by simpa using hprevious, ⟨List.all_takeWhile, hletter, Nat.not_lt.mp hfew,
          List.all_takeWhile, hdigit⟩, ?_, ?_⟩
        · calc text = dollar (decide (text.head? = some '$')) ++ stripped := by
                rw [← hstripped, dollar_append_stripped]
            _ = dollar (decide (text.head? = some '$')) ++
                (stripped.takeWhile isAsciiAlphabetic ++ behind) := by
                rw [← hbehind, List.takeWhile_append_dropWhile]
            _ = dollar (decide (text.head? = some '$')) ++
                (stripped.takeWhile isAsciiAlphabetic ++
                  (dollar (decide (behind.head? = some '$')) ++
                    (number.takeWhile isAsciiDigit ++ rest))) := by
                rw [← hrest, List.takeWhile_append_dropWhile, ← hnumber, dollar_append_stripped]
            _ = _ := by simp [Reference.text]
        · rw [← hrest]
          intro c hc
          simp only [not_or] at hcloses
          rw [hc] at hcloses
          refine ⟨by simpa using hcloses.1, ?_, ?_⟩
          · rintro rfl
            exact hcloses.2.1 rfl
          · rintro rfl
            exact hcloses.2.2 rfl

/-- **Reading.** Exactly what is spelled as a reference between two boundaries is read as one. -/
theorem readReference_eq_some_iff {previous : Option Char} {text rest : Text}
    {reference : Reference} :
    readReference previous text = some (reference, rest) ↔
      previous.any isFormulaIdentifier = false ∧ reference.Spelled ∧
        text = reference.text ++ rest ∧ Closes rest := by
  refine ⟨readReference_some, ?_⟩
  rintro ⟨hprevious, hspelled, rfl, hrest⟩
  exact readReference_of hprevious hspelled hrest

/-! ## The loop -/

theorem quotedToken_length (quote : Char) (text : Text) :
    (quotedToken quote text).2.length ≤ text.length := by
  fun_induction quotedToken quote text with
  | case1 => exact Nat.le_refl 0
  | case2 c => exact Nat.zero_le _
  | case3 c d rest hne token ih => exact Nat.le_succ_of_le ih
  | case4 c rest hne token ih => exact Nat.le_succ_of_le (Nat.le_succ_of_le ih)
  | case5 c d rest hne hclose => exact Nat.le_succ (rest.length + 1)

theorem doubled_cons_self (quote : Char) (body : Text) :
    doubled quote (quote :: body) = quote :: quote :: doubled quote body := by
  simp [doubled]

theorem doubled_cons_ne {quote c : Char} (h : c ≠ quote) (body : Text) :
    doubled quote (c :: body) = c :: doubled quote body := by
  simp [doubled, h]

theorem quotedToken_quoted {quote : Char} (body : Text) {rest : Text}
    (hrest : rest.head? ≠ some quote) :
    quotedToken quote (doubled quote body ++ quote :: rest) =
      (doubled quote body ++ [quote], rest) := by
  induction body with
  | nil =>
    cases rest with
    | nil => rfl
    | cons d rest =>
      have hd : d ≠ quote := fun h => hrest (congrArg some h)
      simp [doubled, quotedToken, hd]
  | cons c body ih =>
    by_cases hc : c = quote
    · subst hc
      rw [doubled_cons_self, List.cons_append, List.cons_append, quotedToken,
        if_neg (not_not_intro rfl), if_pos rfl, ih]
      rfl
    · rw [doubled_cons_ne hc, List.cons_append]
      obtain ⟨d, tail, htail⟩ := List.exists_cons_of_ne_nil
        (show doubled quote body ++ quote :: rest ≠ [] by simp)
      rw [htail] at ih ⊢
      rw [quotedToken, if_pos hc, ih]
      rfl

variable {rowDelta columnDelta : Int}

/-- Only a sign or a letter begins a reference. -/
theorem not_read {previous : Option Char} {c : Char} {text : Text}
    (hletter : isAsciiAlphabetic c = false) (hdollar : c ≠ '$') :
    readReference previous (c :: text) = none := by
  rw [readReference]
  split
  · rfl
  · simp [hdollar, hletter]

/-- The loop with as many turns as there are characters. -/
def scan (rowDelta columnDelta : Int) (previous : Option Char) (text : Text) : Text :=
  translateFrom rowDelta columnDelta text.length previous text

theorem translatedReferenceAt_some {previous last : Option Char} {text translated rest : Text}
    (h : translatedReferenceAt rowDelta columnDelta previous text =
      some (translated, rest, last)) :
    ∃ reference, readReference previous text = some (reference, rest) ∧
      reference.translate rowDelta columnDelta = some translated ∧
      last = reference.digits.getLast? := by
  rw [translatedReferenceAt] at h
  obtain ⟨⟨reference, rest'⟩, hread, h⟩ := Option.bind_eq_some_iff.mp h
  obtain ⟨translated', htranslate, h⟩ := Option.bind_eq_some_iff.mp h
  cases h
  exact ⟨reference, hread, htranslate, rfl⟩

theorem Reference.text_ne_nil {reference : Reference} (h : reference.Spelled) :
    reference.text ≠ [] := by
  have := h.some_digit
  simp [Reference.text, this]

theorem rest_length_lt {previous last : Option Char} {text translated rest : Text}
    (h : translatedReferenceAt rowDelta columnDelta previous text =
      some (translated, rest, last)) : rest.length < text.length := by
  obtain ⟨reference, hread, -, -⟩ := translatedReferenceAt_some h
  obtain ⟨-, hspelled, rfl, -⟩ := readReference_eq_some_iff.mp hread
  have := List.length_pos_iff.mpr (Reference.text_ne_nil hspelled)
  rw [List.length_append]
  omega

theorem translateFrom_of_length_le {fuel : Nat} {previous : Option Char} {text : Text}
    (h : text.length ≤ fuel) :
    translateFrom rowDelta columnDelta fuel previous text =
      scan rowDelta columnDelta previous text := by
  induction hn : text.length using Nat.strong_induction_on generalizing fuel previous text with
  | _ n ih =>
    cases text with
    | nil => cases fuel <;> rfl
    | cons c text =>
      rw [List.length_cons] at h hn
      obtain ⟨fuel, rfl⟩ := Nat.exists_eq_succ_of_ne_zero (Nat.ne_of_gt (Nat.lt_of_lt_of_le
        (Nat.succ_pos _) h))
      have step {previous : Option Char} {rest : Text} (hle : rest.length ≤ text.length) :
          translateFrom rowDelta columnDelta fuel previous rest =
            translateFrom rowDelta columnDelta text.length previous rest := by
        rw [ih rest.length (by omega) (by omega) rfl, ih rest.length (by omega) hle rfl]
      rw [scan, List.length_cons, translateFrom, translateFrom]
      split
      · dsimp only
        rw [step (quotedToken_length c text)]
      · cases hread : translatedReferenceAt rowDelta columnDelta previous (c :: text) with
        | none =>
          dsimp only
          rw [step (Nat.le_refl _)]
        | some found =>
          obtain ⟨translated, rest, last⟩ := found
          have := rest_length_lt hread
          rw [List.length_cons] at this
          dsimp only
          rw [step (by omega)]

/-! ## Turns of the loop -/

@[simp] theorem scan_nil (previous : Option Char) :
    scan rowDelta columnDelta previous [] = [] := rfl

theorem scan_quote {previous : Option Char} {c : Char} {text : Text} (h : isQuote c = true) :
    scan rowDelta columnDelta previous (c :: text) =
      c :: (quotedToken c text).1 ++ scan rowDelta columnDelta
        (some ((quotedToken c text).1.getLast?.getD c)) (quotedToken c text).2 := by
  have hc : c = '"' ∨ c = '\'' := by simpa [isQuote] using h
  rw [scan, List.length_cons, translateFrom, if_pos hc]
  dsimp only
  rw [translateFrom_of_length_le (quotedToken_length c text)]

theorem scan_read {previous last : Option Char} {c : Char} {text translated rest : Text}
    (h : translatedReferenceAt rowDelta columnDelta previous (c :: text) =
      some (translated, rest, last)) :
    scan rowDelta columnDelta previous (c :: text) =
      translated ++ scan rowDelta columnDelta last rest := by
  have hquote : ¬ (c = '"' ∨ c = '\'') := by
    intro hc
    obtain ⟨reference, hread, -, -⟩ := translatedReferenceAt_some h
    rcases hc with rfl | rfl
    · rw [not_read (by decide) (by decide)] at hread
      cases hread
    · rw [not_read (by decide) (by decide)] at hread
      cases hread
  have hlength := rest_length_lt h
  rw [List.length_cons] at hlength
  rw [scan, List.length_cons, translateFrom, if_neg hquote, h]
  dsimp only
  rw [translateFrom_of_length_le (by omega)]

theorem scan_copy {previous : Option Char} {c : Char} {text : Text} (hquote : isQuote c = false)
    (h : translatedReferenceAt rowDelta columnDelta previous (c :: text) = none) :
    scan rowDelta columnDelta previous (c :: text) =
      c :: scan rowDelta columnDelta (some c) text := by
  have hc : ¬ (c = '"' ∨ c = '\'') := by simpa [isQuote] using hquote
  rw [scan, List.length_cons, translateFrom, if_neg hc, h]
  rfl

end IntoMarkdown.Sheet
