import IntoMarkdown.Sheet.Translation

/-! # Translated formulas

The one pass moves the references of a formula and copies the rest exactly where nothing else in
the formula reads as a reference that moves. -/

namespace IntoMarkdown.Sheet
open Lib Strings

/-! ## Neighbours -/

section
variable {token next : Token} {rest : List Token} {behind : Text} {c : Char}

theorem render_cons (token : Token) (rest : List Token) :
    render (token :: rest) = token.text ++ render rest := List.flatMap_cons

theorem isBreak_of_symbol (hword : isWordChar c = false) (hdollar : c ≠ '$') :
    isBreak c = true := by
  simp only [isWordChar, Bool.or_eq_false_iff] at hword
  simp [isBreak, hword.1.1.1, hdollar]

theorem isBreak_head (hwell : next.Well) (hwordy : next.wordy = false)
    (h : c ∈ (next.text ++ behind).head?) : isBreak c = true := by
  cases next with
  | literal body =>
    obtain rfl := Option.some.inj h
    decide
  | qualifier body =>
    obtain rfl := Option.some.inj h
    decide
  | bracket body =>
    obtain rfl := Option.some.inj h
    decide
  | symbol d =>
    obtain rfl := Option.some.inj h
    exact isBreak_of_symbol hwell.1 hwell.2.2.1
  | cell reference => cases hwordy
  | columns first last => cases hwordy
  | rows first last => cases hwordy
  | word text => cases hwordy

theorem isQuote_false_of_mem_edges {first last : Edge} {p : Char → Bool}
    (hquote : ∀ c, p c = true → isQuote c = false) (hfirst : first.spelling.all p = true)
    (hlast : last.spelling.all p = true) (h : c ∈ first.text ++ ':' :: last.text) :
    isQuote c = false := by
  rcases mem_edges hfirst hlast h with rfl | rfl | h
  · decide
  · decide
  · exact hquote c h

theorem isQuote_false_of_wordy (hwell : token.Well) (hwordy : token.wordy = true)
    (h : c ∈ token.text) : isQuote c = false := by
  cases token with
  | cell reference => exact isQuote_false_of_mem_text hwell.toSpelled h
  | columns first last =>
    exact isQuote_false_of_mem_edges (fun c => isQuote_false_of_alphabetic) hwell.1.1 hwell.2.1 h
  | rows first last =>
    exact isQuote_false_of_mem_edges (fun c => isQuote_false_of_digit) hwell.1.1 hwell.2.1 h
  | word text => exact isQuote_false_of_word (List.all_eq_true.mp hwell.2 c h)
  | literal body => cases hwordy
  | qualifier body => cases hwordy
  | bracket body => cases hwordy
  | symbol d => cases hwordy

theorem Token.text_ne_nil (hwell : token.Well) : token.text ≠ [] := by
  cases token with
  | literal body => exact List.cons_ne_nil _ _
  | qualifier body => exact List.cons_ne_nil _ _
  | cell reference => exact Reference.text_ne_nil hwell.toSpelled
  | columns first last => simp [Token.text]
  | rows first last => simp [Token.text]
  | word text => exact hwell.1
  | bracket body => exact List.cons_ne_nil _ _
  | symbol d => exact List.cons_ne_nil _ _

theorem head_mem (hwell : next.Well) (h : c ∈ (next.text ++ behind).head?) : c ∈ next.text := by
  obtain ⟨d, text, htext⟩ := List.exists_cons_of_ne_nil (Token.text_ne_nil hwell)
  rw [htext] at h ⊢
  obtain rfl : d = c := Option.some.inj h
  exact List.mem_cons_self

/-- Only text in quotes begins with a quote. -/
theorem head_quote (hwell : next.Well) (h : c ∈ (next.text ++ behind).head?)
    (hquote : isQuote c = true) :
    (∃ body, next = .literal body ∧ c = '"') ∨ ∃ body, next = .qualifier body ∧ c = '\'' := by
  have wordy (hwordy : next.wordy = true) : False := by
    rw [isQuote_false_of_wordy hwell hwordy (head_mem hwell h)] at hquote
    cases hquote
  cases next with
  | literal body => exact Or.inl ⟨body, rfl, (Option.some.inj h).symm⟩
  | qualifier body => exact Or.inr ⟨body, rfl, (Option.some.inj h).symm⟩
  | bracket body =>
    obtain rfl := Option.some.inj h
    exact absurd hquote (by decide)
  | symbol d =>
    obtain rfl := Option.some.inj h
    rw [hwell.2.1] at hquote
    cases hquote
  | cell reference => exact (wordy rfl).elim
  | columns first last => exact (wordy rfl).elim
  | rows first last => exact (wordy rfl).elim
  | word text => exact (wordy rfl).elim

/-- What stands behind a token of a formula. -/
theorem Formed.follower (h : Formed (token :: rest)) (hc : c ∈ (render rest).head?) :
    ∃ next rest', rest = next :: rest' ∧ next.Well ∧ token.Fits next ∧
      c ∈ (next.text ++ render rest').head? := by
  cases rest with
  | nil => cases hc
  | cons next rest' => exact ⟨next, rest', rfl, h.2.2.1, h.2.1 next rfl, hc⟩

theorem Formed.isBreak_behind (h : Formed (token :: rest)) (hwordy : token.wordy = true) :
    ∀ c ∈ (render rest).head?, isBreak c = true := by
  intro c hc
  obtain ⟨next, rest', rfl, hwell, hfits, hhead⟩ := h.follower hc
  exact isBreak_head hwell (hfits.1 hwordy) hhead

theorem Formed.closes {reference : Reference} (h : Formed (.cell reference :: rest)) :
    Closes (render rest) := by
  intro c hc
  have hbreak := h.isBreak_behind rfl c hc
  obtain ⟨next, rest', rfl, hwell, hfits, hhead⟩ := h.follower hc
  have hidentifier : isFormulaIdentifier c = false := by
    simp only [isBreak, Bool.and_eq_true, Bool.not_eq_true'] at hbreak
    exact hbreak.1
  refine ⟨hidentifier, ?_⟩
  have hnext := hfits.1 rfl
  cases next with
  | literal body =>
    obtain rfl := Option.some.inj hhead
    decide
  | qualifier body =>
    obtain rfl := Option.some.inj hhead
    decide
  | bracket body =>
    obtain rfl := Option.some.inj hhead
    decide
  | symbol d =>
    obtain rfl := Option.some.inj hhead
    exact hfits.2
  | cell reference => cases hnext
  | columns first last => cases hnext
  | rows first last => cases hnext
  | word text => cases hnext

theorem Formed.not_quoted {quote : Char} (h : Formed (token :: rest)) (hquote : isQuote quote = true)
    (htoken : (∃ body, token = .literal body ∧ quote = '"') ∨
      ∃ body, token = .qualifier body ∧ quote = '\'') : (render rest).head? ≠ some quote := by
  intro hc
  obtain ⟨next, rest', rfl, hwell, hfits, hhead⟩ := h.follower hc
  rcases htoken with ⟨body, rfl, rfl⟩ | ⟨body, rfl, rfl⟩
  · rcases head_quote hwell hhead hquote with ⟨body', rfl, -⟩ | ⟨body', rfl, hne⟩
    · exact hfits.2
    · exact absurd hne (by decide)
  · rcases head_quote hwell hhead hquote with ⟨body', rfl, hne⟩ | ⟨body', rfl, -⟩
    · exact absurd hne (by decide)
    · exact hfits.2

/-- A token that is no word ends in a boundary. -/
theorem last_not_identifier {previous : Option Char} (hwell : token.Well)
    (hwordy : token.wordy = false) :
    (lastOf previous token.text).any isFormulaIdentifier = false := by
  cases token with
  | literal body =>
    rw [Token.text, quoted, lastOf_concat]
    decide
  | qualifier body =>
    rw [Token.text, quoted, lastOf_concat]
    decide
  | bracket body =>
    rw [Token.text, lastOf_concat]
    decide
  | symbol d =>
    have hword := hwell.1
    simp only [isWordChar, Bool.or_eq_false_iff] at hword
    exact hword.1.1.1
  | cell reference => cases hwordy
  | columns first last => cases hwordy
  | rows first last => cases hwordy
  | word text => cases hwordy

end

/-! ## Formulas -/

section
variable {anchor target : CellCoordinate} {previous : Option Char} {formula : List Token}

/-- **Token.** What the pass makes of a clear token. -/
theorem scan_token {token : Token} {rest : List Token} (hanchor : InGrid anchor)
    (htarget : InGrid target) (hformed : Formed (token :: rest))
    (hclear : token.Clear (render rest).head?)
    (hprevious : token.wordy = true → previous.any isFormulaIdentifier = false) :
    scan ((target.1 : Int) - anchor.1) ((target.2 : Int) - anchor.2) previous
        (token.text ++ render rest) =
      (token.shifted ((target.1 : Int) - anchor.1) ((target.2 : Int) - anchor.2)).text ++
        scan ((target.1 : Int) - anchor.1) ((target.2 : Int) - anchor.2)
          (lastOf previous token.text) (render rest) := by
  cases token with
  | literal body =>
    exact scan_quoted (by decide) body (hformed.not_quoted (by decide) (Or.inl ⟨body, rfl, rfl⟩))
  | qualifier body =>
    exact scan_quoted (by decide) body (hformed.not_quoted (by decide) (Or.inr ⟨body, rfl, rfl⟩))
  | cell reference =>
    exact scan_cell hclear (hprevious rfl) hformed.closes
  | columns first last =>
    rw [hclear anchor target hanchor htarget]
    exact scan_columns hformed.1.1 hformed.1.2 (hformed.isBreak_behind rfl)
  | rows first last =>
    rw [hclear anchor target hanchor htarget]
    exact scan_rows hformed.1.1 hformed.1.2 (hformed.isBreak_behind rfl)
  | word text =>
    refine scan_still ?_
      (still_of_quiet hanchor htarget (hformed.isBreak_behind rfl) hclear)
    rw [List.any_eq_false]
    intro c hc
    simp [isQuote_false_of_word (List.all_eq_true.mp hformed.1.2 c hc)]
  | bracket body => exact scan_bracket hanchor htarget hclear.1 hclear.2
  | symbol c =>
    obtain ⟨hword, hquote, hdollar, -⟩ := hformed.1
    have hletter : isAsciiAlphabetic c = false := by
      cases hletter : isAsciiAlphabetic c with
      | false => rfl
      | true =>
        rw [isWordChar, isFormulaIdentifier_of_alphabetic hletter] at hword
        cases hword
    refine scan_copy hquote ?_
    rw [translatedReferenceAt, not_read hletter hdollar]
    rfl

/-- **Formula.** -/
theorem scan_render (hanchor : InGrid anchor) (htarget : InGrid target) (hformed : Formed formula)
    (hclear : Clear formula)
    (hprevious : ∀ token ∈ formula.head?, token.wordy = true →
      previous.any isFormulaIdentifier = false) :
    scan ((target.1 : Int) - anchor.1) ((target.2 : Int) - anchor.2) previous (render formula) =
      render (shiftedFormula anchor target formula) := by
  induction formula generalizing previous with
  | nil => rfl
  | cons token rest ih =>
    have hrest := @ih (lastOf previous token.text) hformed.2.2 hclear.2 ?_
    · rw [render_cons, scan_token hanchor htarget hformed hclear.1 (hprevious token rfl), hrest]
      rfl
    · intro next hnext hwordy
      refine last_not_identifier hformed.1 ?_
      cases htoken : token.wordy with
      | false => rfl
      | true =>
        rw [(hformed.2.1 next hnext).1 htoken] at hwordy
        cases hwordy

theorem translateSharedFormula_eq_scan (text : Text) (anchor target : CellCoordinate) :
    translateSharedFormula text anchor target =
      scan ((target.1 : Int) - anchor.1) ((target.2 : Int) - anchor.2) none text := rfl

theorem translate_of_clear (hanchor : InGrid anchor) (htarget : InGrid target)
    (hformed : Formed formula) (hclear : Clear formula) :
    translateSharedFormula (render formula) anchor target =
      render (shiftedFormula anchor target formula) := by
  rw [translateSharedFormula_eq_scan]
  exact scan_render hanchor htarget hformed hclear fun _ _ _ => rfl

end

end IntoMarkdown.Sheet
