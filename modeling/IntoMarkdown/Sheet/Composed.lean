import IntoMarkdown.Sheet.Translated

/-! # Formulas moved twice

A formula that is moved stays a clear formula, so it can be moved again. -/

namespace IntoMarkdown.Sheet
open Lib Strings

/-- Every reference of the formula is still on the grid in the other cell. -/
def Keeps (anchor target : CellCoordinate) (formula : List Token) : Prop :=
  ∀ reference, Token.cell reference ∈ formula →
    (movedLetters reference.columnAbsolute ((target.2 : Int) - anchor.2)
      reference.letters).isSome ∧
    (movedDigits reference.rowAbsolute ((target.1 : Int) - anchor.1) reference.digits).isSome

section
variable {rowDelta columnDelta : Int} {reference : Reference} {token : Token}
  {rest formula : List Token} {anchor target : CellCoordinate}

/-! ## Parts of references -/

theorem decimal_of_parseRow {digits : Text} {row : Nat} (h : parseRow digits = some row) :
    decimal digits = some (row + 1) ∧ row < maxExcelRows := by
  unfold parseRow at h
  split at h
  · rename_i n hdecimal
    obtain ⟨hlt, h⟩ := Option.ite_none_right_eq_some.mp h
    obtain rfl := Option.some.inj h
    exact ⟨hdecimal, hlt⟩
  · cases h

theorem movedIndex_eq_some_iff {bound index moved : Nat} {isAbsolute : Bool} {delta : Int} :
    movedIndex bound isAbsolute delta index = some moved ↔
      moved < bound ∧ (moved : Int) = if isAbsolute = true then (index : Int) else index + delta := by
  unfold movedIndex
  generalize (if isAbsolute = true then (index : Int) else index + delta) = place
  by_cases h : 0 ≤ place ∧ place < bound
  · rw [if_pos h, Option.some.injEq]
    omega
  · rw [if_neg h]
    refine iff_of_false (by simp) fun hmoved => h ?_
    omega

theorem movedIndex_lt {bound index moved : Nat} {isAbsolute : Bool} {delta : Int}
    (h : movedIndex bound isAbsolute delta index = some moved) : moved < bound :=
  (movedIndex_eq_some_iff.mp h).1

theorem movedIndex_zero {bound index : Nat} (h : index < bound) (isAbsolute : Bool) :
    movedIndex bound isAbsolute 0 index = some index :=
  movedIndex_eq_some_iff.mpr ⟨h, by split <;> omega⟩

theorem movedIndex_trans {bound index middle : Nat} {isAbsolute : Bool} {delta : Int}
    (h : movedIndex bound isAbsolute delta index = some middle) (delta' : Int) :
    movedIndex bound isAbsolute delta' middle =
      movedIndex bound isAbsolute (delta + delta') index := by
  obtain ⟨-, hmiddle⟩ := movedIndex_eq_some_iff.mp h
  refine Option.ext fun moved => ?_
  rw [movedIndex_eq_some_iff, movedIndex_eq_some_iff]
  cases isAbsolute with
  | true =>
    simp only [if_true] at hmiddle ⊢
    rw [hmiddle]
  | false =>
    simp only [Bool.false_eq_true, if_false] at hmiddle ⊢
    rw [hmiddle, add_assoc]

/-! ## References -/

namespace Reference.Canonical

theorem onGrid (h : reference.Canonical) : reference.OnGrid := by
  have hspelled := h.spelled
  obtain ⟨column, row, hcolumn, hrow, hletters, hdigits⟩ := h
  exact { hspelled with
    column := by rw [hletters, parseColumn_columnName hcolumn]; rfl
    row := by rw [hdigits, parseRow_natText hrow]; rfl }

/-- What a reference is moved to is canonical, and can be moved on. -/
theorem moved (h : reference.Canonical) {letters digits : Text}
    (hletters : movedLetters reference.columnAbsolute columnDelta reference.letters = some letters)
    (hdigits : movedDigits reference.rowAbsolute rowDelta reference.digits = some digits) :
    Reference.Canonical { reference with letters, digits } ∧
      ∀ rowDelta' columnDelta',
        movedLetters reference.columnAbsolute columnDelta' letters =
          movedLetters reference.columnAbsolute (columnDelta + columnDelta') reference.letters ∧
        movedDigits reference.rowAbsolute rowDelta' digits =
          movedDigits reference.rowAbsolute (rowDelta + rowDelta') reference.digits := by
  obtain ⟨column, row, hcolumn, hrow, hcolumnText, hrowText⟩ := h
  rw [hcolumnText, movedLetters_columnName hcolumn] at hletters
  rw [hrowText, movedDigits_natText hrow] at hdigits
  obtain ⟨column', hcolumn', rfl⟩ := Option.map_eq_some_iff.mp hletters
  obtain ⟨row', hrow', rfl⟩ := Option.map_eq_some_iff.mp hdigits
  refine ⟨⟨column', row', movedIndex_lt hcolumn', movedIndex_lt hrow', rfl, rfl⟩,
    fun rowDelta' columnDelta' => ⟨?_, ?_⟩⟩
  · rw [hcolumnText, movedLetters_columnName (movedIndex_lt hcolumn'),
      movedLetters_columnName hcolumn, movedIndex_trans hcolumn']
  · rw [hrowText, movedDigits_natText (movedIndex_lt hrow'), movedDigits_natText hrow,
      movedIndex_trans hrow']

end Reference.Canonical

/-! ## Tokens -/

theorem shifted_cell {letters digits : Text}
    (hletters : movedLetters reference.columnAbsolute columnDelta reference.letters = some letters)
    (hdigits : movedDigits reference.rowAbsolute rowDelta reference.digits = some digits) :
    (Token.cell reference).shifted rowDelta columnDelta =
      .cell { reference with letters, digits } := by
  simp only [Token.shifted, hletters, hdigits]

theorem shifted_of_not_wordy (h : token.wordy = false) :
    token.shifted rowDelta columnDelta = token := by
  cases token with
  | cell reference => cases h
  | columns first last => cases h
  | rows first last => cases h
  | word text => cases h
  | _ => rfl

/-- In a clear formula only cells move, and they stay canonical. -/
theorem Token.Clear.shifted {next : Option Char} (h : token.Clear next) (hanchor : InGrid anchor)
    (htarget : InGrid target) :
    token.shifted ((target.1 : Int) - anchor.1) ((target.2 : Int) - anchor.2) = token ∨
      ∃ reference reference', token = .cell reference ∧ reference'.Canonical ∧
        token.shifted ((target.1 : Int) - anchor.1) ((target.2 : Int) - anchor.2) =
          .cell reference' := by
  cases token with
  | cell reference =>
    cases hletters : movedLetters reference.columnAbsolute ((target.2 : Int) - anchor.2)
      reference.letters with
    | none => exact Or.inl (by simp only [Token.shifted, hletters])
    | some letters =>
      cases hdigits : movedDigits reference.rowAbsolute ((target.1 : Int) - anchor.1)
        reference.digits with
      | none => exact Or.inl (by simp only [Token.shifted, hletters, hdigits])
      | some digits =>
        exact Or.inr ⟨reference, _, rfl, (Reference.Canonical.moved h hletters hdigits).1,
          shifted_cell hletters hdigits⟩
  | columns first last => exact Or.inl (h anchor target hanchor htarget)
  | rows first last => exact Or.inl (h anchor target hanchor htarget)
  | _ => exact Or.inl rfl

theorem Token.Fits.shifted {next : Token} {behind behind' : Option Char} (h : token.Fits next)
    (hclear : token.Clear behind) (hclear' : next.Clear behind') (hanchor : InGrid anchor)
    (htarget : InGrid target) :
    (token.shifted ((target.1 : Int) - anchor.1) ((target.2 : Int) - anchor.2)).Fits
      (next.shifted ((target.1 : Int) - anchor.1) ((target.2 : Int) - anchor.2)) := by
  rcases hclear.shifted hanchor htarget with h₁ | ⟨reference, reference', rfl, -, h₁⟩
  · rw [h₁]
    rcases hclear'.shifted hanchor htarget with h₂ | ⟨next, next', rfl, -, h₂⟩
    · rwa [h₂]
    · rw [h₂]
      refine ⟨h.1, ?_⟩
      cases token <;> trivial
  · have hnext := h.1 rfl
    rw [h₁, shifted_of_not_wordy hnext]
    refine ⟨fun _ => hnext, ?_⟩
    cases next with
    | symbol c => exact h.2
    | _ => trivial

/-! ## Formulas -/

theorem Token.Clear.well_shifted {next : Option Char} (h : token.Clear next) (hwell : token.Well)
    (hanchor : InGrid anchor) (htarget : InGrid target) :
    (token.shifted ((target.1 : Int) - anchor.1) ((target.2 : Int) - anchor.2)).Well := by
  rcases h.shifted hanchor htarget with h | ⟨reference, reference', rfl, hcanonical, h⟩
  · rwa [h]
  · rw [h]
    exact hcanonical.onGrid

theorem formed_shifted (hformed : Formed formula) (hclear : Clear formula)
    (hanchor : InGrid anchor) (htarget : InGrid target) :
    Formed (shiftedFormula anchor target formula) := by
  induction formula with
  | nil => trivial
  | cons token rest ih =>
    refine ⟨hclear.1.well_shifted hformed.1 hanchor htarget, ?_, ih hformed.2.2 hclear.2⟩
    cases rest with
    | nil => exact fun next hnext => by cases hnext
    | cons next rest =>
      intro next' hnext'
      obtain rfl := Option.some.inj hnext'
      exact (hformed.2.1 next rfl).shifted hclear.1 hclear.2.1 hanchor htarget

/-- The character behind a word is the same in every cell. -/
theorem head_shifted (hformed : Formed (token :: rest)) (hwordy : token.wordy = true) :
    (render (shiftedFormula anchor target rest)).head? = (render rest).head? := by
  cases rest with
  | nil => rfl
  | cons next rest =>
    have hnext := (hformed.2.1 next rfl).1 hwordy
    obtain ⟨c, text, htext⟩ := List.exists_cons_of_ne_nil (Token.text_ne_nil hformed.2.2.1)
    rw [shiftedFormula, List.map_cons, shifted_of_not_wordy hnext, render_cons, render_cons, htext]
    rfl

theorem clear_shifted (hformed : Formed formula) (hclear : Clear formula)
    (hanchor : InGrid anchor) (htarget : InGrid target) :
    Clear (shiftedFormula anchor target formula) := by
  induction formula with
  | nil => trivial
  | cons token rest ih =>
    refine ⟨?_, ih hformed.2.2 hclear.2⟩
    rcases hclear.1.shifted hanchor htarget with h | ⟨reference, reference', rfl, hcanonical, h⟩
    · rw [h]
      have htoken := hclear.1
      cases token with
      | word text =>
        show Quiet text (render (shiftedFormula anchor target rest)).head?
        rw [head_shifted hformed rfl]
        exact htoken
      | _ => exact htoken
    · rw [h]
      exact hcanonical

end

end IntoMarkdown.Sheet
