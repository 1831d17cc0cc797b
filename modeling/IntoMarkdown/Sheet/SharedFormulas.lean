import IntoMarkdown.Sheet.Composed

/-! # Shared formulas in other cells

A shared formula is moved rightly, composes and stays where it is exactly where one pass over its
characters is enough. -/

namespace IntoMarkdown.Sheet
open Lib Strings

/-- The formula is moved as its tokens are, in one step or in two, and stays in its own cell. -/
structure TranslatesRight (formula : List Token) : Prop where
  shifts : ∀ anchor target, InGrid anchor → InGrid target →
    translateSharedFormula (render formula) anchor target =
      render (shiftedFormula anchor target formula)
  composes : ∀ a b c, InGrid a → InGrid b → InGrid c → Keeps a b formula → Keeps a c formula →
    translateSharedFormula (translateSharedFormula (render formula) a b) b c =
      translateSharedFormula (render formula) a c
  identity : ∀ a, InGrid a → translateSharedFormula (render formula) a a = render formula

/-- Nothing in brackets has a quote or a dollar sign. -/
def PlainBrackets (formula : List Token) : Prop :=
  ∀ body, Token.bracket body ∈ formula → body.any isQuote = false ∧ '$' ∉ body

section
variable {formula rest : List Token} {token : Token} {a b c anchor target : CellCoordinate}

/-! ## Right where it is clear -/

theorem Token.Clear.shifted_twice {next : Option Char} (hclear : token.Clear next)
    (ha : InGrid a) (hb : InGrid b) (hc : InGrid c) (hab : Keeps a b [token])
    (hac : Keeps a c [token]) :
    (token.shifted ((b.1 : Int) - a.1) ((b.2 : Int) - a.2)).shifted ((c.1 : Int) - b.1)
      ((c.2 : Int) - b.2) = token.shifted ((c.1 : Int) - a.1) ((c.2 : Int) - a.2) := by
  cases token with
  | cell reference =>
    obtain ⟨hletters, hdigits⟩ := hab reference List.mem_cons_self
    obtain ⟨letters, hletters⟩ := Option.isSome_iff_exists.mp hletters
    obtain ⟨digits, hdigits⟩ := Option.isSome_iff_exists.mp hdigits
    obtain ⟨hletters', hdigits'⟩ := hac reference List.mem_cons_self
    obtain ⟨letters', hletters'⟩ := Option.isSome_iff_exists.mp hletters'
    obtain ⟨digits', hdigits'⟩ := Option.isSome_iff_exists.mp hdigits'
    obtain ⟨hsameLetters, hsameDigits⟩ :=
      (Reference.Canonical.moved hclear hletters hdigits).2 ((c.1 : Int) - b.1) ((c.2 : Int) - b.2)
    have hcolumns : (b.2 : Int) - a.2 + ((c.2 : Int) - b.2) = (c.2 : Int) - a.2 := by omega
    have hrows : (b.1 : Int) - a.1 + ((c.1 : Int) - b.1) = (c.1 : Int) - a.1 := by omega
    rw [hcolumns, hletters'] at hsameLetters
    rw [hrows, hdigits'] at hsameDigits
    have htwice : (Token.cell { reference with letters, digits }).shifted ((c.1 : Int) - b.1)
        ((c.2 : Int) - b.2) = .cell { reference with letters := letters', digits := digits' } :=
      shifted_cell hsameLetters hsameDigits
    rw [shifted_cell hletters hdigits, shifted_cell hletters' hdigits', htwice]
  | columns first last => rw [hclear a b ha hb, hclear b c hb hc, hclear a c ha hc]
  | rows first last => rw [hclear a b ha hb, hclear b c hb hc, hclear a c ha hc]
  | _ => rfl

theorem shiftedFormula_twice (hclear : Clear formula) (ha : InGrid a) (hb : InGrid b)
    (hc : InGrid c) (hab : Keeps a b formula) (hac : Keeps a c formula) :
    shiftedFormula b c (shiftedFormula a b formula) = shiftedFormula a c formula := by
  induction formula with
  | nil => rfl
  | cons token rest ih =>
    have head {a b : CellCoordinate} (h : Keeps a b (token :: rest)) : Keeps a b [token] :=
      fun reference hmem => h reference (List.mem_singleton.mp hmem ▸ List.mem_cons_self)
    have tail {a b : CellCoordinate} (h : Keeps a b (token :: rest)) : Keeps a b rest :=
      fun reference hmem => h reference (List.mem_cons_of_mem _ hmem)
    exact congrArg₂ List.cons (hclear.1.shifted_twice ha hb hc (head hab) (head hac))
      (ih hclear.2 (tail hab) (tail hac))

theorem movedLetters_zero {letters : Text} (h : (parseColumn letters).isSome)
    (isAbsolute : Bool) : movedLetters isAbsolute 0 letters = some letters := by
  obtain ⟨column, hcolumn⟩ := Option.isSome_iff_exists.mp h
  simp [movedLetters, hcolumn, movedIndex_zero (parseColumn_lt hcolumn)]

theorem movedDigits_zero {digits : Text} (h : (parseRow digits).isSome) (isAbsolute : Bool) :
    movedDigits isAbsolute 0 digits = some digits := by
  obtain ⟨row, hrow⟩ := Option.isSome_iff_exists.mp h
  simp [movedDigits, hrow, movedIndex_zero (decimal_of_parseRow hrow).2]

theorem Token.shifted_zero (hwell : token.Well) : token.shifted 0 0 = token := by
  cases token with
  | cell reference =>
    rw [shifted_cell (movedLetters_zero hwell.column _) (movedDigits_zero hwell.row _)]
  | columns first last =>
    simp only [Token.shifted, movedLetters_zero hwell.1.2.2, movedLetters_zero hwell.2.2.2]
  | rows first last =>
    simp only [Token.shifted, movedDigits_zero hwell.1.2.2, movedDigits_zero hwell.2.2.2]
  | _ => rfl

theorem shiftedFormula_self (hformed : Formed formula) (a : CellCoordinate) :
    shiftedFormula a a formula = formula := by
  induction formula with
  | nil => rfl
  | cons token rest ih =>
    rw [shiftedFormula, Int.sub_self, Int.sub_self, List.map_cons, Token.shifted_zero hformed.1]
    have htail := ih hformed.2.2
    rw [shiftedFormula, Int.sub_self, Int.sub_self] at htail
    rw [htail]

theorem Clear.translatesRight (hclear : Clear formula) (hformed : Formed formula) :
    TranslatesRight formula where
  shifts anchor target hanchor htarget := translate_of_clear hanchor htarget hformed hclear
  composes a b c ha hb hc hab hac := by
    rw [translate_of_clear ha hb hformed hclear, translate_of_clear ha hc hformed hclear,
      translate_of_clear hb hc (formed_shifted hformed hclear ha hb)
        (clear_shifted hformed hclear ha hb), shiftedFormula_twice hclear ha hb hc hab hac]
  identity a ha := by
    rw [translate_of_clear ha ha hformed hclear, shiftedFormula_self hformed]

end

end IntoMarkdown.Sheet
