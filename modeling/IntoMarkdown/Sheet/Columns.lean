import IntoMarkdown.Sheet.Formulas

/-! # Columns and rows in letters and digits

What a column or a row is written as reads back as itself. -/

namespace IntoMarkdown.Sheet
open Lib Strings

/-! ## Digits -/

theorem natText_eq (n : Nat) : natText n = Nat.toDigits 10 n := Nat.toList_repr

theorem isAsciiDigit_of_isDigit {c : Char} (h : c.isDigit = true) : isAsciiDigit c = true := by
  obtain ⟨hlow, hhigh⟩ := Bool.and_eq_true_iff.mp h
  exact Bool.and_eq_true_iff.mpr
    ⟨decide_eq_true (of_decide_eq_true hlow), decide_eq_true (of_decide_eq_true hhigh)⟩

theorem isAsciiDigit_of_mem_natText {n : Nat} {c : Char} (h : c ∈ natText n) :
    isAsciiDigit c = true := by
  rw [natText_eq] at h
  exact isAsciiDigit_of_isDigit (Nat.isDigit_of_mem_toDigits (by decide) (by decide) h)

theorem natText_ne_nil (n : Nat) : natText n ≠ [] := by
  rw [natText_eq]
  exact Nat.toDigits_ne_nil

theorem decimal_natText (n : Nat) : decimal (natText n) = some n := by
  have hall : (natText n).all isAsciiDigit = true :=
    List.all_eq_true.mpr fun c hc => isAsciiDigit_of_mem_natText hc
  rw [decimal, if_pos ⟨natText_ne_nil n, hall⟩, natText_eq]
  have hfold (text : Text) (total : Nat) :
      text.foldl (fun total c => total * 10 + (c.toNat - 48)) total =
        Nat.ofDigitChars 10 text total := by
    induction text generalizing total with
    | nil => rfl
    | cons c text ih =>
      rw [List.foldl_cons, ih, Nat.ofDigitChars_cons, Nat.mul_comm]
      rfl
  rw [hfold, Nat.ofDigitChars_ten_toDigits]

/-! ## Letters -/

theorem columnLetter_facts : ∀ n : Fin 26, letterValue (columnLetter n) = n + 1 ∧
    isAsciiAlphabetic (columnLetter n) = true := by decide

/-- How many columns so many letters spell. -/
def columnRoom : Nat → Nat
  | 0 => 0
  | room + 1 => 26 * (columnRoom room + 1)

theorem spelled_columnLetters {room column : Nat} (h : column < columnRoom room) :
    (columnLetters room column).foldl (fun value c => value * 26 + letterValue c) 0 =
      column + 1 := by
  induction room generalizing column with
  | zero => exact absurd h (Nat.not_lt_zero _)
  | succ room ih =>
    have hlast := (columnLetter_facts ⟨column % 26, Nat.mod_lt _ (by decide)⟩).1
    dsimp only at hlast
    rw [columnLetters]
    split
    · rename_i hsmall
      rw [List.foldl_cons, List.foldl_nil, hlast, Nat.mod_eq_of_lt hsmall]
      omega
    · rw [List.foldl_append, ih (by rw [columnRoom] at h; omega), List.foldl_cons, List.foldl_nil,
        hlast]
      omega

theorem isAsciiAlphabetic_of_mem_columnLetters {room column : Nat} {c : Char}
    (h : c ∈ columnLetters room column) : isAsciiAlphabetic c = true := by
  induction room generalizing column with
  | zero => cases h
  | succ room ih =>
    have hlast := (columnLetter_facts ⟨column % 26, Nat.mod_lt _ (by decide)⟩).2
    rw [columnLetters] at h
    split at h
    · exact List.mem_singleton.mp h ▸ hlast
    · rcases List.mem_append.mp h with h | h
      · exact ih h
      · exact List.mem_singleton.mp h ▸ hlast

theorem length_columnLetters_le (room column : Nat) :
    (columnLetters room column).length ≤ room := by
  induction room generalizing column with
  | zero => exact Nat.le_refl 0
  | succ room ih =>
    rw [columnLetters]
    split
    · exact Nat.succ_le_succ (Nat.zero_le _)
    · rw [List.length_append]
      exact Nat.succ_le_succ (ih _)

theorem columnName_ne_nil (column : Nat) : columnName column ≠ [] := by
  rw [columnName, columnLetters]
  split
  · exact List.cons_ne_nil _ _
  · exact List.append_ne_nil_of_right_ne_nil _ (List.cons_ne_nil _ _)

theorem parseColumn_lt {letters : Text} {column : Nat} (h : parseColumn letters = some column) :
    column < maxExcelColumns := by
  unfold parseColumn at h
  dsimp only at h
  split at h
  · cases h
  · obtain ⟨hlt, h⟩ := Option.ite_none_right_eq_some.mp h
    exact Option.some.inj h ▸ hlt

theorem parseColumn_columnName {column : Nat} (h : column < maxExcelColumns) :
    parseColumn (columnName column) = some column := by
  have hroom : column < columnRoom 3 := Nat.lt_trans h (by decide)
  simp only [parseColumn, columnName, spelled_columnLetters hroom]
  rw [if_neg (Nat.succ_ne_zero column), Nat.add_sub_cancel, if_pos h]

end IntoMarkdown.Sheet
