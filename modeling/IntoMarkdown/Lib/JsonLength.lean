import IntoMarkdown.Lib.JsonCut

/-! # How long a written value is

Bounds for the bytes of a printed value from those of its parts. A string of plain
characters is printed with its two quotes and nothing else. -/

namespace IntoMarkdown.Lib.Json

/-- The bytes of a text. -/
def bytesOf (text : List Char) : Nat := (Utf8.encode text).length

@[simp] theorem bytesOf_nil : bytesOf [] = 0 := rfl

@[simp] theorem bytesOf_cons (c : Char) (text : List Char) :
    bytesOf (c :: text) = c.utf8Size + bytesOf text := by
  simp [bytesOf, Utf8.encode]

@[simp] theorem bytesOf_append (a b : List Char) : bytesOf (a ++ b) = bytesOf a + bytesOf b := by
  rw [bytesOf, Utf8.encode_append, List.length_append]
  rfl

theorem utf8ByteSize_eq (s : String) : s.utf8ByteSize = bytesOf s.toList := by
  have h : (Utf8.encode s.toList).toByteArray = s.toByteArray := by
    rw [Utf8.toByteArray_encode, String.utf8Encode_toList]
  have hsize := congrArg ByteArray.size h
  rw [List.size_toByteArray] at hsize
  exact hsize.symm

theorem length_le_bytesOf (text : List Char) : text.length ≤ bytesOf text := by
  induction text with
  | nil => exact Nat.le_refl 0
  | cons c text ih =>
    have hc := c.utf8Size_pos
    rw [List.length_cons, bytesOf_cons]
    omega

/-- Printed as it is, in one byte. -/
def IsPlainAscii (c : Char) : Prop := 32 ≤ c.toNat ∧ c.toNat < 128 ∧ c ≠ '"' ∧ c ≠ '\\'

theorem utf8Size_ascii {c : Char} (h : c.toNat < 128) : c.utf8Size = 1 := by
  have hval : c.val ≤ 127 := by
    rw [UInt32.le_iff_toNat_le]
    exact Nat.lt_succ_iff.mp h
  rw [Char.utf8Size]
  exact if_pos hval

theorem escape_plain {c : Char} (h : IsPlainAscii c) : escape c = [c] := by
  rcases escape_cases c with ⟨he, -⟩ | ⟨e, he, -, hs⟩ | ⟨-, hc⟩
  · exact he
  · obtain ⟨h32, h128, hq, hb⟩ := h
    have hne {n : Nat} (hn : n < 32) : c ≠ Char.ofNat n := by
      rintro rfl
      interval_cases n <;> exact absurd h32 (by decide)
    unfold escape at he ⊢
    rw [if_neg hq, if_neg hb] at he ⊢
    rw [if_neg (hne (show 10 < 32 by decide)), if_neg (hne (show 13 < 32 by decide)),
      if_neg (hne (show 9 < 32 by decide)), if_neg (by omega), if_neg (by omega), if_neg (by omega)]
  · exact absurd h.1 (by omega)

theorem bytesOf_printString {s : String} (h : ∀ c ∈ s.toList, IsPlainAscii c) :
    bytesOf (printString s) = s.toList.length + 2 := by
  have hchars : ∀ text : List Char, (∀ c ∈ text, IsPlainAscii c) →
      bytesOf (printChars text) = text.length + 1 := by
    intro text
    induction text with
    | nil =>
      intro _
      rfl
    | cons c text ih =>
      intro hall
      obtain ⟨hc, hrest⟩ := List.forall_mem_cons.mp hall
      have hsplit : printChars (c :: text) = escape c ++ printChars text := by
        simp [printChars]
      rw [hsplit, escape_plain hc, bytesOf_append, ih hrest, bytesOf_cons, utf8Size_ascii hc.2.1,
        bytesOf_nil, List.length_cons]
      omega
  rw [printString, bytesOf_cons, hchars _ h, show '"'.utf8Size = 1 from rfl]
  omega

variable {ν : Type} (N : Numerals ν ν)

theorem bytesOf_printItems_le (first : Bool) (items : List (Value ν)) :
    bytesOf (printItems N first items) ≤
      (items.map fun v => 1 + bytesOf (print N v)).sum + 1 := by
  induction items generalizing first with
  | nil => exact Nat.le_refl 1
  | cons v rest ih =>
    have hrest := ih false
    cases first <;>
      simp only [printItems, bytesOf_append, List.map_cons, List.sum_cons, bytesOf_cons,
        bytesOf_nil, if_true, Bool.false_eq_true, if_false, show ','.utf8Size = 1 from rfl] <;>
      omega

theorem bytesOf_printEntries_le (first : Bool) (entries : List (String × Value ν)) :
    bytesOf (printEntries N first entries) ≤
      (entries.map fun e => 2 + bytesOf (printString e.1) + bytesOf (print N e.2)).sum + 1 := by
  induction entries generalizing first with
  | nil => exact Nat.le_refl 1
  | cons e rest ih =>
    obtain ⟨key, v⟩ := e
    have hrest := ih false
    cases first <;>
      simp only [printEntries, bytesOf_append, List.map_cons, List.sum_cons, bytesOf_cons,
        bytesOf_nil, if_true, Bool.false_eq_true, if_false, show ','.utf8Size = 1 from rfl,
        show ':'.utf8Size = 1 from rfl] <;>
      omega

theorem bytesOf_array_le (items : List (Value ν)) :
    bytesOf (print N (.array items)) ≤ (items.map fun v => 1 + bytesOf (print N v)).sum + 2 := by
  have h := bytesOf_printItems_le N true items
  rw [print, bytesOf_cons, show '['.utf8Size = 1 from rfl]
  omega

theorem bytesOf_object_le (entries : List (String × Value ν)) :
    bytesOf (print N (.object entries)) ≤
      (entries.map fun e => 2 + bytesOf (printString e.1) + bytesOf (print N e.2)).sum + 2 := by
  have h := bytesOf_printEntries_le N true entries
  rw [print, bytesOf_cons, show '\x7b'.utf8Size = 1 from rfl]
  omega

theorem bytesOf_member_le {entries : List (String × Value ν)} {e : String × Value ν}
    (h : e ∈ entries) : bytesOf (print N e.2) ≤ bytesOf (print N (.object entries)) := by
  have hentries : ∀ first, bytesOf (print N e.2) ≤ bytesOf (printEntries N first entries) := by
    induction entries with
    | nil => cases h
    | cons d rest ih =>
      intro first
      obtain ⟨key, v⟩ := d
      rw [printEntries]
      simp only [bytesOf_append, bytesOf_cons]
      rcases List.mem_cons.mp h with rfl | h
      · dsimp only
        omega
      · have hrest := ih h false
        omega
  have h := hentries true
  rw [print, bytesOf_cons]
  omega

theorem bytesOf_object_pos (entries : List (String × Value ν)) :
    0 < bytesOf (print N (.object entries)) := by
  rw [print, bytesOf_cons, show '\x7b'.utf8Size = 1 from rfl]
  omega

theorem bytesOf_digits_le {n k : Nat} (hk : 0 < k) (h : n < 10 ^ k) :
    bytesOf (decimal.print n) ≤ k := by
  have hascii : ∀ text : List Char, (∀ c ∈ text, c.isDigit = true) → bytesOf text = text.length := by
    intro text
    induction text with
    | nil =>
      intro _
      rfl
    | cons c text ih =>
      intro hall
      obtain ⟨hc, hrest⟩ := List.forall_mem_cons.mp hall
      have hsmall : c.toNat < 128 := by
        simp only [Char.isDigit, Bool.and_eq_true, decide_eq_true_eq] at hc
        exact lt_of_le_of_lt (UInt32.le_iff_toNat_le.mp hc.2) (by decide)
      rw [bytesOf_cons, ih hrest, utf8Size_ascii hsmall, List.length_cons]
      omega
  rw [hascii _ fun c hc => decimal_digits hc]
  exact (Nat.length_toDigits_le_iff (by decide) hk).mpr h

end IntoMarkdown.Lib.Json
