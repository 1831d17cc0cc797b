import Mathlib

/-! # UTF-8 as lists of bytes -/

namespace IntoMarkdown.Lib.Utf8

/-- All comparisons of texts use one proof. -/
instance instLawfulBEqText : LawfulBEq (List Char) := inferInstance

def encode (text : List Char) : List UInt8 := text.flatMap String.utf8EncodeChar

def decode (bytes : List UInt8) : Option (List Char) :=
  (String.fromUTF8? bytes.toByteArray).map String.toList

theorem toByteArray_encode (text : List Char) : (encode text).toByteArray = text.utf8Encode := rfl

@[simp] theorem decode_encode (text : List Char) : decode (encode text) = some text := by
  have hvalid : (encode text).toByteArray.IsValidUTF8 := ⟨text, rfl⟩
  simp only [decode, String.fromUTF8?, hvalid, ↓reduceDIte, Option.map_some, Option.some.injEq]
  have hstring : String.fromUTF8 (encode text).toByteArray hvalid = String.ofList text := by
    rw [← String.toByteArray_inj, String.toByteArray_ofList]
    rfl
  rw [hstring, String.toList_ofList]

theorem encode_append (a b : List Char) : encode (a ++ b) = encode a ++ encode b :=
  List.flatMap_append

theorem encode_of_decode {bytes : List UInt8} {text : List Char} (h : decode bytes = some text) :
    bytes = encode text := by
  unfold decode String.fromUTF8? at h
  split_ifs at h with hvalid
  · obtain rfl := Option.some.inj h
    have hbytes : (encode (String.fromUTF8 bytes.toByteArray hvalid).toList).toByteArray =
        bytes.toByteArray := by
      rw [toByteArray_encode, String.utf8Encode_toList]
      rfl
    simpa using (congrArg ByteArray.data hbytes).symm
  · cases h

/-- The readable starts of a text's bytes are the bytes of its starts. -/
theorem decode_cut {text : List Char} {part more : List UInt8} {cs : List Char}
    (h : encode text = part ++ more) (hpart : decode part = some cs) :
    ∃ tail, text = cs ++ tail ∧ encode tail = more := by
  obtain rfl := encode_of_decode hpart
  have hbytes : cs.utf8Encode ++ more.toByteArray = text.utf8Encode := by
    rw [← toByteArray_encode, ← toByteArray_encode, h, List.toByteArray_append]
  obtain ⟨tail, rfl⟩ := List.isPrefix_of_utf8Encode_append_eq_utf8Encode _ hbytes
  rw [encode_append] at h
  exact ⟨tail, rfl, List.append_cancel_left h⟩

theorem encodeChar_ascii {c : Char} (h : c.toNat < 128) :
    String.utf8EncodeChar c = [UInt8.ofNat c.toNat] := by
  have hval : c.val.toNat ≤ 127 := Nat.le_of_lt_succ h
  rw [String.utf8EncodeChar]
  exact if_pos hval

/-- Only a character below 128 has a byte below 128. -/
theorem toNat_of_mem {c : Char} {byte : UInt8} (h : byte ∈ String.utf8EncodeChar c)
    (hbyte : byte.toNat < 128) : c.toNat = byte.toNat := by
  by_cases hascii : c.toNat < 128
  · rw [encodeChar_ascii hascii, List.mem_singleton] at h
    subst h
    exact (UInt8.toNat_ofNat_of_lt' (Nat.lt_trans hascii (by decide))).symm
  · have hval : ¬ c.val.toNat ≤ 127 := fun hle => hascii (Nat.lt_succ_of_le hle)
    have hhigh : ∀ b ∈ String.utf8EncodeChar c, 128 ≤ b.toNat := by
      rw [String.utf8EncodeChar]
      simp only [if_neg hval]
      split_ifs <;>
        simp only [List.forall_mem_cons, List.not_mem_nil, UInt8.toNat_ofNat', IsEmpty.forall_iff,
          implies_true, and_true] <;>
        omega
    exact absurd hbyte (Nat.not_lt.mpr (hhigh byte h))

end IntoMarkdown.Lib.Utf8
