import IntoMarkdown.Lib.Utf8Scan

/-! # UTF-16 as lists of bytes

A character is one unit of two bytes, or a pair of surrogates. A surrogate without the other one,
and what is cut off at the end, is broken. -/

namespace IntoMarkdown.Lib.Utf16

/-- Which byte of a unit comes first. -/
inductive Order where
  | little
  | big
  deriving DecidableEq, Repr

def unitBytes (order : Order) (unit : Nat) : List UInt8 :=
  match order with
  | .little => [UInt8.ofNat (unit % 256), UInt8.ofNat (unit / 256)]
  | .big => [UInt8.ofNat (unit / 256), UInt8.ofNat (unit % 256)]

def readUnit (order : Order) (a b : UInt8) : Nat :=
  match order with
  | .little => a.toNat + b.toNat * 256
  | .big => a.toNat * 256 + b.toNat

def isHigh (unit : Nat) : Bool := 0xd800 ≤ unit && unit ≤ 0xdbff

def isLow (unit : Nat) : Bool := 0xdc00 ≤ unit && unit ≤ 0xdfff

def highOf (v : Nat) : Nat := 0xd800 + (v - 0x10000) / 1024

def lowOf (v : Nat) : Nat := 0xdc00 + (v - 0x10000) % 1024

/-- The scalar of a pair of surrogates. -/
def scalar (high low : Nat) : Nat := 0x10000 + (high - 0xd800) * 1024 + (low - 0xdc00)

def encodeChar (order : Order) (c : Char) : List UInt8 :=
  if c.toNat < 0x10000 then unitBytes order c.toNat
  else unitBytes order (highOf c.toNat) ++ unitBytes order (lowOf c.toNat)

/-- A broken piece, with what follows it. -/
inductive Lone (order : Order) : List UInt8 → List UInt8 → Prop where
  | byte (a : UInt8) : Lone order [a] []
  | low {a b : UInt8} (rest : List UInt8) (h : isLow (readUnit order a b) = true) :
      Lone order [a, b] rest
  | high {a b c d : UInt8} (rest : List UInt8) (h : isHigh (readUnit order a b) = true)
      (hother : isLow (readUnit order c d) = false) : Lone order [a, b] (c :: d :: rest)
  | cut {a b : UInt8} {more : List UInt8} (h : isHigh (readUnit order a b) = true)
      (hmore : more.length < 2) : Lone order (a :: b :: more) []

section
variable {order : Order} {unit : Nat} {a b c d : UInt8}

/-! ## Units -/

theorem unitBytes_readUnit (order : Order) (a b : UInt8) :
    unitBytes order (readUnit order a b) = [a, b] := by
  have ha := a.toNat_lt
  have hb := b.toNat_lt
  have ofNat_eq {n : Nat} {x : UInt8} (h : n = x.toNat) : UInt8.ofNat n = x := by
    rw [h, UInt8.ofNat_toNat]
  cases order with
  | little =>
    change [UInt8.ofNat ((a.toNat + b.toNat * 256) % 256),
      UInt8.ofNat ((a.toNat + b.toNat * 256) / 256)] = _
    rw [@ofNat_eq _ a (by omega), @ofNat_eq _ b (by omega)]
  | big =>
    change [UInt8.ofNat ((a.toNat * 256 + b.toNat) / 256),
      UInt8.ofNat ((a.toNat * 256 + b.toNat) % 256)] = _
    rw [@ofNat_eq _ a (by omega), @ofNat_eq _ b (by omega)]

theorem exists_unitBytes (order : Order) (h : unit < 0x10000) :
    ∃ a b, unitBytes order unit = [a, b] ∧ readUnit order a b = unit := by
  have hsmall {n : Nat} (hn : n < 256) : (UInt8.ofNat n).toNat = n :=
    UInt8.toNat_ofNat_of_lt' hn
  cases order with
  | little =>
    refine ⟨_, _, rfl, ?_⟩
    change (UInt8.ofNat (unit % 256)).toNat + (UInt8.ofNat (unit / 256)).toNat * 256 = unit
    rw [hsmall (by omega), hsmall (by omega)]
    omega
  | big =>
    refine ⟨_, _, rfl, ?_⟩
    change (UInt8.ofNat (unit / 256)).toNat * 256 + (UInt8.ofNat (unit % 256)).toNat = unit
    rw [hsmall (by omega), hsmall (by omega)]
    omega

theorem readUnit_lt (order : Order) (a b : UInt8) : readUnit order a b < 0x10000 := by
  have ha := a.toNat_lt
  have hb := b.toNat_lt
  cases order with
  | little =>
    change a.toNat + b.toNat * 256 < _
    omega
  | big =>
    change a.toNat * 256 + b.toNat < _
    omega

theorem isHigh_iff : isHigh unit = true ↔ 0xd800 ≤ unit ∧ unit ≤ 0xdbff := by
  rw [isHigh, Bool.and_eq_true, decide_eq_true_iff, decide_eq_true_iff]

theorem isLow_iff : isLow unit = true ↔ 0xdc00 ≤ unit ∧ unit ≤ 0xdfff := by
  rw [isLow, Bool.and_eq_true, decide_eq_true_iff, decide_eq_true_iff]

/-! ## Characters -/

/-- A unit that is no surrogate is a character. -/
theorem encodeChar_unit (hhigh : isHigh (readUnit order a b) = false)
    (hlow : isLow (readUnit order a b) = false) :
    encodeChar order (Char.ofNat (readUnit order a b)) = [a, b] := by
  have hlt := readUnit_lt order a b
  have hhigh := mt isHigh_iff.mpr (Utf8.ne_true_of hhigh)
  have hlow := mt isLow_iff.mpr (Utf8.ne_true_of hlow)
  rw [encodeChar, Utf8.toNat_ofNat_of (by omega), if_pos hlt, unitBytes_readUnit]

theorem scalar_bounds {high low : Nat} (hhigh : isHigh high = true) (hlow : isLow low = true) :
    0xdfff < scalar high low ∧ scalar high low < 0x110000 := by
  have hhigh := isHigh_iff.mp hhigh
  have hlow := isLow_iff.mp hlow
  unfold scalar
  omega

/-- A pair of surrogates is a character. -/
theorem encodeChar_pair (hhigh : isHigh (readUnit order a b) = true)
    (hlow : isLow (readUnit order c d) = true) :
    encodeChar order (Char.ofNat (scalar (readUnit order a b) (readUnit order c d))) =
      [a, b, c, d] := by
  have hvalid := scalar_bounds hhigh hlow
  have hhigh := isHigh_iff.mp hhigh
  have hlow := isLow_iff.mp hlow
  have hfirst : highOf (scalar (readUnit order a b) (readUnit order c d)) = readUnit order a b := by
    unfold highOf scalar
    omega
  have hsecond : lowOf (scalar (readUnit order a b) (readUnit order c d)) = readUnit order c d := by
    unfold lowOf scalar
    omega
  have hbig : ¬ scalar (readUnit order a b) (readUnit order c d) < 0x10000 := by
    unfold scalar
    omega
  rw [encodeChar, Utf8.toNat_ofNat_of (Or.inr hvalid), if_neg hbig, hfirst, hsecond,
    unitBytes_readUnit, unitBytes_readUnit]
  rfl

/-- The units of a character. -/
inductive Units (order : Order) (c : Char) : List UInt8 → Prop where
  | one {a b : UInt8} (hunit : readUnit order a b = c.toNat)
      (hhigh : isHigh (readUnit order a b) = false) (hlow : isLow (readUnit order a b) = false) :
      Units order c [a, b]
  | two {a b d e : UInt8} (hhigh : isHigh (readUnit order a b) = true)
      (hlow : isLow (readUnit order d e) = true)
      (hscalar : scalar (readUnit order a b) (readUnit order d e) = c.toNat) :
      Units order c [a, b, d, e]

theorem units_encodeChar (order : Order) (c : Char) : Units order c (encodeChar order c) := by
  have hvalid := Utf8.toNat_valid c
  rw [encodeChar]
  split
  · next hsmall =>
    obtain ⟨a, b, hbytes, hunit⟩ := exists_unitBytes order hsmall
    rw [hbytes]
    refine .one hunit ?_ ?_
    · rw [hunit]
      exact Bool.eq_false_iff.mpr fun h => by
        have := isHigh_iff.mp h
        omega
    · rw [hunit]
      exact Bool.eq_false_iff.mpr fun h => by
        have := isLow_iff.mp h
        omega
  · next hbig =>
    obtain ⟨a, b, hfirst, hhigh⟩ := exists_unitBytes order
      (show highOf c.toNat < 0x10000 by rw [highOf]; omega)
    obtain ⟨d, e, hsecond, hlow⟩ := exists_unitBytes order
      (show lowOf c.toNat < 0x10000 by rw [lowOf]; omega)
    rw [hfirst, hsecond]
    refine .two ?_ ?_ ?_
    · rw [hhigh, isHigh_iff, highOf]
      omega
    · rw [hlow, isLow_iff, lowOf]
      omega
    · rw [hhigh, hlow]
      unfold scalar highOf lowOf
      omega

theorem not_high_of_low (h : isLow unit = true) : isHigh unit = false :=
  Bool.eq_false_iff.mpr fun hhigh => by
    have := isLow_iff.mp h
    have := isHigh_iff.mp hhigh
    omega

/-! ## One reading -/

theorem Units.two_le {ch : Char} {bytes : List UInt8} (h : Units order ch bytes) :
    2 ≤ bytes.length := by
  cases h with
  | one => exact Nat.le_refl _
  | two => exact Nat.le_add_left _ _

theorem Units.ne_nil {ch : Char} {bytes : List UInt8} (h : Units order ch bytes) : bytes ≠ [] := by
  cases h <;> exact List.cons_ne_nil _ _

theorem ofNat_inj {c c' : Char} (h : c.toNat = c'.toNat) : c = c' := by
  rw [← Char.ofNat_toNat c, h, Char.ofNat_toNat]

theorem Units.eq_of_starts {ch ch' : Char} {bytes bytes' : List UInt8}
    (h : Units order ch bytes) (h' : Units order ch' bytes') (hle : bytes <+: bytes') :
    ch = ch' := by
  obtain ⟨more, rfl⟩ := hle
  cases h with
  | one hunit hhigh hlow =>
    cases h' with
    | one hunit' => exact ofNat_inj (hunit.symm.trans hunit')
    | two hhigh' =>
      rw [hhigh] at hhigh'
      cases hhigh'
  | two hhigh hlow hscalar =>
    cases h' with
    | two hhigh' hlow' hscalar' => exact ofNat_inj (hscalar.symm.trans hscalar')

theorem Lone.broken {piece rest bytes : List UInt8} {ch : Char} (h : Lone order piece rest)
    (hunits : Units order ch bytes) : ¬ bytes <+: piece ++ rest := by
  rintro ⟨more, heq⟩
  cases hunits with
  | one hunit hhigh hlow =>
    cases h with
    | byte => cases heq
    | low rest h =>
      obtain ⟨rfl, rfl, -⟩ : _ ∧ _ ∧ _ := by simpa using heq
      rw [hlow] at h
      cases h
    | high rest h =>
      obtain ⟨rfl, rfl, -⟩ : _ ∧ _ ∧ _ := by simpa using heq
      rw [hhigh] at h
      cases h
    | cut h =>
      obtain ⟨rfl, rfl, -⟩ : _ ∧ _ ∧ _ := by simpa using heq
      rw [hhigh] at h
      cases h
  | two hhigh hlow hscalar =>
    cases h with
    | byte => cases heq
    | low rest h =>
      obtain ⟨rfl, rfl, -⟩ : _ ∧ _ ∧ _ := by simpa using heq
      rw [not_high_of_low h] at hhigh
      cases hhigh
    | high rest h hother =>
      obtain ⟨rfl, rfl, rfl, rfl, -⟩ : _ ∧ _ ∧ _ ∧ _ ∧ _ := by simpa using heq
      rw [hother] at hlow
      cases hlow
    | cut h hmore =>
      obtain ⟨rfl, rfl, rfl⟩ : _ ∧ _ ∧ _ := by simpa using heq
      simp only [List.length_cons] at hmore
      omega

theorem Lone.unique {piece rest piece' rest' : List UInt8} (h : Lone order piece rest)
    (h' : Lone order piece' rest') (heq : piece ++ rest = piece' ++ rest') : piece = piece' := by
  cases h with
  | byte a =>
    cases h' with
    | byte b => exact heq
    | _ => cases heq
  | low rest h =>
    cases h' with
    | byte b => cases heq
    | low rest' h' =>
      obtain ⟨rfl, rfl, -⟩ : _ ∧ _ ∧ _ := by simpa using heq
      rfl
    | high rest' h' =>
      obtain ⟨rfl, rfl, -⟩ : _ ∧ _ ∧ _ := by simpa using heq
      rfl
    | cut h' =>
      obtain ⟨rfl, rfl, -⟩ : _ ∧ _ ∧ _ := by simpa using heq
      rw [not_high_of_low h] at h'
      cases h'
  | high rest h hother =>
    cases h' with
    | byte b => cases heq
    | low rest' h' =>
      obtain ⟨rfl, rfl, -⟩ : _ ∧ _ ∧ _ := by simpa using heq
      rfl
    | high rest' h' =>
      obtain ⟨rfl, rfl, -⟩ : _ ∧ _ ∧ _ := by simpa using heq
      rfl
    | cut h' hmore =>
      obtain ⟨rfl, rfl, rfl⟩ : _ ∧ _ ∧ _ := by simpa using heq
      simp only [List.length_cons] at hmore
      omega
  | cut h hmore =>
    cases h' with
    | byte b => cases heq
    | low rest' h' =>
      obtain ⟨rfl, rfl, -⟩ : _ ∧ _ ∧ _ := by simpa using heq
      rw [not_high_of_low h'] at h
      cases h
    | high rest' h' =>
      obtain ⟨rfl, rfl, rfl⟩ : _ ∧ _ ∧ _ := by simpa using heq
      simp only [List.length_cons] at hmore
      omega
    | cut h' =>
      rw [List.append_nil, List.append_nil] at heq
      exact heq

theorem lawful (order : Order) : LawfulCode (encodeChar order) (Lone order) where
  code_ne c := (units_encodeChar order c).ne_nil
  code_inj c c' := (units_encodeChar order c).eq_of_starts (units_encodeChar order c')
  bad_ne piece rest h := by
    cases h <;> exact List.cons_ne_nil _ _
  broken piece rest h c := h.broken (units_encodeChar order c)
  bad_inj piece rest piece' rest' h h' := h.unique h'

end

end IntoMarkdown.Lib.Utf16
