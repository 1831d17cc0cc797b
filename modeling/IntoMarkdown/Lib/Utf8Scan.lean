import IntoMarkdown.Lib.Decoding
import IntoMarkdown.Lib.Utf8

/-! # Scanning UTF-8

The scan of `from_utf8`: how far bytes are valid, and how long the broken piece behind is. It is
the longest one that some character begins with, or a single byte. -/

namespace IntoMarkdown.Lib.Utf8
open String

/-! ## The scan -/

/-- What bytes begin with. -/
inductive Head where
  | char (c : Char) (rest : List UInt8)
  | invalid (length : Nat)
  | incomplete
  deriving DecidableEq, Repr

/-- The length of a character, told by its first byte; zero where there is none. -/
def charWidth (a : UInt8) : Nat :=
  let a := a.toNat
  if a < 0x80 then 1
  else if 0xc2 ≤ a ∧ a ≤ 0xdf then 2
  else if 0xe0 ≤ a ∧ a ≤ 0xef then 3
  else if 0xf0 ≤ a ∧ a ≤ 0xf4 then 4
  else 0

def isTail (b : UInt8) : Bool := 0x80 ≤ b.toNat && b.toNat ≤ 0xbf

/-- The second byte may not make the code longer than it needs to be, or that of a surrogate, or
of what is beyond the last character. -/
def isSecond (a b : UInt8) : Bool :=
  if a.toNat = 0xe0 then 0xa0 ≤ b.toNat && b.toNat ≤ 0xbf
  else if a.toNat = 0xed then 0x80 ≤ b.toNat && b.toNat ≤ 0x9f
  else if a.toNat = 0xf0 then 0x90 ≤ b.toNat && b.toNat ≤ 0xbf
  else if a.toNat = 0xf4 then 0x80 ≤ b.toNat && b.toNat ≤ 0x8f
  else isTail b

def scalar₂ (a b : UInt8) : Char := Char.ofNat ((a.toNat - 0xc0) * 64 + (b.toNat - 0x80))

def scalar₃ (a b c : UInt8) : Char :=
  Char.ofNat ((a.toNat - 0xe0) * 4096 + (b.toNat - 0x80) * 64 + (c.toNat - 0x80))

def scalar₄ (a b c d : UInt8) : Char :=
  Char.ofNat ((a.toNat - 0xf0) * 262144 + (b.toNat - 0x80) * 4096 + (c.toNat - 0x80) * 64 +
    (d.toNat - 0x80))

/-- The next byte, if it is there and passes. -/
def next (passes : UInt8 → Bool) (read : Nat) (found : UInt8 → List UInt8 → Head) :
    List UInt8 → Head
  | [] => .incomplete
  | b :: rest => if passes b then found b rest else .invalid read

def head (a : UInt8) (rest : List UInt8) : Head :=
  if charWidth a = 1 then .char (Char.ofNat a.toNat) rest
  else if charWidth a = 2 then
    next (isSecond a) 1 (fun b rest => .char (scalar₂ a b) rest) rest
  else if charWidth a = 3 then
    next (isSecond a) 1 (fun b =>
      next isTail 2 fun c rest => .char (scalar₃ a b c) rest) rest
  else if charWidth a = 4 then
    next (isSecond a) 1 (fun b =>
      next isTail 2 fun c =>
        next isTail 3 fun d rest => .char (scalar₄ a b c d) rest) rest
  else .invalid 1

/-! ## Codes -/

/-- The bytes of a character as numbers. -/
def encodeNat (v : Nat) : List Nat :=
  if v < 0x80 then [v]
  else if v < 0x800 then [v / 64 + 0xc0, v % 64 + 0x80]
  else if v < 0x10000 then [v / 4096 + 0xe0, v / 64 % 64 + 0x80, v % 64 + 0x80]
  else [v / 262144 + 0xf0, v / 4096 % 64 + 0x80, v / 64 % 64 + 0x80, v % 64 + 0x80]

theorem toNat_valid (c : Char) :
    c.toNat < 0xd800 ∨ 0xdfff < c.toNat ∧ c.toNat < 0x110000 := c.valid

theorem map_toNat_encodeChar (c : Char) :
    (utf8EncodeChar c).map UInt8.toNat = encodeNat c.toNat := by
  have hvalid := toNat_valid c
  have hval : c.val.toNat = c.toNat := rfl
  simp only [utf8EncodeChar, encodeNat, hval]
  split_ifs <;> first
    | omega
    | simp only [List.map_cons, List.map_nil, UInt8.toNat_ofNat', List.cons.injEq, and_true]
      omega

theorem encodeChar_eq_iff {c : Char} {bytes : List UInt8} :
    utf8EncodeChar c = bytes ↔ encodeNat c.toNat = bytes.map UInt8.toNat := by
  rw [← map_toNat_encodeChar]
  refine ⟨fun h => h ▸ rfl, fun h => ?_⟩
  exact List.map_injective_iff.mpr (fun _ _ => UInt8.toNat_inj.mp) h

theorem toNat_ofNat_of {v : Nat} (h : v < 0xd800 ∨ 0xdfff < v ∧ v < 0x110000) :
    (Char.ofNat v).toNat = v := by
  rw [Char.toNat_ofNat]
  exact if_pos h

theorem eq_ofNat_of {c : Char} {v : Nat} (h : c.toNat = v) : c = Char.ofNat v := by
  rw [← h, Char.ofNat_toNat]

theorem charWidth_eq_one {a : UInt8} : charWidth a = 1 ↔ a.toNat < 0x80 := by
  grind [charWidth]

theorem charWidth_eq_two {a : UInt8} : charWidth a = 2 ↔ 0xc2 ≤ a.toNat ∧ a.toNat ≤ 0xdf := by
  grind [charWidth]

theorem charWidth_eq_three {a : UInt8} : charWidth a = 3 ↔ 0xe0 ≤ a.toNat ∧ a.toNat ≤ 0xef := by
  grind [charWidth]

theorem charWidth_eq_four {a : UInt8} : charWidth a = 4 ↔ 0xf0 ≤ a.toNat ∧ a.toNat ≤ 0xf4 := by
  grind [charWidth]

theorem isTail_iff {b : UInt8} : isTail b = true ↔ 0x80 ≤ b.toNat ∧ b.toNat ≤ 0xbf := by
  rw [isTail, Bool.and_eq_true, decide_eq_true_iff, decide_eq_true_iff]

theorem isSecond_iff {a b : UInt8} : isSecond a b = true ↔
    (0x80 ≤ b.toNat ∧ b.toNat ≤ 0xbf) ∧ (a.toNat = 0xe0 → 0xa0 ≤ b.toNat) ∧
      (a.toNat = 0xed → b.toNat ≤ 0x9f) ∧ (a.toNat = 0xf0 → 0x90 ≤ b.toNat) ∧
        (a.toNat = 0xf4 → b.toNat ≤ 0x8f) := by
  unfold isSecond
  rw [isTail]
  split_ifs <;> simp only [Bool.and_eq_true, decide_eq_true_iff] <;> omega

theorem encodeChar_one {c : Char} {a : UInt8} :
    utf8EncodeChar c = [a] ↔ charWidth a = 1 ∧ c = Char.ofNat a.toNat := by
  have hvalid := toNat_valid c
  rw [encodeChar_eq_iff, encodeNat, charWidth_eq_one]
  constructor
  · intro h
    split_ifs at h with hsmall
    · simp only [List.map_cons, List.map_nil, List.cons.injEq, and_true] at h
      exact ⟨h ▸ hsmall, eq_ofNat_of h⟩
    all_goals simp at h
  · rintro ⟨hlt, rfl⟩
    rw [toNat_ofNat_of (by omega), if_pos hlt]
    rfl

theorem encodeChar_two {c : Char} {a b : UInt8} :
    utf8EncodeChar c = [a, b] ↔
      charWidth a = 2 ∧ isSecond a b = true ∧ c = scalar₂ a b := by
  have hvalid := toNat_valid c
  rw [encodeChar_eq_iff, encodeNat, charWidth_eq_two, isSecond_iff, scalar₂]
  constructor
  · intro h
    split_ifs at h
    all_goals simp only [List.map_cons, List.map_nil, List.cons.injEq, and_true, reduceCtorEq,
      and_false] at h
    refine ⟨by omega, by omega, ?_⟩
    apply eq_ofNat_of
    omega
  · rintro ⟨hwidth, hsecond, hc⟩
    rw [hc, toNat_ofNat_of (by omega), if_neg (by omega), if_pos (by omega)]
    simp only [List.map_cons, List.map_nil, List.cons.injEq, and_true]
    omega

theorem encodeChar_three {ch : Char} {a b c : UInt8} :
    utf8EncodeChar ch = [a, b, c] ↔
      charWidth a = 3 ∧ isSecond a b = true ∧ isTail c = true ∧ ch = scalar₃ a b c := by
  have hvalid := toNat_valid ch
  rw [encodeChar_eq_iff, encodeNat, charWidth_eq_three, isSecond_iff, isTail_iff, scalar₃]
  constructor
  · intro h
    split_ifs at h
    all_goals simp only [List.map_cons, List.map_nil, List.cons.injEq, and_true, reduceCtorEq,
      and_false] at h
    refine ⟨by omega, by omega, by omega, ?_⟩
    apply eq_ofNat_of
    omega
  · rintro ⟨hwidth, hsecond, htail, hc⟩
    rw [hc, toNat_ofNat_of (by omega), if_neg (by omega), if_neg (by omega), if_pos (by omega)]
    simp only [List.map_cons, List.map_nil, List.cons.injEq, and_true]
    omega

theorem encodeChar_four {ch : Char} {a b c d : UInt8} :
    utf8EncodeChar ch = [a, b, c, d] ↔
      charWidth a = 4 ∧ isSecond a b = true ∧ isTail c = true ∧ isTail d = true ∧
        ch = scalar₄ a b c d := by
  have hvalid := toNat_valid ch
  rw [encodeChar_eq_iff, encodeNat, charWidth_eq_four, isSecond_iff, isTail_iff, isTail_iff,
    scalar₄]
  constructor
  · intro h
    split_ifs at h
    all_goals simp only [List.map_cons, List.map_nil, List.cons.injEq, and_true, reduceCtorEq,
      and_false] at h
    refine ⟨by omega, by omega, by omega, by omega, ?_⟩
    apply eq_ofNat_of
    omega
  · rintro ⟨hwidth, hsecond, htail, htail', hc⟩
    rw [hc, toNat_ofNat_of (by omega), if_neg (by omega), if_neg (by omega), if_neg (by omega)]
    simp only [List.map_cons, List.map_nil, List.cons.injEq, and_true]
    omega

/-! ## First bytes -/

theorem encodeChar_not_long {c : Char} {a b d e f : UInt8} {more : List UInt8} :
    utf8EncodeChar c ≠ a :: b :: d :: e :: f :: more := by
  intro h
  have hle := Char.utf8Size_le_four c
  rw [← length_utf8EncodeChar, h] at hle
  simp only [List.length_cons] at hle
  omega

theorem length_encodeChar {c : Char} {a : UInt8} {more : List UInt8}
    (h : utf8EncodeChar c = a :: more) : charWidth a = more.length + 1 := by
  rcases more with _ | ⟨b, _ | ⟨d, _ | ⟨e, _ | ⟨f, more⟩⟩⟩⟩
  · exact (encodeChar_one.mp h).1
  · exact (encodeChar_two.mp h).1
  · exact (encodeChar_three.mp h).1
  · exact (encodeChar_four.mp h).1
  · exact absurd h encodeChar_not_long

theorem exists_encodeChar (c : Char) : ∃ a more, utf8EncodeChar c = a :: more := by
  refine List.exists_cons_of_ne_nil fun hnil => ?_
  have hpos := c.utf8Size_pos
  rw [← length_utf8EncodeChar, hnil] at hpos
  exact Nat.lt_irrefl 0 hpos

theorem second_encodeChar {c : Char} {a b : UInt8} {more : List UInt8}
    (h : utf8EncodeChar c = a :: b :: more) : isSecond a b = true := by
  rcases more with _ | ⟨d, _ | ⟨e, _ | ⟨f, more⟩⟩⟩
  · exact (encodeChar_two.mp h).2.1
  · exact (encodeChar_three.mp h).2.1
  · exact (encodeChar_four.mp h).2.1
  · exact absurd h encodeChar_not_long

theorem third_encodeChar {c : Char} {a b d : UInt8} {more : List UInt8}
    (h : utf8EncodeChar c = a :: b :: d :: more) : isTail d = true := by
  rcases more with _ | ⟨e, _ | ⟨f, more⟩⟩
  · exact (encodeChar_three.mp h).2.2.1
  · exact (encodeChar_four.mp h).2.2.1
  · exact absurd h encodeChar_not_long

theorem fourth_encodeChar {c : Char} {a b d e : UInt8} {more : List UInt8}
    (h : utf8EncodeChar c = a :: b :: d :: e :: more) : isTail e = true := by
  rcases more with _ | ⟨f, more⟩
  · exact (encodeChar_four.mp h).2.2.2.1
  · exact absurd h encodeChar_not_long

/-! ## Beginnings -/

/-- Some character begins so. -/
def Begins (bytes : List UInt8) : Prop := ∃ c, bytes <+: utf8EncodeChar c

theorem Begins.of_starts {bytes more : List UInt8} (h : Begins more) (hle : bytes <+: more) :
    Begins bytes := by
  obtain ⟨c, hc⟩ := h
  exact ⟨c, hle.trans hc⟩

theorem begins_encodeChar {c : Char} {bytes : List UInt8} (h : utf8EncodeChar c = bytes) :
    Begins bytes := ⟨c, h ▸ List.prefix_refl _⟩

theorem isTail_least : isTail 0x80 = true := by decide

theorem begins_three {a b c : UInt8} (hwidth : charWidth a = 4) (hb : isSecond a b = true)
    (hc : isTail c = true) : Begins [a, b, c] :=
  (begins_encodeChar (encodeChar_four.mpr ⟨hwidth, hb, hc, isTail_least, rfl⟩)).of_starts
    (List.prefix_append [a, b, c] [0x80])

theorem begins_two {a b : UInt8} (hwidth : charWidth a = 3 ∨ charWidth a = 4)
    (hb : isSecond a b = true) : Begins [a, b] := by
  rcases hwidth with hwidth | hwidth
  · exact (begins_encodeChar (encodeChar_three.mpr ⟨hwidth, hb, isTail_least, rfl⟩)).of_starts
      (List.prefix_append [a, b] [0x80])
  · exact (begins_three hwidth hb isTail_least).of_starts (List.prefix_append [a, b] [0x80])

theorem exists_second (a : UInt8) : ∃ b, isSecond a b = true := by
  by_cases hlow : a.toNat = 0xed ∨ a.toNat = 0xf4
  · refine ⟨0x80, isSecond_iff.mpr ?_⟩
    rw [show (0x80 : UInt8).toNat = 128 from rfl]
    omega
  · refine ⟨0xa0, isSecond_iff.mpr ?_⟩
    rw [show (0xa0 : UInt8).toNat = 160 from rfl]
    omega

theorem begins_one {a : UInt8}
    (hwidth : charWidth a = 2 ∨ charWidth a = 3 ∨ charWidth a = 4) : Begins [a] := by
  obtain ⟨b, hb⟩ := exists_second a
  rcases hwidth with hwidth | hwidth
  · exact (begins_encodeChar (encodeChar_two.mpr ⟨hwidth, hb, rfl⟩)).of_starts
      (List.prefix_append [a] [b])
  · exact (begins_two hwidth hb).of_starts (List.prefix_append [a] [b])

theorem Begins.width_ne {a : UInt8} {more : List UInt8} (h : Begins (a :: more)) :
    charWidth a ≠ 0 := by
  obtain ⟨c, tail, hc⟩ := h
  rw [length_encodeChar hc.symm]
  exact Nat.succ_ne_zero _

theorem Begins.second {a b : UInt8} {more : List UInt8} (h : Begins (a :: b :: more)) :
    isSecond a b = true := by
  obtain ⟨c, tail, hc⟩ := h
  exact second_encodeChar hc.symm

theorem Begins.third {a b c : UInt8} {more : List UInt8} (h : Begins (a :: b :: c :: more)) :
    isTail c = true := by
  obtain ⟨ch, tail, hc⟩ := h
  exact third_encodeChar hc.symm

theorem Begins.fourth {a b c d : UInt8} {more : List UInt8}
    (h : Begins (a :: b :: c :: d :: more)) : isTail d = true := by
  obtain ⟨ch, tail, hc⟩ := h
  exact fourth_encodeChar hc.symm

/-! ## Broken pieces -/

/-- The longest piece that a character begins with, or a single byte, where there is no whole
character. -/
structure Subpart (piece rest : List UInt8) : Prop where
  nonempty : piece ≠ []
  broken : ∀ c, ¬ utf8EncodeChar c <+: piece ++ rest
  begins : Begins piece ∨ piece.length = 1
  longest : ∀ b, rest.head? = some b → ¬ Begins (piece ++ [b])

/-- A broken piece with the byte that ends it. -/
theorem subpart_cons {piece rest : List UInt8} {b : UInt8} (hne : piece ≠ [])
    (hbegins : Begins piece ∨ piece.length = 1) (hends : ¬ Begins (piece ++ [b]))
    (hpart : ∀ c, ¬ utf8EncodeChar c <+: piece) : Subpart piece (b :: rest) where
  nonempty := hne
  broken c hc := by
    rcases List.prefix_or_prefix_of_prefix hc
      (show piece ++ [b] <+: piece ++ b :: rest from ⟨rest, by rw [List.append_assoc]; rfl⟩)
      with hle | hle
    · rcases List.prefix_concat_iff.mp hle with heq | hle
      · exact hends (begins_encodeChar heq)
      · exact hpart c hle
    · exact hends ⟨c, hle⟩
  begins := hbegins
  longest b' hb' := by
    obtain rfl := Option.some.inj hb'
    exact hends

/-- Bytes that are too few for the character that they begin with. -/
theorem not_prefix_of_short {a : UInt8} {more : List UInt8} (h : more.length + 1 < charWidth a)
    (c : Char) : ¬ utf8EncodeChar c <+: a :: more := by
  rintro ⟨tail, hc⟩
  obtain ⟨a', more', hcode⟩ := exists_encodeChar c
  rw [hcode, List.cons_append] at hc
  obtain ⟨rfl, rfl⟩ := List.cons.inj hc
  rw [length_encodeChar hcode, List.length_append] at h
  omega

theorem subpart_short {a : UInt8} {more : List UInt8} (hbegins : Begins (a :: more))
    (h : more.length + 1 < charWidth a) : Subpart (a :: more) [] where
  nonempty := List.cons_ne_nil _ _
  broken c := by
    rw [List.append_nil]
    exact not_prefix_of_short h c
  begins := Or.inl hbegins
  longest _ hnone := by cases hnone

/-! ## What the scan finds -/

def Head.Fits (bytes : List UInt8) : Head → Prop
  | .char c rest => bytes = utf8EncodeChar c ++ rest
  | .invalid length => ∃ piece rest, bytes = piece ++ rest ∧ piece.length = length ∧
      Subpart piece rest
  | .incomplete => Subpart bytes []

theorem next_fits {passes : UInt8 → Bool} {found : UInt8 → List UInt8 → Head}
    {read rest : List UInt8} (hshort : Subpart read [])
    (hstop : ∀ b tail, passes b = false → Subpart read (b :: tail))
    (hfound : ∀ b tail, passes b = true → (found b tail).Fits (read ++ b :: tail)) :
    (next passes read.length found rest).Fits (read ++ rest) := by
  cases rest with
  | nil =>
    rw [List.append_nil]
    exact hshort
  | cons b tail =>
    rw [next]
    split
    · next hpasses => exact hfound b tail hpasses
    · next hpasses => exact ⟨read, b :: tail, rfl, rfl, hstop b tail (Bool.eq_false_iff.mpr hpasses)⟩

theorem ne_true_of {b : Bool} (h : b = false) : ¬ b = true := Bool.eq_false_iff.mp h

/-- The first byte of a longer character. -/
theorem first_fits {a : UInt8} {found : UInt8 → List UInt8 → Head} {rest : List UInt8}
    (hwidth : charWidth a = 2 ∨ charWidth a = 3 ∨ charWidth a = 4)
    (hfound : ∀ b tail, isSecond a b = true → (found b tail).Fits ([a, b] ++ tail)) :
    (next (isSecond a) 1 found rest).Fits (a :: rest) := by
  have hbegins := begins_one hwidth
  have hshort : ([] : List UInt8).length + 1 < charWidth a := by
    rw [List.length_nil]
    omega
  refine @next_fits _ _ [a] _ (subpart_short hbegins hshort) (fun b tail hb => ?_) hfound
  refine subpart_cons (List.cons_ne_nil _ _) (Or.inl hbegins) (fun h => ?_)
    (not_prefix_of_short hshort)
  exact ne_true_of hb h.second

theorem second_fits {a b : UInt8} {found : UInt8 → List UInt8 → Head} {rest : List UInt8}
    (hwidth : charWidth a = 3 ∨ charWidth a = 4) (hsecond : isSecond a b = true)
    (hfound : ∀ c tail, isTail c = true → (found c tail).Fits ([a, b, c] ++ tail)) :
    (next isTail 2 found rest).Fits ([a, b] ++ rest) := by
  have hbegins := begins_two hwidth hsecond
  have hshort : [b].length + 1 < charWidth a := by
    rw [List.length_singleton]
    omega
  refine @next_fits _ _ [a, b] _ (subpart_short hbegins hshort) (fun c tail hc => ?_) hfound
  refine subpart_cons (List.cons_ne_nil _ _) (Or.inl hbegins) (fun h => ?_)
    (not_prefix_of_short hshort)
  exact ne_true_of hc h.third

theorem third_fits {a b c : UInt8} {found : UInt8 → List UInt8 → Head} {rest : List UInt8}
    (hwidth : charWidth a = 4) (hsecond : isSecond a b = true) (hthird : isTail c = true)
    (hfound : ∀ d tail, isTail d = true → (found d tail).Fits ([a, b, c, d] ++ tail)) :
    (next isTail 3 found rest).Fits ([a, b, c] ++ rest) := by
  have hbegins := begins_three hwidth hsecond hthird
  have hshort : [b, c].length + 1 < charWidth a := by
    rw [hwidth]
    exact Nat.lt_succ_self _
  refine @next_fits _ _ [a, b, c] _ (subpart_short hbegins hshort) (fun d tail hd => ?_) hfound
  refine subpart_cons (List.cons_ne_nil _ _) (Or.inl hbegins) (fun h => ?_)
    (not_prefix_of_short hshort)
  exact ne_true_of hd h.fourth

/-- A byte that no character begins with. -/
theorem subpart_single {a : UInt8} {rest : List UInt8} (h : charWidth a = 0) :
    Subpart [a] rest where
  nonempty := List.cons_ne_nil _ _
  broken c hc := by
    obtain ⟨a', more, hcode⟩ := exists_encodeChar c
    obtain ⟨tail, heq⟩ := hc
    rw [hcode, List.cons_append] at heq
    obtain ⟨rfl, -⟩ := List.cons.inj heq
    rw [length_encodeChar hcode] at h
    exact Nat.succ_ne_zero _ h
  begins := Or.inr rfl
  longest b _ hbegins := hbegins.width_ne h

theorem head_fits (a : UInt8) (rest : List UInt8) : (head a rest).Fits (a :: rest) := by
  unfold head
  split
  · next hwidth =>
    change a :: rest = utf8EncodeChar (Char.ofNat a.toNat) ++ rest
    rw [encodeChar_one.mpr ⟨hwidth, rfl⟩]
    rfl
  split
  · next hwidth =>
    refine first_fits (Or.inl hwidth) fun b tail hb => ?_
    change [a, b] ++ tail = utf8EncodeChar (scalar₂ a b) ++ tail
    rw [encodeChar_two.mpr ⟨hwidth, hb, rfl⟩]
  split
  · next hwidth =>
    refine first_fits (Or.inr (Or.inl hwidth)) fun b tail hb => ?_
    refine second_fits (Or.inl hwidth) hb fun c tail hc => ?_
    change [a, b, c] ++ tail = utf8EncodeChar (scalar₃ a b c) ++ tail
    rw [encodeChar_three.mpr ⟨hwidth, hb, hc, rfl⟩]
  split
  · next hwidth =>
    refine first_fits (Or.inr (Or.inr hwidth)) fun b tail hb => ?_
    refine second_fits (Or.inr hwidth) hb fun c tail hc => ?_
    refine third_fits hwidth hb hc fun d tail hd => ?_
    change [a, b, c, d] ++ tail = utf8EncodeChar (scalar₄ a b c d) ++ tail
    rw [encodeChar_four.mpr ⟨hwidth, hb, hc, hd, rfl⟩]
  · next h₁ h₂ h₃ h₄ =>
    have hzero : charWidth a = 0 := by
      grind [charWidth]
    exact ⟨[a], rest, rfl, rfl, subpart_single hzero⟩

/-! ## The valid part -/

theorem Head.Fits.rest_lt {bytes rest : List UInt8} {c : Char}
    (h : (Head.char c rest).Fits bytes) : rest.length < bytes.length := by
  have hbytes : bytes = utf8EncodeChar c ++ rest := h
  have hpos := c.utf8Size_pos
  rw [hbytes, List.length_append, length_utf8EncodeChar]
  omega

/-- `from_utf8`: the characters of the valid part, and the `error_len` of what follows it. -/
def fromUtf8 : List UInt8 → List Char × Option (Option Nat)
  | [] => ([], none)
  | a :: rest =>
    match _hhead : head a rest with
    | .char c rest' =>
      let more := fromUtf8 rest'
      (c :: more.1, more.2)
    | .invalid length => ([], some (some length))
    | .incomplete => ([], some none)
termination_by bytes => bytes.length
decreasing_by
  have hfits := head_fits a rest
  rw [_hhead] at hfits
  exact hfits.rest_lt

/-- What is behind the valid part. -/
inductive Stopped : Option (Option Nat) → List UInt8 → Prop where
  | done : Stopped none []
  | invalid {piece rest : List UInt8} (h : Subpart piece rest) :
      Stopped (some (some piece.length)) (piece ++ rest)
  | incomplete {piece : List UInt8} (h : Subpart piece []) : Stopped (some none) piece

theorem fromUtf8_stopped (bytes : List UInt8) :
    ∃ rest, bytes = encode (fromUtf8 bytes).1 ++ rest ∧ Stopped (fromUtf8 bytes).2 rest := by
  fun_induction fromUtf8 bytes with
  | case1 => exact ⟨[], rfl, .done⟩
  | case2 a rest c rest' hhead more ih =>
    have hfits := head_fits a rest
    rw [hhead] at hfits
    obtain ⟨tail, hrest, hstopped⟩ := ih
    refine ⟨tail, ?_, hstopped⟩
    have hbytes : a :: rest = utf8EncodeChar c ++ rest' := hfits
    rw [hbytes, encode, List.flatMap_cons, List.append_assoc, hrest]
    rfl
  | case3 a rest length hhead =>
    have hfits := head_fits a rest
    rw [hhead] at hfits
    obtain ⟨piece, tail, hbytes, rfl, hpart⟩ := hfits
    exact ⟨a :: rest, rfl, hbytes ▸ .invalid hpart⟩
  | case4 a rest hhead =>
    have hfits := head_fits a rest
    rw [hhead] at hfits
    exact ⟨a :: rest, rfl, .incomplete hfits⟩

/-! ## One reading -/

theorem encodeChar_prefix {c c' : Char} (h : utf8EncodeChar c <+: utf8EncodeChar c') : c = c' := by
  obtain ⟨a, more, hc⟩ := exists_encodeChar c
  obtain ⟨a', more', hc'⟩ := exists_encodeChar c'
  have hsame : utf8EncodeChar c = utf8EncodeChar c' := by
    refine h.eq_of_length ?_
    rw [hc, hc'] at h ⊢
    obtain ⟨tail, htail⟩ := h
    rw [List.cons_append] at htail
    have hfirst := (List.cons.inj htail).1
    have hlength := length_encodeChar hc
    have hlength' := length_encodeChar hc'
    rw [hfirst] at hlength
    rw [List.length_cons, List.length_cons]
    omega
  have hdecode := decode_encode [c]
  have hencode : encode [c] = encode [c'] := by
    rw [encode, encode, List.flatMap_singleton, List.flatMap_singleton, hsame]
  rw [hencode, decode_encode] at hdecode
  exact (List.cons.inj (Option.some.inj hdecode)).1.symm

theorem Subpart.eq_of_starts {piece rest piece' rest' : List UInt8} (h : Subpart piece rest)
    (h' : Subpart piece' rest') (heq : piece ++ rest = piece' ++ rest')
    (hle : piece <+: piece') : piece = piece' := by
  obtain ⟨more, rfl⟩ := hle
  cases more with
  | nil => exact (List.append_nil piece).symm
  | cons b more =>
    have hbegins : Begins (piece ++ b :: more) := by
      rcases h'.begins with hbegins | hlength
      · exact hbegins
      · have hpos := List.length_pos_iff.mpr h.nonempty
        rw [List.length_append, List.length_cons] at hlength
        omega
    rw [List.append_assoc] at heq
    have hrest := List.append_cancel_left heq
    refine absurd (hbegins.of_starts ?_) (h.longest b (by rw [hrest]; rfl))
    exact ⟨more, by rw [List.append_assoc]; rfl⟩

theorem lawful : LawfulCode utf8EncodeChar Subpart where
  code_ne c := by
    obtain ⟨a, more, hc⟩ := exists_encodeChar c
    rw [hc]
    exact List.cons_ne_nil _ _
  code_inj _ _ := encodeChar_prefix
  bad_ne _ _ h := h.nonempty
  broken _ _ h := h.broken
  bad_inj piece rest piece' rest' h h' heq := by
    rcases List.prefix_or_prefix_of_prefix (List.prefix_append piece rest)
      (heq ▸ List.prefix_append piece' rest') with hle | hle
    · exact h.eq_of_starts h' heq hle
    · exact (h'.eq_of_starts h heq.symm hle).symm

end IntoMarkdown.Lib.Utf8
