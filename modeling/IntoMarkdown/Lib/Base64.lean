import Mathlib.Data.UInt
import Mathlib.Tactic.IntervalCases

/-! # Base64 with the standard alphabet

Three bytes are four symbols; a last group of one or two bytes is padded, and its
unused bits are zero. -/

namespace IntoMarkdown.Lib.Base64

def symbol (n : Nat) : Char :=
  if n < 26 then Char.ofNat (n + 65)
  else if n < 52 then Char.ofNat (n + 71)
  else if n < 62 then Char.ofNat (n - 4)
  else if n = 62 then '+'
  else '/'

def value (c : Char) : Option Nat :=
  if 'A' ≤ c ∧ c ≤ 'Z' then some (c.toNat - 65)
  else if 'a' ≤ c ∧ c ≤ 'z' then some (c.toNat - 71)
  else if '0' ≤ c ∧ c ≤ '9' then some (c.toNat + 4)
  else if c = '+' then some 62
  else if c = '/' then some 63
  else none

def encode : List UInt8 → List Char
  | [] => []
  | [a] => [symbol (a.toNat / 4), symbol (a.toNat % 4 * 16), '=', '=']
  | [a, b] => [symbol (a.toNat / 4), symbol (a.toNat % 4 * 16 + b.toNat / 16),
      symbol (b.toNat % 16 * 4), '=']
  | a :: b :: c :: rest => symbol (a.toNat / 4) :: symbol (a.toNat % 4 * 16 + b.toNat / 16) ::
      symbol (b.toNat % 16 * 4 + c.toNat / 64) :: symbol (c.toNat % 64) :: encode rest

def byte (n : Nat) : UInt8 := .ofNat n

/-- The last group, with its padding. -/
def decodePadded (a b c : Char) : Option (List UInt8) := do
  let x ← value a
  let y ← value b
  if c = '=' then
    guard (y % 16 = 0)
    return [byte (x * 4 + y / 16)]
  else
    let z ← value c
    guard (z % 4 = 0)
    return [byte (x * 4 + y / 16), byte (y % 16 * 16 + z / 4)]

def decode : List Char → Option (List UInt8)
  | [] => some []
  | a :: b :: c :: d :: rest =>
    if d = '=' then
      if rest = [] then decodePadded a b c else none
    else do
      let x ← value a
      let y ← value b
      let z ← value c
      let w ← value d
      let bytes ← decode rest
      return byte (x * 4 + y / 16) :: byte (y % 16 * 16 + z / 4) :: byte (z % 4 * 64 + w) :: bytes
  | _ => none

theorem value_symbol {n : Nat} (h : n < 64) : value (symbol n) = some n := by
  interval_cases n <;> decide

theorem symbol_ne_padding {n : Nat} (h : n < 64) : symbol n ≠ '=' := by
  interval_cases n <;> decide

theorem byte_toNat {n : Nat} {a : UInt8} (h : n = a.toNat) : byte n = a := by
  rw [h]
  exact UInt8.ofNat_toNat

theorem decode_encode (bytes : List UInt8) : decode (encode bytes) = some bytes := by
  induction bytes using encode.induct with
  | case1 => rfl
  | case2 a =>
    have ha := a.toNat_lt
    simp only [encode, decode, decodePadded, if_true, value_symbol (show a.toNat / 4 < 64 by omega),
      value_symbol (show a.toNat % 4 * 16 < 64 by omega), Option.bind_eq_bind, Option.bind_some]
    rw [byte_toNat (show a.toNat / 4 * 4 + a.toNat % 4 * 16 / 16 = a.toNat by omega)]
    simp
  | case3 a b =>
    have ha := a.toNat_lt
    have hb := b.toNat_lt
    have hz : b.toNat % 16 * 4 < 64 := by omega
    simp only [encode, decode, decodePadded, if_true, if_neg (symbol_ne_padding hz),
      value_symbol hz, value_symbol (show a.toNat / 4 < 64 by omega),
      value_symbol (show a.toNat % 4 * 16 + b.toNat / 16 < 64 by omega), Option.bind_eq_bind,
      Option.bind_some]
    rw [byte_toNat (show a.toNat / 4 * 4 + (a.toNat % 4 * 16 + b.toNat / 16) / 16 = a.toNat by omega),
      byte_toNat (show (a.toNat % 4 * 16 + b.toNat / 16) % 16 * 16 + b.toNat % 16 * 4 / 4 = b.toNat
        by omega)]
    simp
  | case4 a b c rest ih =>
    have ha := a.toNat_lt
    have hb := b.toNat_lt
    have hc := c.toNat_lt
    have hw : c.toNat % 64 < 64 := by omega
    simp only [encode, decode, if_neg (symbol_ne_padding hw), value_symbol hw,
      value_symbol (show a.toNat / 4 < 64 by omega),
      value_symbol (show a.toNat % 4 * 16 + b.toNat / 16 < 64 by omega),
      value_symbol (show b.toNat % 16 * 4 + c.toNat / 64 < 64 by omega), ih, Option.bind_eq_bind,
      Option.bind_some]
    rw [byte_toNat (show a.toNat / 4 * 4 + (a.toNat % 4 * 16 + b.toNat / 16) / 16 = a.toNat by omega),
      byte_toNat (show (a.toNat % 4 * 16 + b.toNat / 16) % 16 * 16 +
        (b.toNat % 16 * 4 + c.toNat / 64) / 4 = b.toNat by omega),
      byte_toNat (show (b.toNat % 16 * 4 + c.toNat / 64) % 4 * 64 + c.toNat % 64 = c.toNat by omega)]
    rfl

end IntoMarkdown.Lib.Base64
