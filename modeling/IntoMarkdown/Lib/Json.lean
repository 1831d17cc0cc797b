import Mathlib

/-! # JSON values and their text

Values with numbers of any type, the compact printer, a reader that limits
nesting, and their round trip. The entries of an object are kept in the order of
the text; of several entries with one key the last counts. -/

namespace IntoMarkdown.Lib.Json

inductive Value (ν : Type) where
  | null
  | bool (b : Bool)
  | number (n : ν)
  | string (s : String)
  | array (items : List (Value ν))
  | object (entries : List (String × Value ν))

inductive ParseError where
  | malformed | recursionLimit
  deriving DecidableEq, Repr

/-- How a type of numbers is written, and what reading the text of one gives. -/
structure Numerals (ν μ : Type) where
  print : ν → List Char
  read : List Char → Option μ
  value : ν → μ

def isNumeric (c : Char) : Bool :=
  c.isDigit || c = '-' || c = '+' || c = '.' || c = 'e' || c = 'E'

def startsNumber (c : Char) : Bool := c.isDigit || c = '-'

structure Numerals.Lawful {ν μ : Type} (N : Numerals ν μ) : Prop where
  start : ∀ n, ∃ c cs, N.print n = c :: cs ∧ startsNumber c
  numeric : ∀ n, ∀ c ∈ N.print n, isNumeric c
  read : ∀ n, N.read (N.print n) = some (N.value n)

variable {ν μ : Type}

namespace Value

/-- The value of an object under a key. -/
def get? (key : String) : Value ν → Option (Value ν)
  | .object entries => (entries.reverse.find? fun e => e.1 = key).map (·.2)
  | _ => none

mutual
/-- The number of containers around the innermost leaf. -/
def depth : Value ν → Nat
  | .array items => depthItems items + 1
  | .object entries => depthEntries entries + 1
  | _ => 0

def depthItems : List (Value ν) → Nat
  | [] => 0
  | v :: rest => max v.depth (depthItems rest)

def depthEntries : List (String × Value ν) → Nat
  | [] => 0
  | (_, v) :: rest => max v.depth (depthEntries rest)
end

mutual
def map (f : ν → μ) : Value ν → Value μ
  | .null => .null
  | .bool b => .bool b
  | .number n => .number (f n)
  | .string s => .string s
  | .array items => .array (mapItems f items)
  | .object entries => .object (mapEntries f entries)

def mapItems (f : ν → μ) : List (Value ν) → List (Value μ)
  | [] => []
  | v :: rest => map f v :: mapItems f rest

def mapEntries (f : ν → μ) : List (String × Value ν) → List (String × Value μ)
  | [] => []
  | (key, v) :: rest => (key, map f v) :: mapEntries f rest
end

mutual
theorem map_id : ∀ v : Value ν, v.map id = v
  | .null | .bool _ | .number _ | .string _ => by simp only [map, id]
  | .array items => by simp only [map, mapItems_id items]
  | .object entries => by simp only [map, mapEntries_id entries]

theorem mapItems_id : ∀ items : List (Value ν), mapItems id items = items
  | [] => rfl
  | v :: items => by simp only [mapItems, map_id v, mapItems_id items]

theorem mapEntries_id : ∀ entries : List (String × Value ν), mapEntries id entries = entries
  | [] => rfl
  | (key, v) :: entries => by simp only [mapEntries, map_id v, mapEntries_id entries]
end

mutual
/-- How many reader calls a value takes. -/
def size : Value ν → Nat
  | .array items => sizeItems items + 1
  | .object entries => sizeEntries entries + 1
  | _ => 1

def sizeItems : List (Value ν) → Nat
  | [] => 1
  | v :: rest => size v + sizeItems rest + 1

def sizeEntries : List (String × Value ν) → Nat
  | [] => 1
  | (_, v) :: rest => size v + sizeEntries rest + 1
end

end Value

/-! ## The printer -/

def hexDigit (n : Nat) : Char := Nat.digitChar n

def escape (c : Char) : List Char :=
  if c = '"' then ['\\', '"']
  else if c = '\\' then ['\\', '\\']
  else if c = '\n' then ['\\', 'n']
  else if c = '\r' then ['\\', 'r']
  else if c = '\t' then ['\\', 't']
  else if c.toNat = 8 then ['\\', 'b']
  else if c.toNat = 12 then ['\\', 'f']
  else if c.toNat < 32 then
    ['\\', 'u', '0', '0', hexDigit (c.toNat / 16), hexDigit (c.toNat % 16)]
  else [c]

/-- A string without its opening quote. -/
def printChars (s : List Char) : List Char := s.flatMap escape ++ ['"']

def printString (s : String) : List Char := '"' :: printChars s.toList

section Print
variable (N : Numerals ν μ)

mutual
def print : Value ν → List Char
  | .null => ['n', 'u', 'l', 'l']
  | .bool true => ['t', 'r', 'u', 'e']
  | .bool false => ['f', 'a', 'l', 's', 'e']
  | .number n => N.print n
  | .string s => printString s
  | .array items => '[' :: printItems true items
  | .object entries => '\x7b' :: printEntries true entries

/-- The items that are left, and the bracket that closes the array. -/
def printItems : Bool → List (Value ν) → List Char
  | _, [] => [']']
  | first, v :: rest => (if first then [] else [',']) ++ (print v ++ printItems false rest)

def printEntries : Bool → List (String × Value ν) → List Char
  | _, [] => ['\x7d']
  | first, (key, v) :: rest =>
    (if first then [] else [',']) ++
      (printString key ++ ':' :: (print v ++ printEntries false rest))
end

end Print

/-! ## The reader -/

def isSpace (c : Char) : Bool := c = ' ' || c = '\n' || c = '\t' || c = '\r'

def skipSpace (cs : List Char) : List Char := cs.dropWhile isSpace

def hexValue (c : Char) : Option Nat :=
  if '0' ≤ c ∧ c ≤ '9' then some (c.toNat - 48)
  else if 'a' ≤ c ∧ c ≤ 'f' then some (c.toNat - 87)
  else if 'A' ≤ c ∧ c ≤ 'F' then some (c.toNat - 55)
  else none

def readHex4 : List Char → Option (Nat × List Char)
  | a :: b :: c :: d :: cs => do
    let a ← hexValue a
    let b ← hexValue b
    let c ← hexValue c
    let d ← hexValue d
    return (((a * 16 + b) * 16 + c) * 16 + d, cs)
  | _ => none

/-- The rest of an escape after its `u`, a surrogate pair being one character. -/
def readUnicode (cs : List Char) : Option (Char × List Char) := do
  let (high, cs) ← readHex4 cs
  if 0xDC00 ≤ high ∧ high < 0xE000 then none
  else if 0xD800 ≤ high ∧ high < 0xDC00 then
    match cs with
    | '\\' :: 'u' :: cs =>
      let (low, cs) ← readHex4 cs
      if 0xDC00 ≤ low ∧ low < 0xE000 then
        return (Char.ofNat (0x10000 + (high - 0xD800) * 0x400 + (low - 0xDC00)), cs)
      else none
    | _ => none
  else return (Char.ofNat high, cs)

def simpleEscape (c : Char) : Option Char :=
  if c = '"' then some '"'
  else if c = '\\' then some '\\'
  else if c = '/' then some '/'
  else if c = 'b' then some (Char.ofNat 8)
  else if c = 'f' then some (Char.ofNat 12)
  else if c = 'n' then some '\n'
  else if c = 'r' then some '\r'
  else if c = 't' then some '\t'
  else none

/-- The next character of a string, after its opening quote. -/
def readChar : List Char → Option (Char × List Char)
  | [] => none
  | c :: cs =>
    if c = '\\' then
      match cs with
      | [] => none
      | e :: cs => if e = 'u' then readUnicode cs else (simpleEscape e).map (·, cs)
    else if c.toNat < 32 then none
    else some (c, cs)

def readChars : Nat → List Char → Option (List Char × List Char)
  | 0, _ => none
  | fuel + 1, cs =>
    match cs with
    | [] => none
    | c :: rest =>
      if c = '"' then some ([], rest)
      else do
        let (c, cs) ← readChar cs
        let (s, cs) ← readChars fuel cs
        return (c :: s, cs)

/-- A string after its opening quote. -/
def readString (cs : List Char) : Except ParseError (String × List Char) :=
  match readChars (cs.length + 1) cs with
  | none => .error .malformed
  | some (s, cs) => .ok (String.ofList s, cs)

def readWord (word : List Char) (v : Value μ) (cs : List Char) :
    Except ParseError (Value μ × List Char) :=
  if word <+: cs then .ok (v, cs.drop word.length) else .error .malformed

def readNumber (read : List Char → Option μ) (cs : List Char) :
    Except ParseError (Value μ × List Char) :=
  match read (cs.takeWhile isNumeric) with
  | none => .error .malformed
  | some n => .ok (.number n, cs.dropWhile isNumeric)

section Read
variable (read : List Char → Option μ)

mutual
/-- A value; `remaining` bounds how many more containers may be opened. -/
def readValue : Nat → Nat → List Char → Except ParseError (Value μ × List Char)
  | 0, _, _ => .error .malformed
  | fuel + 1, remaining, cs =>
    match skipSpace cs with
    | [] => .error .malformed
    | c :: cs =>
      if c = '"' then do
        let (s, cs) ← readString cs
        return (.string s, cs)
      else if c = '[' then
        if remaining = 0 then .error .recursionLimit
        else do
          let (items, cs) ← readItems fuel (remaining - 1) true cs
          return (.array items, cs)
      else if c = '\x7b' then
        if remaining = 0 then .error .recursionLimit
        else do
          let (entries, cs) ← readEntries fuel (remaining - 1) true cs
          return (.object entries, cs)
      else if c = 'n' then readWord ['u', 'l', 'l'] .null cs
      else if c = 't' then readWord ['r', 'u', 'e'] (.bool true) cs
      else if c = 'f' then readWord ['a', 'l', 's', 'e'] (.bool false) cs
      else if startsNumber c then readNumber read (c :: cs)
      else .error .malformed

/-- The items that are left and the bracket that closes the array. -/
def readItems : Nat → Nat → Bool → List Char → Except ParseError (List (Value μ) × List Char)
  | 0, _, _, _ => .error .malformed
  | fuel + 1, remaining, first, cs =>
    match skipSpace cs with
    | [] => .error .malformed
    | c :: rest =>
      if c = ']' then .ok ([], rest)
      else if first ∨ c = ',' then do
        let (v, cs) ← readValue fuel remaining (if first then c :: rest else rest)
        let (items, cs) ← readItems fuel remaining false cs
        return (v :: items, cs)
      else .error .malformed

def readEntries : Nat → Nat → Bool → List Char →
    Except ParseError (List (String × Value μ) × List Char)
  | 0, _, _, _ => .error .malformed
  | fuel + 1, remaining, first, cs =>
    match skipSpace cs with
    | [] => .error .malformed
    | c :: rest =>
      if c = '\x7d' then .ok ([], rest)
      else if first ∨ c = ',' then
        match skipSpace (if first then c :: rest else rest) with
        | '"' :: cs => do
          let (key, cs) ← readString cs
          match skipSpace cs with
          | ':' :: cs =>
            let (v, cs) ← readValue fuel remaining cs
            let (entries, cs) ← readEntries fuel remaining false cs
            return ((key, v) :: entries, cs)
          | _ => .error .malformed
        | _ => .error .malformed
      else .error .malformed
end

/-- The one value of a text, with at most `limit` containers around a leaf. -/
def parse (limit : Nat) (text : List Char) : Except ParseError (Value μ) := do
  let (v, rest) ← readValue read (2 * text.length + 2) limit text
  if skipSpace rest = [] then return v else .error .malformed

end Read

/-! ## Reading back a string -/

theorem hexValue_hexDigit {n : Nat} (h : n < 16) : hexValue (hexDigit n) = some n := by
  interval_cases n <;> decide

theorem readUnicode_control {n : Nat} (h : n < 32) (cs : List Char) :
    readUnicode ('0' :: '0' :: hexDigit (n / 16) :: hexDigit (n % 16) :: cs) =
      some (Char.ofNat n, cs) := by
  have h0 : hexValue '0' = some 0 := by decide
  have hhigh := hexValue_hexDigit (n := n / 16) (by omega)
  have hlow := hexValue_hexDigit (n := n % 16) (by omega)
  have hread : readHex4 ('0' :: '0' :: hexDigit (n / 16) :: hexDigit (n % 16) :: cs) =
      some (n, cs) := by
    simp only [readHex4, h0, hhigh, hlow, Option.bind_eq_bind, Option.bind_some, Option.pure_def,
      Option.some.injEq, Prod.mk.injEq, and_true]
    omega
  simp only [readUnicode, hread, Option.bind_eq_bind, Option.bind_some]
  rw [if_neg (by omega), if_neg (by omega)]
  rfl

/-- The shape of an escaped character: itself, a short escape or a code. -/
theorem escape_cases (c : Char) :
    (escape c = [c] ∧ c ≠ '"' ∧ c ≠ '\\' ∧ 32 ≤ c.toNat) ∨
    (∃ e, escape c = ['\\', e] ∧ e ≠ 'u' ∧ simpleEscape e = some c) ∨
    (escape c = ['\\', 'u', '0', '0', hexDigit (c.toNat / 16), hexDigit (c.toNat % 16)] ∧
      c.toNat < 32) := by
  have code {n : Nat} (h : c.toNat = n) : c = Char.ofNat n := by rw [← h, Char.ofNat_toNat]
  unfold escape
  split_ifs with h1 h2 h3 h4 h5 h6 h7 h8
  · exact .inr (.inl ⟨'"', rfl, by decide, by rw [h1]; decide⟩)
  · exact .inr (.inl ⟨'\\', rfl, by decide, by rw [h2]; decide⟩)
  · exact .inr (.inl ⟨'n', rfl, by decide, by rw [h3]; decide⟩)
  · exact .inr (.inl ⟨'r', rfl, by decide, by rw [h4]; decide⟩)
  · exact .inr (.inl ⟨'t', rfl, by decide, by rw [h5]; decide⟩)
  · exact .inr (.inl ⟨'b', rfl, by decide, by rw [code h6]; decide⟩)
  · exact .inr (.inl ⟨'f', rfl, by decide, by rw [code h7]; decide⟩)
  · exact .inr (.inr ⟨rfl, h8⟩)
  · exact .inl ⟨rfl, h1, h2, by omega⟩

theorem readChar_escape (c : Char) (rest : List Char) :
    readChar (escape c ++ rest) = some (c, rest) := by
  rcases escape_cases c with ⟨he, hq, hb, hc⟩ | ⟨e, he, hu, hs⟩ | ⟨he, hc⟩
  · rw [he]
    simp [readChar, hb, hc]
  · rw [he]
    simp [readChar, hu, hs]
  · rw [he]
    have h := readUnicode_control hc rest
    rw [Char.ofNat_toNat] at h
    simpa [readChar] using h

theorem escape_head (c : Char) : ∃ d ds, escape c = d :: ds ∧ d ≠ '"' := by
  rcases escape_cases c with ⟨he, hq, -, -⟩ | ⟨e, he, -, -⟩ | ⟨he, -⟩
  · exact ⟨_, _, he, hq⟩
  · exact ⟨_, _, he, by decide⟩
  · exact ⟨_, _, he, by decide⟩

theorem readChars_print (s : List Char) (fuel : Nat) (rest : List Char) (h : s.length < fuel) :
    readChars fuel (printChars s ++ rest) = some (s, rest) := by
  induction s generalizing fuel with
  | nil =>
    cases fuel with
    | zero => omega
    | succ fuel => simp [readChars, printChars]
  | cons c s ih =>
    cases fuel with
    | zero => omega
    | succ fuel =>
      obtain ⟨d, ds, hd, hq⟩ := escape_head c
      have hs := ih fuel (by simpa using h)
      have htext : printChars (c :: s) ++ rest = escape c ++ (printChars s ++ rest) := by
        simp [printChars]
      have hread := readChar_escape c (printChars s ++ rest)
      rw [htext]
      rw [hd, List.cons_append] at hread ⊢
      simp only [readChars, if_neg hq, hread, Option.bind_eq_bind, Option.bind_some, hs]
      rfl

theorem length_printChars (s : List Char) : s.length < (printChars s).length := by
  induction s with
  | nil => simp [printChars]
  | cons c s ih =>
    obtain ⟨d, ds, hd, -⟩ := escape_head c
    have htext : printChars (c :: s) = escape c ++ printChars s := by simp [printChars]
    rw [htext, hd]
    simp only [List.length_cons, List.length_append]
    omega

theorem readString_print (s : String) (rest : List Char) :
    readString (printChars s.toList ++ rest) = .ok (s, rest) := by
  have h := readChars_print s.toList ((printChars s.toList ++ rest).length + 1) rest
    (by have := length_printChars s.toList; simp only [List.length_append]; omega)
  unfold readString
  rw [h]
  simp

/-! ## Reading back a number -/

/-- A text that cannot continue a number. -/
def Stops (rest : List Char) : Prop := ∀ c cs, rest = c :: cs → isNumeric c = false

theorem stops_cons {c : Char} (h : isNumeric c = false) (cs : List Char) : Stops (c :: cs) := by
  intro d ds hd
  cases hd
  exact h

theorem stops_nil : Stops [] := by
  intro c cs h
  cases h

theorem readNumber_print {N : Numerals ν μ} (hN : N.Lawful) (n : ν) {rest : List Char}
    (hrest : Stops rest) :
    readNumber N.read (N.print n ++ rest) = .ok (.number (N.value n), rest) := by
  have hall : ∀ c ∈ N.print n, isNumeric c = true := hN.numeric n
  have htake : (N.print n ++ rest).takeWhile isNumeric = N.print n := by
    rw [List.takeWhile_append_of_pos hall]
    cases rest with
    | nil => simp
    | cons c cs => simp [hrest c cs rfl]
  have hdrop : (N.print n ++ rest).dropWhile isNumeric = rest := by
    rw [List.dropWhile_append_of_pos hall]
    cases rest with
    | nil => rfl
    | cons c cs => simp [hrest c cs rfl]
  simp only [readNumber, htake, hdrop, hN.read]

/-- Natural numbers in decimal, without leading zeros. -/
def decimal : Numerals Nat Nat where
  print := Nat.toDigits 10
  read cs :=
    if cs = [] ∨ ¬ cs.all Char.isDigit ∨ (2 ≤ cs.length ∧ cs.head? = some '0') then none
    else some (Nat.ofDigitChars 10 cs 0)
  value := id

theorem digits_head (n : Nat) (h : 2 ≤ (Nat.toDigits 10 n).length) :
    (Nat.toDigits 10 n).head? ≠ some '0' := by
  induction n using Nat.strong_induction_on with
  | _ n ih =>
    by_cases hn : n < 10
    · rw [Nat.toDigits_of_lt_base hn] at h
      simp at h
    · rw [Nat.toDigits_of_base_le (by decide) (by omega)] at h ⊢
      have hne : Nat.toDigits 10 (n / 10) ≠ [] := Nat.toDigits_ne_nil
      rw [List.head?_append_of_ne_nil _ hne]
      by_cases hm : n / 10 < 10
      · have hpos : 0 < n / 10 := by omega
        rw [Nat.toDigits_of_lt_base hm]
        generalize n / 10 = m at hm hpos
        interval_cases m <;> decide
      · apply ih (n / 10) (by omega)
        rw [Nat.toDigits_of_base_le (by decide) (by omega), List.length_append]
        have := List.length_pos_iff.mpr (Nat.toDigits_ne_nil (n := n / 10 / 10) (b := 10))
        simp only [List.length_cons, List.length_nil]
        omega

theorem decimal_digits {n : Nat} {c : Char} (h : c ∈ decimal.print n) : c.isDigit = true :=
  Nat.isDigit_of_mem_toDigits (by decide) (by decide) h

theorem decimal_lawful : decimal.Lawful where
  start n := by
    obtain ⟨c, cs, hc⟩ := List.exists_cons_of_ne_nil (Nat.toDigits_ne_nil (n := n) (b := 10))
    have hdigit : c.isDigit = true := decimal_digits (n := n) (by
      show c ∈ Nat.toDigits 10 n
      rw [hc]
      exact List.mem_cons_self)
    exact ⟨c, cs, hc, by simp [startsNumber, hdigit]⟩
  numeric n c hc := by
    simp [isNumeric, decimal_digits hc]
  read n := by
    have hall : (Nat.toDigits 10 n).all Char.isDigit = true := by
      rw [List.all_eq_true]
      exact fun c hc => decimal_digits hc
    have hguard : ¬ (Nat.toDigits 10 n = [] ∨ ¬ (Nat.toDigits 10 n).all Char.isDigit ∨
        (2 ≤ (Nat.toDigits 10 n).length ∧ (Nat.toDigits 10 n).head? = some '0')) := by
      rintro (h | h | ⟨hlen, hzero⟩)
      · exact Nat.toDigits_ne_nil h
      · exact h hall
      · exact digits_head n hlen hzero
    simp only [decimal, if_neg hguard, Nat.ofDigitChars_ten_toDigits, id]

/-! ## Reading back a value -/

theorem readWord_append (word : List Char) (v : Value μ) (rest : List Char) :
    readWord word v (word ++ rest) = .ok (v, rest) := by
  simp [readWord]

/-- No printed value starts with a space or a closing bracket. -/
theorem print_head {N : Numerals ν μ} (hN : N.Lawful) (v : Value ν) :
    ∃ c cs, print N v = c :: cs ∧ isSpace c = false ∧ c ≠ ']' := by
  cases v with
  | null => exact ⟨_, _, rfl, by decide, by decide⟩
  | bool b => cases b <;> exact ⟨_, _, rfl, by decide, by decide⟩
  | number n =>
    obtain ⟨c, cs, hc, hstart⟩ := hN.start n
    refine ⟨c, cs, hc, ?_, ?_⟩
    · by_contra hs
      simp only [isSpace, Bool.not_eq_false, Bool.or_eq_true, decide_eq_true_eq] at hs
      rcases hs with ((rfl | rfl) | rfl) | rfl <;> simp [startsNumber] at hstart
    · rintro rfl
      revert hstart
      decide
  | string s => exact ⟨_, _, rfl, by decide, by decide⟩
  | array items => exact ⟨_, _, rfl, by decide, by decide⟩
  | object entries => exact ⟨_, _, rfl, by decide, by decide⟩

theorem skipSpace_cons {c : Char} (h : isSpace c = false) (cs : List Char) :
    skipSpace (c :: cs) = c :: cs := by
  simp [skipSpace, h]

theorem readValue_number (read : List Char → Option μ) {c : Char} (h : startsNumber c = true)
    (fuel remaining : Nat) (cs : List Char) :
    readValue read (fuel + 1) remaining (c :: cs) = readNumber read (c :: cs) := by
  have not_start {d : Char} (hd : startsNumber d = false) : c ≠ d := by
    rintro rfl
    rw [h] at hd
    cases hd
  have hspace : isSpace c = false := by
    simp only [isSpace, not_start (d := ' ') (by decide), not_start (d := '\n') (by decide),
      not_start (d := '\t') (by decide), not_start (d := '\r') (by decide), decide_false,
      Bool.or_self]
  simp only [readValue, skipSpace_cons hspace, not_start (d := '"') (by decide),
    not_start (d := '[') (by decide), not_start (d := '\x7b') (by decide),
    not_start (d := 'n') (by decide), not_start (d := 't') (by decide),
    not_start (d := 'f') (by decide), if_false, h, if_true]

theorem stops_printItems (N : Numerals ν μ) (items : List (Value ν)) (rest : List Char) :
    Stops (printItems N false items ++ rest) := by
  cases items with
  | nil => exact stops_cons (by decide) _
  | cons v items => exact stops_cons (by decide) _

theorem stops_printEntries (N : Numerals ν μ) (entries : List (String × Value ν))
    (rest : List Char) : Stops (printEntries N false entries ++ rest) := by
  cases entries with
  | nil => exact stops_cons (by decide) _
  | cons e entries => exact stops_cons (by decide) _

mutual
/-- Reading back what is printed gives the value, or the recursion limit where it
is nested too deeply. By recursion on the value. -/
theorem readValue_print {N : Numerals ν μ} (hN : N.Lawful) :
    ∀ (v : Value ν) (fuel remaining : Nat) (rest : List Char), v.size ≤ fuel → Stops rest →
    readValue N.read fuel remaining (print N v ++ rest) =
      if v.depth ≤ remaining then .ok (v.map N.value, rest) else .error .recursionLimit
  | v, 0, _, _, hfuel, _ => by cases v <;> simp [Value.size] at hfuel
  | .null, fuel + 1, remaining, rest, _, _ => by
    have h := readWord_append ['u', 'l', 'l'] (Value.null : Value μ) rest
    simpa [print, readValue, skipSpace, isSpace, Value.depth, Value.map] using h
  | .bool true, fuel + 1, remaining, rest, _, _ => by
    have h := readWord_append ['r', 'u', 'e'] (Value.bool true : Value μ) rest
    simpa [print, readValue, skipSpace, isSpace, Value.depth, Value.map] using h
  | .bool false, fuel + 1, remaining, rest, _, _ => by
    have h := readWord_append ['a', 'l', 's', 'e'] (Value.bool false : Value μ) rest
    simpa [print, readValue, skipSpace, isSpace, Value.depth, Value.map] using h
  | .number n, fuel + 1, remaining, rest, _, hrest => by
    have h := readNumber_print hN n hrest
    obtain ⟨c, cs, hc, hstart⟩ := hN.start n
    simp only [print, hc, List.cons_append] at h ⊢
    rw [readValue_number N.read hstart, h]
    simp [Value.depth, Value.map]
  | .string s, fuel + 1, remaining, rest, _, _ => by
    have h := readString_print s rest
    simp [print, printString, readValue, skipSpace, isSpace, h, Value.depth, Value.map]
  | .array items, fuel + 1, remaining, rest, hfuel, _ => by
    have h := readItems_print hN items fuel (remaining - 1) true rest
      (by simpa [Value.size] using hfuel)
    simp only [print, List.cons_append, readValue, skipSpace_cons (c := '[') (by decide)]
    rw [if_neg (by decide), if_pos trivial, h]
    by_cases h0 : remaining = 0
    · simp [h0, Value.depth]
    · by_cases hd : Value.depthItems items ≤ remaining - 1
      · have hdepth : (Value.array items).depth ≤ remaining := by
          simp only [Value.depth]
          omega
        rw [if_neg h0, if_pos hd, if_pos hdepth]
        rfl
      · have hdepth : ¬ (Value.array items).depth ≤ remaining := by
          simp only [Value.depth]
          omega
        rw [if_neg h0, if_neg hd, if_neg hdepth]
        rfl
  | .object entries, fuel + 1, remaining, rest, hfuel, _ => by
    have h := readEntries_print hN entries fuel (remaining - 1) true rest
      (by simpa [Value.size] using hfuel)
    simp only [print, List.cons_append, readValue, skipSpace_cons (c := '\x7b') (by decide)]
    rw [if_neg (by decide), if_neg (by decide), if_pos trivial, h]
    by_cases h0 : remaining = 0
    · simp [h0, Value.depth]
    · by_cases hd : Value.depthEntries entries ≤ remaining - 1
      · have hdepth : (Value.object entries).depth ≤ remaining := by
          simp only [Value.depth]
          omega
        rw [if_neg h0, if_pos hd, if_pos hdepth]
        rfl
      · have hdepth : ¬ (Value.object entries).depth ≤ remaining := by
          simp only [Value.depth]
          omega
        rw [if_neg h0, if_neg hd, if_neg hdepth]
        rfl

theorem readItems_print {N : Numerals ν μ} (hN : N.Lawful) :
    ∀ (items : List (Value ν)) (fuel remaining : Nat) (first : Bool)
    (rest : List Char), Value.sizeItems items ≤ fuel →
    readItems N.read fuel remaining first (printItems N first items ++ rest) =
      if Value.depthItems items ≤ remaining then .ok (Value.mapItems N.value items, rest)
      else .error .recursionLimit
  | items, 0, _, _, _, hfuel => by cases items <;> simp [Value.sizeItems] at hfuel
  | [], fuel + 1, remaining, first, rest, _ => by
    simp [printItems, readItems, skipSpace, isSpace, Value.depthItems, Value.mapItems]
  | v :: items, fuel + 1, remaining, first, rest, hfuel => by
    simp only [Value.sizeItems] at hfuel
    have hv := readValue_print hN v fuel remaining (printItems N false items ++ rest) (by omega)
      (stops_printItems N items rest)
    have hitems := readItems_print hN items fuel remaining false rest (by omega)
    have hread : readItems N.read (fuel + 1) remaining first
        (printItems N first (v :: items) ++ rest) =
        (readValue N.read fuel remaining (print N v ++ (printItems N false items ++ rest))).bind
          fun (v, cs) => (readItems N.read fuel remaining false cs).bind
            fun (items, cs) => .ok (v :: items, cs) := by
      cases first with
      | true =>
        obtain ⟨c, cs, hc, hspace, hclose⟩ := print_head hN v
        simp only [printItems, if_true, List.nil_append, List.append_assoc, hc, List.cons_append,
          readItems, skipSpace_cons hspace, if_neg hclose, true_or]
        rfl
      | false =>
        simp only [printItems, Bool.false_eq_true, if_false, List.cons_append, List.nil_append,
          List.append_assoc, readItems, skipSpace_cons (c := ',') (by decide), or_true, if_true]
        rw [if_neg (by decide)]
        rfl
    rw [hread, hv]
    simp only [Value.depthItems, Value.mapItems, max_le_iff]
    by_cases h1 : v.depth ≤ remaining
    · rw [if_pos h1]
      simp only [Except.bind, hitems, h1, true_and]
      by_cases h2 : Value.depthItems items ≤ remaining
      · rw [if_pos h2, if_pos h2]
      · rw [if_neg h2, if_neg h2]
    · simp only [h1, if_false, false_and, Except.bind]

theorem readEntries_print {N : Numerals ν μ} (hN : N.Lawful) :
    ∀ (entries : List (String × Value ν)) (fuel remaining : Nat)
    (first : Bool) (rest : List Char), Value.sizeEntries entries ≤ fuel →
    readEntries N.read fuel remaining first (printEntries N first entries ++ rest) =
      if Value.depthEntries entries ≤ remaining then .ok (Value.mapEntries N.value entries, rest)
      else .error .recursionLimit
  | entries, 0, _, _, _, hfuel => by cases entries <;> simp [Value.sizeEntries] at hfuel
  | [], fuel + 1, remaining, first, rest, _ => by
    simp [printEntries, readEntries, skipSpace, isSpace, Value.depthEntries, Value.mapEntries]
  | (key, v) :: entries, fuel + 1, remaining, first, rest, hfuel => by
    simp only [Value.sizeEntries] at hfuel
    have hv := readValue_print hN v fuel remaining (printEntries N false entries ++ rest) (by omega)
      (stops_printEntries N entries rest)
    have hentries := readEntries_print hN entries fuel remaining false rest (by omega)
    have hkey := readString_print key
      (':' :: (print N v ++ (printEntries N false entries ++ rest)))
    have hread : readEntries N.read (fuel + 1) remaining first
        (printEntries N first ((key, v) :: entries) ++ rest) =
        (readValue N.read fuel remaining (print N v ++ (printEntries N false entries ++ rest))).bind
          fun (v, cs) => (readEntries N.read fuel remaining false cs).bind
            fun (entries, cs) => .ok ((key, v) :: entries, cs) := by
      cases first with
      | true =>
        simp only [printEntries, if_true, List.nil_append, List.append_assoc, printString,
          List.cons_append, readEntries, skipSpace_cons (c := '"') (by decide), true_or]
        rw [if_neg (by decide), hkey]
        simp only [bind, Except.bind, skipSpace_cons (c := ':') (by decide)]
        rfl
      | false =>
        simp only [printEntries, Bool.false_eq_true, if_false, List.cons_append, List.nil_append,
          List.append_assoc, printString, readEntries, skipSpace_cons (c := ',') (by decide),
          skipSpace_cons (c := '"') (by decide), or_true, if_true]
        rw [if_neg (by decide), hkey]
        simp only [bind, Except.bind, skipSpace_cons (c := ':') (by decide)]
        rfl
    rw [hread, hv]
    simp only [Value.depthEntries, Value.mapEntries, max_le_iff]
    by_cases h1 : v.depth ≤ remaining
    · rw [if_pos h1]
      simp only [Except.bind, hentries, h1, true_and]
      by_cases h2 : Value.depthEntries entries ≤ remaining
      · rw [if_pos h2, if_pos h2]
      · rw [if_neg h2, if_neg h2]
    · simp only [h1, if_false, false_and, Except.bind]
end

mutual
/-- A text is long enough for the reader's calls. -/
theorem size_le_length {N : Numerals ν μ} (hN : N.Lawful) :
    ∀ v : Value ν, v.size + 1 ≤ 2 * (print N v).length
  | .null => by simp [Value.size, print]
  | .bool true => by simp [Value.size, print]
  | .bool false => by simp [Value.size, print]
  | .number n => by
    obtain ⟨c, cs, hc, -⟩ := hN.start n
    simp only [Value.size, print, hc, List.length_cons]
    omega
  | .string s => by
    simp only [Value.size, print, printString, List.length_cons]
    omega
  | .array items => by
    have := sizeItems_le_length hN items true
    simp only [Value.size, print, List.length_cons]
    omega
  | .object entries => by
    have := sizeEntries_le_length hN entries true
    simp only [Value.size, print, List.length_cons]
    omega

theorem sizeItems_le_length {N : Numerals ν μ} (hN : N.Lawful) :
    ∀ (items : List (Value ν)) (first : Bool),
      Value.sizeItems items ≤ 2 * (printItems N first items).length
  | [], _ => by simp [Value.sizeItems, printItems]
  | v :: items, _ => by
    have := size_le_length hN v
    have := sizeItems_le_length hN items false
    simp only [Value.sizeItems, printItems, List.length_append]
    omega

theorem sizeEntries_le_length {N : Numerals ν μ} (hN : N.Lawful) :
    ∀ (entries : List (String × Value ν)) (first : Bool),
      Value.sizeEntries entries ≤ 2 * (printEntries N first entries).length
  | [], _ => by simp [Value.sizeEntries, printEntries]
  | (key, v) :: entries, _ => by
    have := size_le_length hN v
    have := sizeEntries_le_length hN entries false
    simp only [Value.sizeEntries, printEntries, List.length_append, List.length_cons]
    omega
end

/-- The text of a value is read back exactly where the value fits the limit. -/
theorem parse_print {N : Numerals ν μ} (hN : N.Lawful) (limit : Nat) (v : Value ν) :
    parse N.read limit (print N v) =
      if v.depth ≤ limit then .ok (v.map N.value) else .error .recursionLimit := by
  have hsize := size_le_length hN v
  have h := readValue_print hN v (2 * (print N v).length + 2) limit [] (by omega) stops_nil
  rw [List.append_nil] at h
  unfold parse
  rw [h]
  by_cases hd : v.depth ≤ limit
  · rw [if_pos hd, if_pos hd]
    rfl
  · rw [if_neg hd, if_neg hd]
    rfl

end IntoMarkdown.Lib.Json
