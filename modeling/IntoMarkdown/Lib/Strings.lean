import IntoMarkdown.Lib.Utf8

/-! # Operations on text

Text as a list of characters, with the operations of the standard string type. -/

namespace IntoMarkdown.Lib.Strings

abbrev Text := List Char

/-- The `White_Space` characters of Unicode. -/
def isWhitespace (c : Char) : Bool :=
  let n := c.toNat
  (9 ≤ n && n ≤ 13) || n = 0x20 || n = 0x85 || n = 0xa0 || n = 0x1680 ||
  (0x2000 ≤ n && n ≤ 0x200a) || n = 0x2028 || n = 0x2029 || n = 0x202f || n = 0x205f || n = 0x3000

def isControl (c : Char) : Bool := c.toNat < 0x20 || (0x7f ≤ c.toNat && c.toNat < 0xa0)

def isAscii (c : Char) : Bool := c.toNat < 0x80

def isAsciiPunctuation (c : Char) : Bool :=
  let n := c.toNat
  (33 ≤ n && n ≤ 47) || (58 ≤ n && n ≤ 64) || (91 ≤ n && n ≤ 96) || (123 ≤ n && n ≤ 126)

def isAsciiDigit (c : Char) : Bool := 48 ≤ c.toNat && c.toNat ≤ 57

def isAsciiAlphabetic (c : Char) : Bool :=
  (65 ≤ c.toNat && c.toNat ≤ 90) || (97 ≤ c.toNat && c.toNat ≤ 122)

def isAsciiAlphanumeric (c : Char) : Bool := isAsciiDigit c || isAsciiAlphabetic c

/-- `len()`: the bytes in UTF-8. -/
def byteLength (text : Text) : Nat := (text.map Char.utf8Size).sum

@[simp] theorem byteLength_nil : byteLength [] = 0 := rfl

@[simp] theorem byteLength_cons (c : Char) (text : Text) :
    byteLength (c :: text) = c.utf8Size + byteLength text := rfl

@[simp] theorem byteLength_append (a b : Text) :
    byteLength (a ++ b) = byteLength a + byteLength b := by
  simp [byteLength]

def trimStart (text : Text) : Text := text.dropWhile isWhitespace

def trimEnd (text : Text) : Text := (text.reverse.dropWhile isWhitespace).reverse

def trim (text : Text) : Text := trimEnd (trimStart text)

/-- What `trim` takes off at the front. -/
def leading (text : Text) : Text := text.takeWhile isWhitespace

/-- What `trim` takes off at the end. -/
def trailing (text : Text) : Text := (text.reverse.takeWhile isWhitespace).reverse

def trimEndMatches (c : Char) (text : Text) : Text := (text.reverse.dropWhile (· = c)).reverse

def replaceChar (c : Char) (by' : Text) (text : Text) : Text :=
  text.flatMap fun d => if d = c then by' else [d]

/-- Replaces two characters in a row, from the left. -/
def replacePair (c d : Char) (by' : Text) : Text → Text
  | [] => []
  | [a] => [a]
  | a :: b :: rest =>
    if a = c ∧ b = d then by' ++ replacePair c d by' rest
    else a :: replacePair c d by' (b :: rest)

def natText (n : Nat) : Text := (Nat.repr n).toList

def splitOnce (c : Char) (text : Text) : Option (Text × Text) :=
  if c ∈ text then some (text.takeWhile (· ≠ c), (text.dropWhile (· ≠ c)).tail) else none

def splitOn (c : Char) (text : Text) : List Text :=
  text.foldr (fun d parts => if d = c then [] :: parts else (d :: parts.headD []) :: parts.tail)
    [[]]

/-- `lines()`: no line after a last line feed, and a carriage return before one is dropped. -/
def lines (text : Text) : List Text :=
  let parts := splitOn '\n' text
  let parts := if parts.getLast? = some [] then parts.dropLast else parts
  let last := parts.length - 1
  parts.mapIdx fun index part =>
    if (index < last || text.getLast? = some '\n') && part.getLast? = some '\r' then part.dropLast
    else part

def stripPrefix (start text : Text) : Option Text :=
  if start <+: text then some (text.drop start.length) else none

def stripSuffix (stop text : Text) : Option Text :=
  if stop <:+ text then some (text.take (text.length - stop.length)) else none

def toAsciiLowercase (text : Text) : Text :=
  text.map fun c => if 65 ≤ c.toNat ∧ c.toNat ≤ 90 then Char.ofNat (c.toNat + 32) else c

def toAsciiUppercase (text : Text) : Text :=
  text.map fun c => if 97 ≤ c.toNat ∧ c.toNat ≤ 122 then Char.ofNat (c.toNat - 32) else c

/-- The value of decimal digits; some, and nothing else. -/
def decimal (text : Text) : Option Nat :=
  if text ≠ [] ∧ text.all isAsciiDigit then
    some (text.foldl (fun total c => total * 10 + (c.toNat - 48)) 0)
  else none

/-- `parse` of an unsigned integer below the bound, which may have a plus sign. -/
def parseUnsigned (bound : Nat) (text : Text) : Option Nat :=
  (decimal ((stripPrefix ['+'] text).getD text)).filter (· < bound)

def longestRun (needle : Char) (text : Text) : Nat :=
  (text.foldl (fun runs c =>
    if c = needle then (max runs.1 (runs.2 + 1), runs.2 + 1) else (runs.1, 0)) (0, 0)).1

end IntoMarkdown.Lib.Strings
