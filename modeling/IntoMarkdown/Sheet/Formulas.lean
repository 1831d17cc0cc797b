import IntoMarkdown.Lib.Strings

/-! # Shared formulas

One pass over the text of a formula copies what is quoted, moves what reads as a reference of a
cell, and copies every other character. -/

namespace IntoMarkdown.Sheet
open Lib Strings

def maxExcelRows : Nat := 1048576

def maxExcelColumns : Nat := 16384

/-- Of a byte; every character that is not ASCII is of such bytes alone. -/
def isFormulaIdentifier (c : Char) : Bool := isAsciiAlphanumeric c || c = '_' || !isAscii c

/-- What follows an opening quote: up to the closing one, and the rest. Two quotes in a row do
not close. -/
def quotedToken (quote : Char) : Text → Text × Text
  | [] => ([], [])
  | [c] => ([c], [])
  | c :: d :: rest =>
    if c ≠ quote then
      let token := quotedToken quote (d :: rest)
      (c :: token.1, token.2)
    else if d = quote then
      let token := quotedToken quote rest
      (c :: d :: token.1, token.2)
    else ([c], d :: rest)

/-- `A` is 1. -/
def letterValue (c : Char) : Nat :=
  if 97 ≤ c.toNat then c.toNat - 96 else c.toNat - 64

def parseColumn (letters : Text) : Option Nat :=
  let value := letters.foldl (fun value c => value * 26 + letterValue c) 0
  if value = 0 then none
  else if value - 1 < maxExcelColumns then some (value - 1) else none

def columnLetter (n : Nat) : Char := Char.ofNat (65 + n)

/-- The letters of a column, as many as there is room for. -/
def columnLetters : Nat → Nat → Text
  | 0, _ => []
  | room + 1, column =>
    if column < 26 then [columnLetter (column % 26)]
    else columnLetters room (column / 26 - 1) ++ [columnLetter (column % 26)]

def columnName (column : Nat) : Text := columnLetters 3 column

/-- What reads as the reference of a cell. -/
structure Reference where
  columnAbsolute : Bool
  letters : Text
  rowAbsolute : Bool
  digits : Text
  deriving DecidableEq, Repr

/-- The first part of `translated_reference_at`: what stands here, and the rest. -/
def readReference (previous : Option Char) (text : Text) : Option (Reference × Text) :=
  if previous.any isFormulaIdentifier then none
  else
    let columnAbsolute := text.head? = some '$'
    let text := if columnAbsolute then text.tail else text
    let letters := text.takeWhile isAsciiAlphabetic
    let text := text.dropWhile isAsciiAlphabetic
    if letters = [] ∨ 3 < letters.length then none
    else
      let rowAbsolute := text.head? = some '$'
      let text := if rowAbsolute then text.tail else text
      let digits := text.takeWhile isAsciiDigit
      let text := text.dropWhile isAsciiDigit
      if digits = [] ∨ text.head?.any isFormulaIdentifier ∨ text.head? = some '(' ∨
          text.head? = some '!' then none
      else some (⟨columnAbsolute, letters, rowAbsolute, digits⟩, text)

/-- The second part: the reference so many rows and columns further, where that is on the grid. -/
def Reference.translate (rowDelta columnDelta : Int) (reference : Reference) : Option Text := do
  let column ← parseColumn reference.letters
  let number ← (decimal reference.digits).filter (· < 2 ^ 63)
  let row : Int := number - 1
  let row := if reference.rowAbsolute then row else row + rowDelta
  let column : Int := if reference.columnAbsolute then column else column + columnDelta
  if 0 ≤ row ∧ row < maxExcelRows ∧ 0 ≤ column ∧ column < maxExcelColumns then
    some ((if reference.columnAbsolute then ['$'] else []) ++ columnName column.toNat ++
      (if reference.rowAbsolute then ['$'] else []) ++ natText (row.toNat + 1))
  else none

def translatedReferenceAt (rowDelta columnDelta : Int) (previous : Option Char) (text : Text) :
    Option (Text × Text × Option Char) := do
  let (reference, rest) ← readReference previous text
  let translated ← reference.translate rowDelta columnDelta
  return (translated, rest, reference.digits.getLast?)

/-- The loop, with the character before. Each turn takes a character at least. -/
def translateFrom (rowDelta columnDelta : Int) : Nat → Option Char → Text → Text
  | 0, _, _ => []
  | _, _, [] => []
  | fuel + 1, previous, c :: text =>
    if c = '"' ∨ c = '\'' then
      let token := quotedToken c text
      c :: token.1 ++
        translateFrom rowDelta columnDelta fuel (some (token.1.getLast?.getD c)) token.2
    else
      match translatedReferenceAt rowDelta columnDelta previous (c :: text) with
      | some (translated, rest, last) =>
        translated ++ translateFrom rowDelta columnDelta fuel last rest
      | none => c :: translateFrom rowDelta columnDelta fuel (some c) text

abbrev CellCoordinate := Nat × Nat

def translateSharedFormula (formula : Text) (anchor target : CellCoordinate) : Text :=
  translateFrom ((target.1 : Int) - anchor.1) ((target.2 : Int) - anchor.2) formula.length none
    formula

example : translateSharedFormula "LOG10(A1)".toList (0, 0) (1, 0) = "LOG10(A2)".toList := by
  decide +kernel

end IntoMarkdown.Sheet
