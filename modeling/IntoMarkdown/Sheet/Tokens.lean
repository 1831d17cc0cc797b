import IntoMarkdown.Sheet.Columns
import IntoMarkdown.Sheet.Position

/-! # Formulas as tokens

What the parts of a formula are, how they are written, and what is left of them in another cell. -/

namespace IntoMarkdown.Sheet
open Lib Strings

/-! ## References -/

def dollar (isAbsolute : Bool) : Text := if isAbsolute then ['$'] else []

def Reference.text (reference : Reference) : Text :=
  dollar reference.columnAbsolute ++ reference.letters ++ dollar reference.rowAbsolute ++
    reference.digits

/-- One end of a range of whole columns or rows. -/
structure Edge where
  isAbsolute : Bool
  spelling : Text
  deriving DecidableEq, Repr

def Edge.text (edge : Edge) : Text := dollar edge.isAbsolute ++ edge.spelling

/-- The row of decimal digits, on the grid. -/
def parseRow (digits : Text) : Option Nat :=
  match decimal digits with
  | some (n + 1) => if n < maxExcelRows then some n else none
  | _ => none

/-- Where a column or a row goes, if that is on the grid. -/
def movedIndex (bound : Nat) (isAbsolute : Bool) (delta : Int) (index : Nat) : Option Nat :=
  let moved : Int := if isAbsolute then index else index + delta
  if 0 ≤ moved ∧ moved < bound then some moved.toNat else none

/-- The letters of a column so many columns further; as they are where they stay. -/
def movedLetters (isAbsolute : Bool) (delta : Int) (letters : Text) : Option Text := do
  let column ← parseColumn letters
  let moved ← movedIndex maxExcelColumns isAbsolute delta column
  return if moved = column then letters else columnName moved

def movedDigits (isAbsolute : Bool) (delta : Int) (digits : Text) : Option Text := do
  let row ← parseRow digits
  let moved ← movedIndex maxExcelRows isAbsolute delta row
  return if moved = row then digits else natText (moved + 1)

/-! ## Tokens -/

inductive Token where
  /-- Text in double quotes. -/
  | literal (body : Text)
  /-- The name of a sheet or a workbook in single quotes. -/
  | qualifier (body : Text)
  | cell (reference : Reference)
  | columns (first last : Edge)
  | rows (first last : Edge)
  /-- A number, or the name of a function, a sheet, a table or something defined. -/
  | word (text : Text)
  /-- What stands in brackets: a structured reference, or an external workbook. -/
  | bracket (body : Text)
  /-- An operator, a bracket, a separator or a space. -/
  | symbol (c : Char)
  deriving DecidableEq, Repr

/-- Every quote twice. -/
def doubled (quote : Char) (body : Text) : Text :=
  body.flatMap fun c => if c = quote then [quote, quote] else [c]

def quoted (quote : Char) (body : Text) : Text := quote :: doubled quote body ++ [quote]

def Token.text : Token → Text
  | .literal body => quoted '"' body
  | .qualifier body => quoted '\'' body
  | .cell reference => reference.text
  | .columns first last => first.text ++ ':' :: last.text
  | .rows first last => first.text ++ ':' :: last.text
  | .word text => text
  | .bracket body => '[' :: body ++ [']']
  | .symbol c => [c]

def render (formula : List Token) : Text := formula.flatMap Token.text

/-- Of a number or a name. -/
def isWordChar (c : Char) : Bool := isFormulaIdentifier c || c = '.' || c = '\\' || c = '?'

def isQuote (c : Char) : Bool := c = '"' || c = '\''

/-- Written as a reference, wherever it points. -/
structure Reference.Spelled (reference : Reference) : Prop where
  letters : reference.letters.all isAsciiAlphabetic = true
  some_letter : reference.letters ≠ []
  few_letters : reference.letters.length ≤ 3
  digits : reference.digits.all isAsciiDigit = true
  some_digit : reference.digits ≠ []

structure Reference.OnGrid (reference : Reference) : Prop extends reference.Spelled where
  column : (parseColumn reference.letters).isSome
  row : (parseRow reference.digits).isSome

def Edge.IsColumn (edge : Edge) : Prop :=
  edge.spelling.all isAsciiAlphabetic = true ∧ edge.spelling ≠ [] ∧
    (parseColumn edge.spelling).isSome

def Edge.IsRow (edge : Edge) : Prop :=
  edge.spelling.all isAsciiDigit = true ∧ edge.spelling ≠ [] ∧ (parseRow edge.spelling).isSome

namespace Token

/-- Well written. -/
def Well : Token → Prop
  | .cell reference => reference.OnGrid
  | .columns first last => first.IsColumn ∧ last.IsColumn
  | .rows first last => first.IsRow ∧ last.IsRow
  | .word text => text ≠ [] ∧ text.all isWordChar = true
  | .symbol c => isWordChar c = false ∧ isQuote c = false ∧ c ≠ '$' ∧ c ≠ '[' ∧ c ≠ ']'
  | _ => True

/-- Two of these cannot stand side by side. -/
def wordy : Token → Bool
  | .cell _ => true
  | .columns _ _ => true
  | .rows _ _ => true
  | .word _ => true
  | _ => false

/-- What may stand right behind a token. -/
def Fits (token next : Token) : Prop :=
  (token.wordy = true → next.wordy = false) ∧
    match token, next with
    | .literal _, .literal _ => False
    | .qualifier _, .qualifier _ => False
    | .cell _, .symbol c => c ≠ '(' ∧ c ≠ '!'
    | _, _ => True

/-- What a token is so many rows and columns further: the relative parts of a reference move, where
it stays on the grid. -/
def shifted (rowDelta columnDelta : Int) : Token → Token
  | .cell reference =>
    match movedLetters reference.columnAbsolute columnDelta reference.letters,
        movedDigits reference.rowAbsolute rowDelta reference.digits with
    | some letters, some digits => .cell { reference with letters, digits }
    | _, _ => .cell reference
  | .columns first last =>
    match movedLetters first.isAbsolute columnDelta first.spelling,
        movedLetters last.isAbsolute columnDelta last.spelling with
    | some a, some b => .columns { first with spelling := a } { last with spelling := b }
    | _, _ => .columns first last
  | .rows first last =>
    match movedDigits first.isAbsolute rowDelta first.spelling,
        movedDigits last.isAbsolute rowDelta last.spelling with
    | some a, some b => .rows { first with spelling := a } { last with spelling := b }
    | _, _ => .rows first last
  | token => token

end Token

/-- A formula of the grammar. -/
def Formed : List Token → Prop
  | [] => True
  | token :: rest => token.Well ∧ (∀ next ∈ rest.head?, token.Fits next) ∧ Formed rest

/-- The formula as it stands in another cell. -/
def shiftedFormula (anchor target : CellCoordinate) (formula : List Token) : List Token :=
  formula.map (Token.shifted ((target.1 : Int) - anchor.1) ((target.2 : Int) - anchor.2))

/-! ## What the one pass can tell -/

/-- In some cell this reads as another reference. -/
def Reference.Moves (reference : Reference) : Prop :=
  ∃ anchor target, InGrid anchor ∧ InGrid target ∧
    ∃ text, reference.translate ((target.1 : Int) - anchor.1) ((target.2 : Int) - anchor.2) =
      some text ∧ text ≠ reference.text

/-- Nothing in a text, before the next character, reads as a reference that moves. -/
def Quiet (text : Text) (next : Option Char) : Prop :=
  ∀ front back reference rest, text = front ++ back →
    readReference front.getLast? (back ++ next.toList) = some (reference, rest) →
      ¬ reference.Moves

/-- In capitals and without leading zeros. -/
def Reference.Canonical (reference : Reference) : Prop :=
  ∃ column row, column < maxExcelColumns ∧ row < maxExcelRows ∧
    reference.letters = columnName column ∧ reference.digits = natText (row + 1)

/-- The token stays as it is in every cell. -/
def Token.Stays (token : Token) : Prop :=
  ∀ anchor target, InGrid anchor → InGrid target →
    token.shifted ((target.1 : Int) - anchor.1) ((target.2 : Int) - anchor.2) = token

/-- What makes one pass over the characters enough for a token. -/
def Token.Clear (next : Option Char) : Token → Prop
  | .cell reference => reference.Canonical
  | .columns first last => (Token.columns first last).Stays
  | .rows first last => (Token.rows first last).Stays
  | .word text => Quiet text next
  | .bracket body => body.any isQuote = false ∧ Quiet ('[' :: body) (some ']')
  | _ => True

def Clear : List Token → Prop
  | [] => True
  | token :: rest => token.Clear (render rest).head? ∧ Clear rest

end IntoMarkdown.Sheet
