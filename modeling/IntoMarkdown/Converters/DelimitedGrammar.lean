import IntoMarkdown.Converters.Delimited

/-! # The grammar of delimited text

Texts as they are written, field by field, the records of such a text with their byte
ranges, and what the scan makes of them. -/

namespace IntoMarkdown.Converters.Delimited
open Lib Strings

/-! ## Written text -/

/-- A field as it is written. -/
inductive Field where
  | quoted (value : Text)
  | plain (value : Text)
  deriving DecidableEq, Repr

/-- Inner quotes are doubled. -/
def escape (value : Text) : Text := value.flatMap fun c => if c = '"' then ['"', '"'] else [c]

@[simp] theorem escape_nil : escape [] = [] := rfl

theorem escape_quote (value : Text) : escape ('"' :: value) = '"' :: '"' :: escape value := rfl

theorem escape_other {c : Char} (h : c ≠ '"') (value : Text) :
    escape (c :: value) = c :: escape value := by
  simp [escape, h]

theorem escape_append (a b : Text) : escape (a ++ b) = escape a ++ escape b :=
  List.flatMap_append

namespace Field

def value : Field → Text
  | quoted value => value
  | plain value => value

def text : Field → Text
  | quoted value => '"' :: (escape value ++ ['"'])
  | plain value => value

def isQuoted : Field → Bool
  | quoted _ => true
  | plain _ => false

end Field

/-- Characters that an unquoted field may have. -/
def Free (delimiter c : Char) : Prop := c ≠ '"' ∧ c ≠ delimiter ∧ isLineBreak c = false

def Field.Valid (delimiter : Char) : Field → Prop
  | quoted _ => True
  | plain value => ∀ c ∈ value, Free delimiter c

inductive Terminator where
  | cr | lf | crlf
  deriving DecidableEq, Repr

def Terminator.text : Terminator → Text
  | cr => ['\r']
  | lf => ['\n']
  | crlf => ['\r', '\n']

/-- A record with its terminator. -/
abbrev Row := List Field × Terminator

/-- A whole text: terminated records, and one without a terminator after them. -/
structure Written where
  rows : List Row
  last : Option (List Field)

section
variable (delimiter : Char)

def fieldsText : List Field → Text
  | [] => []
  | f :: rest => f.text ++ rest.flatMap fun g => delimiter :: g.text

def rowText (row : Row) : Text := fieldsText delimiter row.1 ++ row.2.text

def rowsText (rows : List Row) : Text := rows.flatMap (rowText delimiter)

def Written.text (w : Written) : Text :=
  rowsText delimiter w.rows ++ w.last.elim [] (fieldsText delimiter)

/-- A record has a field, and each field is well written. -/
def ValidFields (fields : List Field) : Prop := fields ≠ [] ∧ ∀ f ∈ fields, f.Valid delimiter

structure Written.Valid (w : Written) : Prop where
  rows : ∀ row ∈ w.rows, ValidFields delimiter row.1
  last : ∀ fields ∈ w.last, ValidFields delimiter fields
  nonempty : w.rows ≠ [] ∨ w.last ≠ none

/-! ## The records of a written text -/

def layoutFields : Nat → List Field → List RawField
  | _, [] => []
  | start, f :: rest =>
    ⟨f.value, start, start + byteLength f.text⟩ ::
      layoutFields (start + byteLength f.text + delimiter.utf8Size) rest

def layoutRecord (start : Nat) (fields : List Field) : RawRecord :=
  ⟨layoutFields delimiter start fields, start, start + byteLength (fieldsText delimiter fields)⟩

def layoutRows : Nat → List Row → List RawRecord
  | _, [] => []
  | start, row :: rest =>
    layoutRecord delimiter start row.1 ::
      layoutRows (start + byteLength (rowText delimiter row)) rest

def Written.layout (w : Written) : List RawRecord :=
  layoutRows delimiter 0 w.rows ++
    w.last.toList.map (layoutRecord delimiter (byteLength (rowsText delimiter w.rows)))

variable {delimiter}

@[simp] theorem rowsText_nil : rowsText delimiter [] = [] := rfl

@[simp] theorem rowsText_cons (row : Row) (rows : List Row) :
    rowsText delimiter (row :: rows) = rowText delimiter row ++ rowsText delimiter rows := rfl

theorem rowsText_append (a b : List Row) :
    rowsText delimiter (a ++ b) = rowsText delimiter a ++ rowsText delimiter b :=
  List.flatMap_append

/-- Fields that each have a delimiter after them. -/
def openText (delimiter : Char) (fields : List Field) : Text :=
  fields.flatMap fun f => f.text ++ [delimiter]

theorem fieldsText_concat (fields : List Field) (f : Field) :
    fieldsText delimiter (fields ++ [f]) = openText delimiter fields ++ f.text := by
  cases fields with
  | nil => simp [fieldsText, openText]
  | cons g rest =>
    simp only [fieldsText, List.cons_append, List.flatMap_append, openText, List.flatMap_cons,
      List.append_assoc]
    congr 1
    induction rest with
    | nil => simp
    | cons h rest ih => simpa using ih

theorem layoutFields_concat (start : Nat) (fields : List Field) (f : Field) :
    layoutFields delimiter start (fields ++ [f]) = layoutFields delimiter start fields ++
      [⟨f.value, start + byteLength (openText delimiter fields),
        start + byteLength (openText delimiter fields) + byteLength f.text⟩] := by
  induction fields generalizing start with
  | nil => rfl
  | cons g rest ih =>
    simp only [layoutFields, List.cons_append, ih, openText, List.flatMap_cons,
      byteLength_append, byteLength_cons, byteLength_nil]
    congr 4 <;> omega

theorem layoutRows_concat (start : Nat) (rows : List Row) (row : Row) :
    layoutRows delimiter start (rows ++ [row]) = layoutRows delimiter start rows ++
      [layoutRecord delimiter (start + byteLength (rowsText delimiter rows)) row.1] := by
  induction rows generalizing start with
  | nil => rfl
  | cons first rest ih =>
    simp only [layoutRows, List.cons_append, ih, rowsText_cons, byteLength_append, Nat.add_assoc]

theorem layoutFields_values (start : Nat) (fields : List Field) :
    (layoutFields delimiter start fields).map (·.value) = fields.map (·.value) := by
  induction fields generalizing start with
  | nil => rfl
  | cons f rest ih => simp only [layoutFields, List.map_cons, ih]

theorem layoutRows_values (start : Nat) (rows : List Row) :
    (layoutRows delimiter start rows).map (fun r => r.fields.map (·.value)) =
      rows.map fun row => row.1.map (·.value) := by
  induction rows generalizing start with
  | nil => rfl
  | cons row rest ih =>
    simp only [layoutRows, List.map_cons, ih, layoutRecord, layoutFields_values]

end

end IntoMarkdown.Converters.Delimited
