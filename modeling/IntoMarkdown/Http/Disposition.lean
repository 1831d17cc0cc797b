import IntoMarkdown.Lib.Uri
import IntoMarkdown.Http.Head

/-! # The grammar of Content-Disposition

A disposition type, then parameters after semicolons, each value a token or a quoted
string; which file name a header gives; and which headers have the two readings,
the grammar's and the one piece by piece, agree. -/

namespace IntoMarkdown.Http
open Lib

/-! ## Characters -/

/-- A character of a token. -/
def isTokenChar (c : Char) : Bool :=
  (48 ≤ c.toNat && c.toNat ≤ 57) || (65 ≤ c.toNat && c.toNat ≤ 90) ||
    (97 ≤ c.toNat && c.toNat ≤ 122) ||
    c ∈ ['!', '#', '$', '%', '&', Char.ofNat 39, '*', '+', '-', '.', '^', '_', Char.ofNat 96, '|', '~']

/-- A tab, a space, a visible character or one beyond ASCII. -/
def isFieldChar (c : Char) : Bool := c = '\t' || (32 ≤ c.toNat && c.toNat ≠ 127)

def isBlank (c : Char) : Bool := c = ' ' || c = '\t'

def IsToken (text : Text) : Prop := text ≠ [] ∧ ∀ c ∈ text, isTokenChar c = true

/-! ## Derivations -/

inductive Quoted where
  | plain (c : Char)
  | pair (c : Char)

namespace Quoted

def text : Quoted → Text
  | plain c => [c]
  | pair c => ['\\', c]

def content : Quoted → Char
  | plain c => c
  | pair c => c

def Valid : Quoted → Prop
  | plain c => isFieldChar c = true ∧ c ≠ '"' ∧ c ≠ '\\'
  | pair c => isFieldChar c = true

end Quoted

inductive ParameterValue where
  | token (text : Text)
  | quoted (parts : List Quoted)

namespace ParameterValue

def text : ParameterValue → Text
  | token text => text
  | quoted parts => '"' :: (parts.flatMap Quoted.text ++ ['"'])

def content : ParameterValue → Text
  | token text => text
  | quoted parts => parts.map Quoted.content

def Valid : ParameterValue → Prop
  | token text => IsToken text
  | quoted parts => ∀ part ∈ parts, part.Valid

end ParameterValue

structure Parameter where
  name : Text
  value : ParameterValue

def Parameter.text (p : Parameter) : Text := p.name ++ '=' :: p.value.text

/-- What stands between two semicolons; there may be no parameter. -/
structure Segment where
  before : Text
  parameter : Option Parameter
  after : Text

def Segment.text (s : Segment) : Text :=
  s.before ++ ((s.parameter.elim [] Parameter.text) ++ s.after)

structure Segment.Valid (s : Segment) : Prop where
  before : s.before.all isBlank = true
  after : s.after.all isBlank = true
  parameter : ∀ p ∈ s.parameter, IsToken p.name ∧ p.value.Valid

structure DispositionField where
  before : Text
  type : Text
  after : Text
  segments : List Segment

namespace DispositionField

def text (d : DispositionField) : Text :=
  d.before ++ (d.type ++ d.after) ++ d.segments.flatMap fun s => ';' :: s.text

structure Valid (d : DispositionField) : Prop where
  before : d.before.all isBlank = true
  after : d.after.all isBlank = true
  type : IsToken d.type
  segments : ∀ s ∈ d.segments, s.Valid

def parameters (d : DispositionField) : List Parameter := d.segments.filterMap Segment.parameter

end DispositionField

/-! ## The file name -/

/-- An extended value: charset, language and an escaped text in UTF-8. -/
def ExtendedValue (raw name : Text) : Prop :=
  ∃ charset language encoded,
    raw = charset ++ Char.ofNat 39 :: (language ++ Char.ofNat 39 :: encoded) ∧
      lower charset = "utf-8".toList ∧ Uri.decode encoded = some name

def Parameter.Is (p : Parameter) (name : String) : Prop := lower p.name = name.toList

/-- The extended file name if there is one, else the plain one. -/
def Names (parameters : List Parameter) (name : Option Text) : Prop :=
  (∃ p ∈ parameters, p.Is "filename*" ∧ ∃ value, ExtendedValue p.value.text value ∧
      name = some value) ∨
    ((∀ p ∈ parameters, ¬ p.Is "filename*") ∧
      ((∃ p ∈ parameters, p.Is "filename" ∧ name = some p.value.content) ∨
        ((∀ p ∈ parameters, ¬ p.Is "filename") ∧ name = none)))

/-- A name of one file on every platform. -/
structure PortableName (nfc : Text → Text) (name : Text) : Prop where
  nonempty : name ≠ []
  short : byteLength name ≤ maxFilenameBytes
  normal : nfc name = name
  start : name.head? ≠ some ' ' ∧ name.head? ≠ some '.'
  stop : name.getLast? ≠ some ' ' ∧ name.getLast? ≠ some '.'
  characters : ∀ c ∈ name, isControl c = false ∧ c ∉ "<>:\"/\\|?*".toList
  device : isWindowsDeviceName name = false

/-! ## Reading piece by piece -/

/-- The parameters that the split at every semicolon takes: of each piece what is before and
after its first equals sign. -/
def taken (pieces : List Text) : List (Text × Text) :=
  pieces.filterMap fun piece => splitOnce '=' (trim piece)

/-- A value derived in the grammar, with the parameters that were taken. -/
def Derived (nfc : Text → Text) (value : Text) (name : Option Text) : Prop :=
  (∃ d : DispositionField, d.Valid ∧ d.text = value ∧
    taken (value.splitOn ';').tail = d.parameters.map (fun p => (p.name, p.value.text)) ∧
    Names d.parameters name) ∧
  ∀ n ∈ name, PortableName nfc n

/-- Quotes are escaped, and only characters of a field are. -/
def wellQuoted : Text → Bool
  | [] => true
  | ['\\'] => false
  | '\\' :: c :: rest => isFieldChar c && wellQuoted rest
  | c :: rest => c ≠ '"' && isFieldChar c && wellQuoted rest

/-- The parameter has a name, and its value is a token or, but for an extended file name, a well
quoted string. -/
def cleanParameter (p : Text × Text) : Bool :=
  p.1 ≠ [] && (isTokenText p.2 ||
    (lower p.1 ≠ "filename*".toList && (unquoted p.2).any wellQuoted))

def leading (piece : Text) : Text := piece.takeWhile isWhiteSpace

def trailing (piece : Text) : Text :=
  ((piece.dropWhile isWhiteSpace).reverse.takeWhile isWhiteSpace).reverse

/-- Around the piece are only spaces and tabs, and its parameter is clean. -/
def cleanPiece (piece : Text) : Bool :=
  (leading piece).all isBlank && (trailing piece).all isBlank &&
    (splitOnce '=' (trim piece)).all cleanParameter

def clean (value : Text) : Bool := (value.splitOn ';').all cleanPiece

end IntoMarkdown.Http
