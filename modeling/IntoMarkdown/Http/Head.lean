import IntoMarkdown.Lib.Arrivals
import IntoMarkdown.Lib.Except
import IntoMarkdown.Lib.Utf8
import IntoMarkdown.Http.Policy

/-! # The head of a response

`http1.rs` and the header values of `policy.rs`. A connection neither fails nor is
interrupted; what it delivers is cut into runs in any way. -/

namespace IntoMarkdown.Http
open Lib

abbrev Bytes := List UInt8
abbrev Connection := Arrivals UInt8

def maxHeaderBytes : Nat := 64 * 1024
def maxHeaderCount : Nat := 128
def ioChunkBytes : Nat := 8 * 1024
def maxFilenameBytes : Nat := 255
def usizeBound : Nat := 2 ^ 64

inductive ContentEncoding where
  | identity | gzip
  deriving DecidableEq, Repr

inductive Framing where
  | length (bytes : Nat)
  | chunked
  | close
  deriving DecidableEq, Repr

structure ParsedHead where
  status : Nat
  framing : Framing
  location : Option Text
  mediaType : Option Text
  filename : Option Text
  contentEncoding : ContentEncoding
  deriving DecidableEq, Repr

/-! ## Memory -/

/-- What the request has reserved of the memory it may use. -/
structure Reservation where
  held : Nat
  budget : Nat
  within : held ≤ budget
  deriving DecidableEq, Repr

def Reservation.grow (memory : Reservation) (bytes : Nat) :
    Except TransportErrorKind Reservation :=
  if h : memory.held + bytes ≤ memory.budget then
    .ok ⟨memory.held + bytes, memory.budget, h⟩
  else .error .resourceLimit

def Reservation.shrink (memory : Reservation) (bytes : Nat) :
    Except TransportErrorKind Reservation :=
  if bytes ≤ memory.held then
    .ok ⟨memory.held - bytes, memory.budget, (Nat.sub_le _ _).trans memory.within⟩
  else .error .resourceLimit

/-- `reserve_memory(0)`. -/
def Reservation.none (budget : Nat) : Reservation := ⟨0, budget, Nat.zero_le _⟩

/-! ## Bytes and text -/

def orInvalid {α : Type} : Option α → Except TransportErrorKind α
  | some a => .ok a
  | none => .error .invalidMessage

def ofChars (text : String) : Bytes := Utf8.encode text.toList

def isAsciiDigit (byte : UInt8) : Bool := 48 ≤ byte && byte ≤ 57

def isAsciiAlphanumeric (byte : UInt8) : Bool :=
  isAsciiDigit byte || (65 ≤ byte && byte ≤ 90) || (97 ≤ byte && byte ≤ 122)

def isToken (byte : UInt8) : Bool :=
  isAsciiAlphanumeric byte || byte ∈ ofChars "!#$%&'*+-.^_\x60|~"

def invalidHeaderValueByte (byte : UInt8) : Bool := byte = 0x7f || (byte < 0x20 && byte ≠ 9)

def isAttrChar (byte : UInt8) : Bool :=
  isAsciiAlphanumeric byte || byte ∈ ofChars "!#$&+-.^_\x60|~"

def hex (byte : UInt8) : Except TransportErrorKind UInt8 :=
  if 48 ≤ byte ∧ byte ≤ 57 then .ok (byte - 48)
  else if 97 ≤ byte ∧ byte ≤ 102 then .ok (byte - 97 + 10)
  else if 65 ≤ byte ∧ byte ≤ 70 then .ok (byte - 65 + 10)
  else .error .invalidMessage

/-- `find_bytes`; the bytes looked for are not empty. -/
def findBytes (needle : Bytes) : Bytes → Option Nat
  | [] => none
  | b :: rest =>
    if needle <+: b :: rest then some 0 else (findBytes needle rest).map (· + 1)

/-- `split("\r\n")`. -/
def splitLines : Text → List Text
  | [] => [[]]
  | '\r' :: '\n' :: rest => [] :: splitLines rest
  | c :: rest =>
    match splitLines rest with
    | [] => [[c]]
    | line :: lines => (c :: line) :: lines

def splitOnce (c : Char) (text : Text) : Option (Text × Text) :=
  if c ∈ text then some (text.takeWhile (· ≠ c), (text.dropWhile (· ≠ c)).tail) else none

def trimWhere (p : Char → Bool) (text : Text) : Text :=
  ((text.dropWhile p).reverse.dropWhile p).reverse

def trim (text : Text) : Text := trimWhere isWhiteSpace text

/-- The text between two quotation marks. -/
def unquoted : Text → Option Text
  | '"' :: rest => if rest.getLast? = some '"' then some rest.dropLast else none
  | _ => none

def isControl (c : Char) : Bool := c.toNat < 32 || (127 ≤ c.toNat && c.toNat < 160)

/-! ## Header values -/

def isTokenText (text : Text) : Bool := text ≠ [] && (Utf8.encode text).all isToken

def validParameterValue (raw : Text) : Bool :=
  isTokenText raw ||
  (unquoted raw).any fun inner => !(Utf8.encode inner).any invalidHeaderValueByte

def checkMediaParameter (parameter : Text) : Except TransportErrorKind Unit := do
  let parameter := trim parameter
  if parameter = [] then return ()
  let (name, raw) ← orInvalid (splitOnce '=' parameter)
  reject (!isTokenText name ∨ !validParameterValue raw) .invalidMessage

/-- `parse_content_type`. -/
def parseContentType (value : Text) : Except TransportErrorKind Text := do
  let parts := value.splitOn ';'
  let media := trim (parts.headD [])
  let (kind, subtype) ← orInvalid (splitOnce '/' media)
  reject (!isTokenText kind ∨ !isTokenText subtype) .invalidMessage
  parts.tail.forM checkMediaParameter
  return lower media

/-- The state of `split_parameters` after some bytes: quoted, escaped. -/
def scanQuotes : Bool → Bool → Bytes → Except TransportErrorKind (Bool × Bool)
  | quoted, escaped, [] => .ok (quoted, escaped)
  | quoted, true, _ :: rest => scanQuotes quoted false rest
  | quoted, false, byte :: rest =>
    if byte = 92 ∧ quoted then scanQuotes quoted true rest
    else if byte = 34 then scanQuotes (!quoted) false rest
    else if invalidHeaderValueByte byte then .error .invalidMessage
    else scanQuotes quoted false rest

/-- `split_parameters`. -/
def splitParameters (value : Text) : Except TransportErrorKind (List Text) := do
  let (quoted, escaped) ← scanQuotes false false (Utf8.encode value)
  reject (quoted ∨ escaped) .invalidMessage
  return value.splitOn ';'

def percentDecode : Bytes → Except TransportErrorKind Bytes
  | [] => .ok []
  | 37 :: high :: low :: rest => do
    let high ← hex high
    let low ← hex low
    return (high * 16 + low) :: (← percentDecode rest)
  | byte :: rest =>
    if byte ≠ 37 ∧ isAttrChar byte then (percentDecode rest).map (byte :: ·)
    else .error .invalidMessage

/-- `decode_rfc5987`. -/
def decodeRfc5987 (raw : Text) : Except TransportErrorKind Text := do
  let (charset, rest) ← orInvalid (splitOnce (Char.ofNat 39) raw)
  let (_, encoded) ← orInvalid (splitOnce (Char.ofNat 39) rest)
  reject (lower charset ≠ "utf-8".toList) .invalidMessage
  orInvalid (Utf8.decode (← percentDecode (Utf8.encode encoded)))

def unescape : Bool → Text → Except TransportErrorKind Text
  | false, [] => .ok []
  | true, [] => .error .invalidMessage
  | true, c :: rest => (unescape false rest).map (c :: ·)
  | false, c :: rest =>
    if c = '\\' then unescape true rest
    else if c = '"' ∨ isControl c then .error .invalidMessage
    else (unescape false rest).map (c :: ·)

/-- `decode_quoted_or_token`. -/
def decodeQuotedOrToken (raw : Text) : Except TransportErrorKind Text :=
  match unquoted raw with
  | some inner => unescape false inner
  | none => if isTokenText raw then .ok raw else .error .invalidMessage

def isWindowsDeviceName (value : Text) : Bool :=
  let stem := (value.takeWhile (· ≠ '.')).map Char.toUpper
  stem ∈ ["CON", "PRN", "AUX", "NUL", "CLOCK$"].map String.toList ||
  (stem.take 3 ∈ ["COM", "LPT"].map String.toList &&
    stem.drop 3 ∈ ["1", "2", "3", "4", "5", "6", "7", "8", "9"].map String.toList)

section
variable (nfc : Text → Text)

/-- `portable_filename`. -/
def portableFilename (value : Text) : Except TransportErrorKind Text := do
  let normalized := nfc value
  reject (normalized = [] ∨ maxFilenameBytes < byteLength normalized ∨ normalized ≠ value ∨
    normalized.head? ∈ [some ' ', some '.'] ∨ normalized.getLast? ∈ [some ' ', some '.'] ∨
    normalized.any (fun c => isControl c || c ∈ "<>:\"/\\|?*".toList) ∨
    isWindowsDeviceName normalized) .invalidMessage
  return normalized

structure Disposition where
  plain : Option Text
  extended : Option Text
  names : List Text

/-- One turn of the loop over the parameters. -/
def dispositionParameter (seen : Disposition) (parameter : Text) :
    Except TransportErrorKind Disposition := do
  let parameter := trim parameter
  if parameter = [] then return seen
  let (name, raw) ← orInvalid (splitOnce '=' parameter)
  let name := lower name
  reject (name ∈ seen.names ∨ !(Utf8.encode name).all isToken) .invalidMessage
  let seen := { seen with names := name :: seen.names }
  if name = "filename*".toList then
    return { seen with extended := some (← decodeRfc5987 raw) }
  else if name = "filename".toList then
    return { seen with plain := some (← decodeQuotedOrToken raw) }
  else
    reject (!validParameterValue raw) .invalidMessage
    return seen

/-- `parse_content_disposition`. -/
def parseContentDisposition (value : Text) : Except TransportErrorKind (Option Text) := do
  let parts ← splitParameters value
  reject (lower (trim (parts.headD [])) ∉ ["attachment", "inline"].map String.toList)
    .invalidMessage
  let seen ← parts.tail.foldlM dispositionParameter ⟨none, none, []⟩
  (seen.extended.or seen.plain).mapM (portableFilename nfc)

end

/-! ## The head -/

def decimal (text : Text) : Nat := text.foldl (fun n c => n * 10 + (c.toNat - 48)) 0

/-- The status line; a status below 200 or above 599 is an error of its own. -/
def parseStatus (line : Text) : Except TransportErrorKind Nat := do
  let bytes := Utf8.encode line
  reject (bytes.length < 13 ∨ bytes.take 9 ∉ [ofChars "HTTP/1.0 ", ofChars "HTTP/1.1 "] ∨
    !((bytes.drop 9).take 3).all isAsciiDigit ∨ bytes[12]? ≠ some 32 ∨
    (bytes.drop 13).any invalidHeaderValueByte) .invalidMessage
  let status : Nat := ((bytes.drop 9).take 3).foldl (fun n byte => n * 10 + (byte.toNat - 48)) 0
  reject (status < 200 ∨ 599 < status) .http
  return status

def parseHeader (line : Text) : Except TransportErrorKind (Text × Text) := do
  reject (line = [] ∨ line.head? ∈ [some ' ', some '\t']) .invalidMessage
  let (name, value) ← orInvalid (splitOnce ':' line)
  reject (!isTokenText name ∨ (Utf8.encode value).any invalidHeaderValueByte) .invalidMessage
  return (lower name, trimWhere (fun c => c = ' ' || c = '\t') value)

def parseHeaders : List (Text × Text) → List Text → Except TransportErrorKind (List (Text × Text))
  | headers, [] => .ok headers
  | headers, line :: lines => do
    reject (maxHeaderCount ≤ headers.length) .invalidMessage
    let header ← parseHeader line
    parseHeaders (headers ++ [header]) lines

/-- `unique_header`. -/
def uniqueHeader (headers : List (Text × Text)) (name : String) :
    Except TransportErrorKind (Option Text) :=
  match headers.filter (fun header => header.1 = name.toList) with
  | [] => .ok none
  | [header] => .ok (some header.2)
  | _ => .error .invalidMessage

def parseContentLength (value : Text) : Except TransportErrorKind Nat := do
  reject (value = [] ∨ !(Utf8.encode value).all isAsciiDigit) .invalidMessage
  reject (usizeBound ≤ decimal value) .resourceLimit
  return decimal value

def framingOf : Option Nat → Option Text → Except TransportErrorKind Framing
  | some length, none => .ok (.length length)
  | some _, some _ => .error .invalidMessage
  | none, some value =>
    if lower value = "chunked".toList then .ok .chunked else .error .invalidMessage
  | none, none => .ok .close

def encodingOf : Option Text → Except TransportErrorKind ContentEncoding
  | none => .ok .identity
  | some value =>
    if lower value = "identity".toList then .ok .identity
    else if lower value = "gzip".toList then .ok .gzip
    else .error .invalidMessage

/-- `strip_suffix("\r\n\r\n")`. -/
def stripEnd (text : Text) : Option Text :=
  if "\r\n\r\n".toList <:+ text then some (text.take (text.length - 4)) else none

/-- `parse_head` once the bytes are text. -/
def parseHeadText (nfc : Text → Text) (text : Text) : Except TransportErrorKind ParsedHead := do
  let lines := splitLines (← orInvalid (stripEnd text))
  let status ← parseStatus (lines.headD [])
  let headers ← parseHeaders [] lines.tail
  let contentLength ← (← uniqueHeader headers "content-length").mapM parseContentLength
  let transfer ← uniqueHeader headers "transfer-encoding"
  let framing ← framingOf contentLength transfer
  let contentEncoding ← encodingOf (← uniqueHeader headers "content-encoding")
  let location ← uniqueHeader headers "location"
  reject (location = some []) .invalidMessage
  let mediaType ← (← uniqueHeader headers "content-type").mapM parseContentType
  let disposition ← uniqueHeader headers "content-disposition"
  let filename ← disposition.mapM (parseContentDisposition nfc)
  let _ ← uniqueHeader headers "connection"
  let _ ← uniqueHeader headers "host"
  let _ ← uniqueHeader headers "trailer"
  return ⟨status, framing, location, mediaType, filename.join, contentEncoding⟩

def parseHead (nfc : Text → Text) (bytes : Bytes) : Except TransportErrorKind ParsedHead := do
  parseHeadText nfc (← orInvalid (Utf8.decode bytes))

end IntoMarkdown.Http
