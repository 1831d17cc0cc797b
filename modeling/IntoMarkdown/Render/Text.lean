import IntoMarkdown.Ir.Model
import IntoMarkdown.Lib.Except
import IntoMarkdown.Lib.Strings

/-! # Text of the renderer

Escapes, code spans, fences and link targets. -/

namespace IntoMarkdown.Render
open Ir Lib Lib.Strings

/-- The conversion errors that rendering returns. -/
inductive RenderError where
  | internal (detail : String)
  | resourceLimit (limit detail : String)
  | unsupported (detail : String)
  deriving DecidableEq, Repr

def renderError (detail : String) : RenderError := .internal s!"Markdown rendering failed: {detail}"

inductive InlineContext where
  | normal
  | tableCell
  deriving DecidableEq, Repr

/-- The general category of characters, beyond what the model defines. -/
structure Unicode where
  isAlphanumeric : Char → Bool

/-! ## Lines -/

def normalizeLf (value : Text) : Text := replaceChar '\r' ['\n'] (replacePair '\r' '\n' ['\n'] value)

def singleLine (value : Text) : Text := replaceChar '\n' [' '] (normalizeLf value)

def indentContinuation (value : Text) (spaces : Nat) : Text :=
  replaceChar '\n' ('\n' :: List.replicate spaces ' ') value

def indentAll (value : Text) (spaces : Nat) : Text :=
  List.replicate spaces ' ' ++ indentContinuation value spaces

def withBody (heading body : Text) : Text :=
  if body = [] then heading else heading ++ ['\n', '\n'] ++ body

def trimBlankLines (value : Text) : Text := trimEndMatches '\n' value

/-- `join`. -/
def join (separator : Text) (parts : List Text) : Text := (parts.intersperse separator).flatten

/-! ## Escapes -/

def isEscaped (c : Char) : Bool :=
  c ∈ ['\\', '\x60', '*', '_', '\x7b', '\x7d', '[', ']', '<', '>', '#', '+', '-', '.', '!', '|', '~']

def escapeChar (c : Char) : Text :=
  if c = '&' then "&amp;".toList else if isEscaped c then ['\\', c] else [c]

def escapeText (value : Text) : Text := value.flatMap escapeChar

def escapeImageAlt (value : Text) : Text := replaceChar '"' "&quot;".toList (escapeText value)

def escapeHtmlText (value : Text) : Text :=
  value.flatMap fun c =>
    if c = '&' then "&amp;".toList else if c = '<' then "&lt;".toList
    else if c = '>' then "&gt;".toList else [c]

def escapeHtmlCode (value : Text) : Text := escapeHtmlText value

def escapeHtmlAttribute (value : Text) : Text :=
  replaceChar (Char.ofNat 39) "&#39;".toList
    (replaceChar '"' "&quot;".toList (escapeHtmlText value))

def hexDigit (value : UInt8) (uppercase : Bool) : Char :=
  if value < 10 then Char.ofNat (48 + value.toNat)
  else Char.ofNat ((if uppercase then 55 else 87) + value.toNat)

def percent (byte : UInt8) : Text :=
  ['%', hexDigit (byte >>> 4) true, hexDigit (byte &&& 0x0f) true]

def encodeBytes (safe : UInt8 → Bool) (value : Text) : Text :=
  value.flatMap fun c =>
    let bytes := Utf8.encode [c]
    if isAscii c then
      if bytes.all safe then [c] else bytes.flatMap percent
    else if !isWhitespace c && !isControl c && bytes.all safe then [c]
    else bytes.flatMap percent

def isAsciiControlByte (byte : UInt8) : Bool := byte < 0x20 || byte = 0x7f

def isAsciiAlphanumericByte (byte : UInt8) : Bool :=
  (48 ≤ byte && byte ≤ 57) || (65 ≤ byte && byte ≤ 90) || (97 ≤ byte && byte ≤ 122)

def isAsciiDigitByte (byte : UInt8) : Bool := 48 ≤ byte && byte ≤ 57

def isAsciiHexdigitByte (byte : UInt8) : Bool :=
  isAsciiDigitByte byte || (65 ≤ byte && byte ≤ 70) || (97 ≤ byte && byte ≤ 102)

/-- A byte of one of these characters. -/
def oneOf (chars : String) (byte : UInt8) : Bool := byte ∈ Utf8.encode chars.toList

def escapeDestination (value : Text) (context : InlineContext) : Text :=
  encodeBytes (fun byte => !isAsciiControlByte byte && !oneOf " <>\\" byte &&
      (context ≠ .tableCell || !oneOf "|" byte))
    (replaceChar '&' "&amp;".toList (normalizeLf value))

def escapeGeneratedDestination (value : Text) : Text :=
  encodeBytes (fun byte => !isAsciiControlByte byte && !oneOf " <>\\" byte) value

/-! ## Code -/

def renderCodeSpan (value : Text) (context : InlineContext) : Text :=
  let value := singleLine value
  if value.all isWhitespace then "<code>".toList ++ escapeHtmlCode value ++ "</code>".toList
  else
    let value := if context = .tableCell then replaceChar '|' ['\\', '|'] value else value
    let fence := List.replicate (longestRun '\x60' value + 1) '\x60'
    let edge := fun c => c = ' ' || c = '\x60'
    if value.head?.any edge || value.getLast?.any edge then
      fence ++ [' '] ++ value ++ [' '] ++ fence
    else fence ++ value ++ fence

def renderFence (value : Text) (info : Option Text) : Text :=
  let value := normalizeLf value
  let fence := List.replicate (max (longestRun '\x60' value + 1) 3) '\x60'
  fence ++ info.getD [] ++ ['\n'] ++ value ++
    (if value.getLast? = some '\n' then [] else ['\n']) ++ fence

def sanitizeInfoString (value : Text) : Text :=
  encodeBytes (fun byte => isAsciiAlphanumericByte byte || oneOf "_+-.#" byte) (trim value)

/-! ## Labels -/

def footnoteLabel (value : Text) : Text :=
  "fn-".toList ++ (Utf8.encode value).flatMap fun (byte : UInt8) =>
    [hexDigit (byte >>> 4) false, hexDigit (byte &&& 0x0f) false]

def padded (width n : Nat) : Text :=
  let digits := natText n
  List.replicate (width - digits.length) '0' ++ digits

def timestamp (milliseconds : UInt64) : Text :=
  let milliseconds := milliseconds.toNat
  padded 2 (milliseconds / 3600000) ++ [':'] ++ padded 2 (milliseconds / 60000 % 60) ++ [':'] ++
    padded 2 (milliseconds / 1000 % 60) ++ ['.'] ++ padded 3 (milliseconds % 1000)

/-! ## Link targets -/

/-- The bytes after an ampersand name a character. -/
def namesCharacter (tail : List UInt8) : Bool :=
  let body := tail.takeWhile (· ≠ 59)
  let digits := fun (start : String) (p : UInt8 → Bool) =>
    Utf8.encode start.toList <+: body && body.length ≠ start.length &&
      (body.drop start.length).all p
  59 ∈ tail && body ≠ [] && body.length ≤ 32 &&
    (body.all isAsciiAlphanumericByte || digits "#" isAsciiDigitByte ||
      digits "#x" isAsciiHexdigitByte || digits "#X" isAsciiHexdigitByte)

def containsHtmlEntityBytes : List UInt8 → Bool
  | [] => false
  | byte :: tail => (byte = 38 && namesCharacter tail) || containsHtmlEntityBytes tail

def containsHtmlEntity (value : Text) : Bool := containsHtmlEntityBytes (Utf8.encode value)

/-- The text before the first colon is a scheme. -/
def isScheme (scheme : Text) : Bool :=
  scheme ≠ [] && (scheme.mapIdx fun index c =>
    isAsciiAlphabetic c || (0 < index && (c = '+' || c = '-' || c = '.'))).all id

def isDisallowedScheme (scheme : Text) : Bool :=
  toAsciiLowercase scheme ∈
    ["javascript".toList, "vbscript".toList, "data".toList, "file".toList]

def hasUserInformation (afterColon : Text) : Bool :=
  (stripPrefix ['/', '/'] afterColon).any fun rest => '@' ∈ rest.takeWhile (· ≠ '/')

def validateLinkTarget (value : Text) : Except RenderError Unit := do
  refuse (value.any isControl) (renderError "link target contains a control character")
  refuse (containsHtmlEntity value)
    (renderError "link target contains an HTML character reference")
  let scheme := if ':' ∈ value then value.takeWhile (· ≠ ':') else []
  let afterColon := (value.dropWhile (· ≠ ':')).tail
  refuse (isScheme scheme ∧ isDisallowedScheme scheme)
    (renderError s!"link target uses disallowed scheme {String.ofList scheme}")
  refuse (isScheme scheme ∧ hasUserInformation afterColon)
    (renderError "link target authority contains user information")

end IntoMarkdown.Render
