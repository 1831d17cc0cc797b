import IntoMarkdown.Zip.EntryNames

/-! # References of an EPUB package

`BasePath`: container paths that references and `xml:base` values are resolved against. -/

namespace IntoMarkdown.Epub
open Lib Strings Paths Converters Zip

/-- What the references are read with: the name checks of the archive, NFC, and the test of
the `url` library for the reserved origin. -/
structure Library (σ : Type) where
  unicode : Unicode
  context : Context σ
  world : σ
  nfc : Text → Text
  reservedSyntheticOrigin : Text → Bool

structure BasePath where
  path : Text
  directory : Bool
  deriving DecidableEq, Repr

inductive Reference where
  | internal (path : Text) (fragment : Option Text)
  | external (value : Text)
  deriving DecidableEq, Repr

structure RawReference where
  path : Text
  query : Option Text
  fragment : Option Text
  isExternal : Bool

def malformed (detail : String) : ConversionError := .malformed none detail

/-- `find` of a character. -/
def find (c : Char) (text : Text) : Option Nat := text.findIdx? (· = c)

def schemes : List Text := ["http".toList, "https".toList, "mailto".toList]

def splitReference (value : Text) : Except ConversionError RawReference := do
  refuse (value = [] ∨ value.any isControl ∨ '\\' ∈ value)
    (malformed "EPUB URI reference is empty or contains forbidden characters")
  if ['/', '/'] <+: value then
    return { path := value, query := none, fragment := none, isExternal := true }
  else
    let beforeFragment := (splitOnce '#' value).elim value Prod.fst
    let path := (splitOnce '?' beforeFragment).elim beforeFragment Prod.fst
    let colon := find ':' path
    let slash := find '/' path
    let isExternal := colon.any fun colon => slash.all fun slash => colon < slash
    refuse (isExternal ∧ toAsciiLowercase (path.take (colon.getD 0)) ∉ schemes)
      (malformed "EPUB URI reference uses an unsupported scheme")
    return {
      path := path
      query := (splitOnce '?' beforeFragment).map Prod.snd
      fragment := (splitOnce '#' value).map Prod.snd
      isExternal := isExternal }

def hex (value : UInt8) : Except ConversionError UInt8 :=
  if 48 ≤ value ∧ value ≤ 57 then .ok (value - 48)
  else if 97 ≤ value ∧ value ≤ 102 then .ok (value - 97 + 10)
  else if 65 ≤ value ∧ value ≤ 70 then .ok (value - 65 + 10)
  else .error (malformed "invalid percent escape")

/-- `checked_mul(16)`, then `checked_add`, of bytes. -/
def escapedByte (high low : UInt8) (detail : String) : Except ConversionError UInt8 := do
  let high ← hex high
  refuse (256 ≤ high.toNat * 16) (malformed detail)
  let low ← (hex low).mapError fun _ => malformed detail
  refuse (256 ≤ high.toNat * 16 + low.toNat) (malformed detail)
  return high * 16 + low

/-- The loop of `percent_decode` over the bytes that are left. -/
def percentBytes : List UInt8 → Except ConversionError (List UInt8)
  | [] => .ok []
  | [37] => .error (malformed "truncated percent escape")
  | [37, _] => .error (malformed "truncated percent escape")
  | 37 :: high :: low :: rest => do
    let byte ← escapedByte high low "invalid percent escape"
    refuse (byte = 47 ∨ byte = 92) (malformed "percent-encoded path separators are forbidden")
    let decoded ← percentBytes rest
    return byte :: decoded
  | byte :: rest => do
    let decoded ← percentBytes rest
    return byte :: decoded

def fromUtf8 (bytes : List UInt8) (detail : String) : Except ConversionError Text :=
  (Utf8.decode bytes).elim (.error (malformed detail)) .ok

def percentDecode (value : Text) : Except ConversionError Text := do
  let bytes ← percentBytes (Utf8.encode value)
  fromUtf8 bytes "percent-decoded EPUB path is not UTF-8"

def percentFragmentBytes : List UInt8 → Except ConversionError (List UInt8)
  | [] => .ok []
  | [37] => .error (malformed "truncated fragment percent escape")
  | [37, _] => .error (malformed "truncated fragment percent escape")
  | 37 :: high :: low :: rest => do
    let byte ← escapedByte high low "invalid fragment percent escape"
    let decoded ← percentFragmentBytes rest
    return byte :: decoded
  | byte :: rest => do
    let decoded ← percentFragmentBytes rest
    return byte :: decoded

def percentDecodeFragment (value : Text) : Except ConversionError Text := do
  let bytes ← percentFragmentBytes (Utf8.encode value)
  fromUtf8 bytes "percent-decoded EPUB fragment is not UTF-8"

section
variable {σ : Type} (library : Library σ)

def validateFragment (value : Text) : Except ConversionError Text := do
  refuse (value = []) (malformed "EPUB fragment is empty or unsafe")
  let decoded ← percentDecodeFragment value
  refuse (decoded.any isControl) (malformed "EPUB fragment is empty or unsafe")
  return library.nfc decoded

/-- `Option::transpose` of a checked fragment. -/
def validateFragments : Option Text → Except ConversionError (Option Text)
  | none => .ok none
  | some value => (validateFragment library value).map some

def portableIdentity (name : Text) (directory : Bool) : Except ConversionError Text :=
  (canonicalName library.unicode library.context name
    (if directory then .directory else .file) library.world).map Prod.fst

/-- The components that a reference is appended to: without the last one of a document. -/
def baseComponents (base : BasePath) : List Text :=
  if base.directory ∧ base.path = [] then []
  else if base.directory then splitOn '/' base.path
  else (splitOn '/' base.path).dropLast

/-- The loop over the parts of a reference. -/
def resolveParts (directory : Bool) : List Text → List Text → Except ConversionError (List Text)
  | [], components => .ok components
  | raw :: rest, components =>
    if raw = [] then
      if directory = true ∧ rest = [] then resolveParts directory rest components
      else .error (malformed "EPUB path contains an empty component")
    else do
      let component ← percentDecode raw
      refuse ('%' ∈ raw ∧ (component = ['.'] ∨ component = ['.', '.']))
        (malformed "percent-encoded EPUB dot segments are forbidden")
      if component = ['.'] then resolveParts directory rest components
      else if component = ['.', '.'] then do
        refuse (components = []) (malformed "EPUB path escapes the container root")
        resolveParts directory rest components.dropLast
      else resolveParts directory rest (components ++ [component])

/-- The reference ends with a slash or a dot segment. -/
def namesDirectory (reference : Text) : Bool :=
  let last := (splitOn '/' reference).getLast?
  ['/'] <:+ reference || last = some ['.'] || last = some ['.', '.']

def resolvePath (base : BasePath) (reference : Text) : Except ConversionError (Text × Bool) := do
  refuse (['/'] <+: reference ∨ ['/', '/'] <:+: reference)
    (malformed "EPUB path must be a relative container URI")
  let directory := namesDirectory reference
  let components ← resolveParts directory (splitOn '/' reference) (baseComponents base)
  if components = [] then
    if directory then return ([], true)
    else .error (malformed "EPUB path resolves to the container root")
  else
    let path ← portableIdentity library (joined '/' components) directory
    return (path, directory)

namespace BasePath

def document (path : Text) : Except ConversionError BasePath := do
  let path ← portableIdentity library path false
  return { path := path, directory := false }

def apply (base : BasePath) (value : Text) : Except ConversionError BasePath :=
  if value = [] then .ok base
  else do
    let raw ← splitReference value
    refuse (raw.isExternal = true) (malformed "xml:base must remain inside the EPUB container")
    refuse (raw.query.isSome ∨ raw.fragment.isSome)
      (malformed "xml:base must not contain a query or fragment")
    let resolved ← resolvePath library base raw.path
    return { path := resolved.1, directory := resolved.2 }

/-- The path of a reference that is not external. -/
def targetPath (base : BasePath) (path : Text) : Except ConversionError Text :=
  if path = [] then do
    refuse (base.directory = true)
      (malformed "a fragment-only reference resolved to a directory base")
    return base.path
  else do
    let resolved ← resolvePath library base path
    refuse (resolved.2 = true) (malformed "EPUB resource reference resolves to a directory")
    return resolved.1

def resolve (base : BasePath) (value : Text) : Except ConversionError Reference := do
  let raw ← splitReference value
  if raw.isExternal then do
    refuse (library.reservedSyntheticOrigin value = true)
      (malformed "EPUB reference collides with the reserved internal origin")
    return .external value
  else do
    refuse raw.query.isSome (malformed "container references must not contain a query")
    let path ← targetPath library base raw.path
    let fragment ← validateFragments library raw.fragment
    return .internal path fragment

/-- A document and the values of `xml:base` on the way to an element. -/
def chain (document : Text) (values : List Text) : Except ConversionError BasePath := do
  let base ← BasePath.document library document
  values.foldlM (apply library) base

end BasePath

end

end IntoMarkdown.Epub
