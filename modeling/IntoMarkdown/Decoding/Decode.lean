import IntoMarkdown.Decoding.Ranges
import IntoMarkdown.Lib.Utf16

/-! # Decoding with recovery

UTF-8 and UTF-16 are decoded character by character. What is broken is refused, or replaced by
U+FFFD and reported, neighbours together. -/

namespace IntoMarkdown.Decoding
open Lib Lib.Strings Converters

inductive TextDecodingMode where
  | strict
  | replace
  deriving DecidableEq, Repr

/-- The character sets that are decoded here. -/
inductive Charset where
  | utf8
  | utf16Le
  | utf16Be
  deriving DecidableEq, Repr

def Charset.name : Charset → String
  | .utf8 => "utf-8"
  | .utf16Le => "utf-16le"
  | .utf16Be => "utf-16be"

def invalidSequenceCode : String := "text.invalidByteSequenceReplaced"

inductive DiagnosticSeverity where
  | info
  | warning
  | error
  deriving DecidableEq, Repr

/-- The bytes of the source that something comes from. -/
structure SourceLocator where
  byteStart : Option Nat
  byteEnd : Option Nat
  deriving DecidableEq, Repr

def byteLocator (start stop : Nat) : SourceLocator := ⟨some start, some stop⟩

structure Diagnostic where
  code : String
  severity : DiagnosticSeverity
  message : String
  locator : Option SourceLocator
  deriving DecidableEq, Repr

structure RecoverySpan where
  start : Nat
  stop : Nat
  replacements : Nat
  deriving DecidableEq, Repr

def replacementCharacter : Char := Char.ofNat 0xfffd

/-- The text so far, and what was replaced in it. -/
structure Decoder (σ : Type) where
  decoded : DecodedText σ
  recoveries : Vec RecoverySpan

def invalidSequence (charset : Charset) (start stop : Nat) : ConversionError :=
  .malformed (some "text")
    s!"invalid {charset.name} byte sequence at byte range {start}..{stop}"

section
variable {σ : Type} (runtime : Runtime σ) (slots : Slots)

/-! ## Recovery -/

def record (recoveries : Vec RecoverySpan) (start stop : Nat) (memory : LogicalMemory σ) :
    Except ConversionError (Vec RecoverySpan × LogicalMemory σ) :=
  match recoveries.items.getLast? with
  | some previous =>
    if previous.stop = start then do
      let replacements ← okOr (checkedAdd previous.replacements 1)
        (.core (.resourceLimit "max_document_inlines" "text replacement count overflowed"))
      .ok ({ recoveries with
        items := recoveries.items.modifyLast fun span => { span with stop, replacements } }, memory)
    else do
      let grown ← memory.reserveVec runtime slots.recoverySpan recoveries 1
      .ok (grown.1.push ⟨start, stop, 1⟩, grown.2)
  | none => do
    let grown ← memory.reserveVec runtime slots.recoverySpan recoveries 1
    .ok (grown.1.push ⟨start, stop, 1⟩, grown.2)

def recoverInvalid (charset : Charset) (mode : TextDecodingMode) (decoder : Decoder σ)
    (start stop : Nat) : Except ConversionError (Decoder σ) := do
  refuse (mode = .strict) (invalidSequence charset start stop)
  let decoded ← decoder.decoded.pushSequence runtime slots [replacementCharacter] start stop
  let recorded ← record runtime slots decoder.recoveries start stop decoded.memory
  .ok ⟨{ decoded with memory := recorded.2 }, recorded.1⟩

def intoDiagnostic (charset : Charset) (span : RecoverySpan) : Diagnostic where
  code := invalidSequenceCode
  severity := .warning
  message := s!"inserted {span.replacements} U+FFFD replacement character(s) for invalid " ++
    s!"{charset.name} byte sequence(s) at {span.start}..{span.stop}"
  locator := some (byteLocator span.start span.stop)

def intoDiagnostics (charset : Charset) (spans : List RecoverySpan) (memory : LogicalMemory σ) :
    Except ConversionError (Vec Diagnostic × LogicalMemory σ) := do
  let reserved ← memory.reserveVec runtime slots.diagnostic {} spans.length
  spans.foldlM (fun done span => do
    let memory ← done.2.charge runtime (256 + invalidSequenceCode.utf8ByteSize)
    .ok (done.1.push (intoDiagnostic charset span), memory)) reserved

/-! ## Loops -/

def checkpoint (offset : Nat) (decoder : Decoder σ) : Except ConversionError (Decoder σ) :=
  if offset % 4096 = 0 then
    ((runtime.checkpoint decoder.decoded.memory.world).mapError .core).map fun world =>
      { decoder with decoded.memory.world := world }
  else .ok decoder

def pushScalar (decoder : Decoder σ) (value : Char) (start stop : Nat) :
    Except ConversionError (Decoder σ) :=
  (decoder.decoded.pushSequence runtime slots [value] start stop).map fun decoded =>
    { decoder with decoded }

def pushStrUnits (decoder : Decoder σ) : Text → Nat → Except ConversionError (Decoder σ)
  | [], _ => .ok decoder
  | value :: text, place => do
    let decoder ← pushScalar runtime slots decoder value place (place + value.utf8Size)
    pushStrUnits decoder text (place + value.utf8Size)

/-- The loop of `decode_utf8` over the bytes from an offset on. -/
def utf8Loop (base : Nat) (mode : TextDecodingMode) (offset : Nat) (rest : List UInt8)
    (decoder : Decoder σ) : Except ConversionError (Decoder σ) :=
  if rest = [] then .ok decoder
  else do
    let decoder ← checkpoint runtime offset decoder
    let read := Utf8.fromUtf8 rest
    let decoder ← pushStrUnits runtime slots decoder read.1 (base + offset)
    match read.2 with
    | none => .ok decoder
    | some errorLen => do
      let valid := byteLength read.1
      let invalid := max (errorLen.getD (rest.length - valid)) 1
      let start := base + offset + valid
      let decoder ← recoverInvalid runtime slots .utf8 mode decoder start (start + invalid)
      utf8Loop base mode (offset + valid + invalid) (rest.drop (valid + invalid)) decoder
termination_by rest.length
decreasing_by
  next hne =>
    rw [List.length_drop]
    have := List.length_pos_iff.mpr hne
    omega

/-- `char::from_u32`. -/
def fromU32 (value : Nat) : Option Char := if value.isValidChar then some (Char.ofNat value) else none

def pushOrRecover (charset : Charset) (mode : TextDecodingMode) (decoder : Decoder σ)
    (value : Option Char) (start stop : Nat) : Except ConversionError (Decoder σ) :=
  match value with
  | some value => pushScalar runtime slots decoder value start stop
  | none => recoverInvalid runtime slots charset mode decoder start stop

/-- The loop of `decode_utf16` over the bytes from an offset on. -/
def utf16Loop (order : Utf16.Order) (charset : Charset) (base : Nat) (mode : TextDecodingMode) :
    Nat → List UInt8 → Decoder σ → Except ConversionError (Decoder σ)
  | _, [], decoder => .ok decoder
  | offset, [_], decoder => do
    let decoder ← checkpoint runtime offset decoder
    recoverInvalid runtime slots charset mode decoder (base + offset) (base + offset + 1)
  | offset, a :: b :: c :: d :: rest, decoder => do
    let decoder ← checkpoint runtime offset decoder
    let first := Utf16.readUnit order a b
    if Utf16.isHigh first then
      let second := Utf16.readUnit order c d
      if Utf16.isLow second then do
        let decoder ← pushOrRecover runtime slots charset mode decoder
          (fromU32 (Utf16.scalar first second)) (base + offset) (base + offset + 4)
        utf16Loop order charset base mode (offset + 4) rest decoder
      else do
        let decoder ← recoverInvalid runtime slots charset mode decoder (base + offset)
          (base + offset + 2)
        utf16Loop order charset base mode (offset + 2) (c :: d :: rest) decoder
    else do
      let decoder ← pushOrRecover runtime slots charset mode decoder
        (if Utf16.isLow first then none else fromU32 first) (base + offset) (base + offset + 2)
      utf16Loop order charset base mode (offset + 2) (c :: d :: rest) decoder
  | offset, a :: b :: rest, decoder => do
    let decoder ← checkpoint runtime offset decoder
    let first := Utf16.readUnit order a b
    if Utf16.isHigh first then
      recoverInvalid runtime slots charset mode decoder (base + offset)
        (base + offset + 2 + rest.length)
    else do
      let decoder ← pushOrRecover runtime slots charset mode decoder
        (if Utf16.isLow first then none else fromU32 first) (base + offset) (base + offset + 2)
      utf16Loop order charset base mode (offset + 2) rest decoder

/-- `decode_mapped`, for the bytes behind the byte order mark. -/
def decodeMapped (bytes : List UInt8) (base : Nat) (charset : Charset) (mode : TextDecodingMode)
    (memory : LogicalMemory σ) : Except ConversionError (DecodedText σ × List Diagnostic) := do
  let decoder : Decoder σ := ⟨.new base memory, {}⟩
  let decoder ← match charset with
    | .utf8 => utf8Loop runtime slots base mode 0 bytes decoder
    | .utf16Le => utf16Loop runtime slots .little .utf16Le base mode 0 bytes decoder
    | .utf16Be => utf16Loop runtime slots .big .utf16Be base mode 0 bytes decoder
  let diagnostics ← intoDiagnostics runtime slots charset decoder.recoveries.items
    decoder.decoded.memory
  .ok ({ decoder.decoded with memory := diagnostics.2 }, diagnostics.1.items)

end

end IntoMarkdown.Decoding
