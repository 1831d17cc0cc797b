import IntoMarkdown.Lib.Paths
import IntoMarkdown.Converters.LogicalMemory

/-! # Entry names of an archive

`EntryPolicy::accept`: the type of an entry, its canonical name, and an index of all paths
under their alias keys, with the directories that the names imply. -/

namespace IntoMarkdown.Zip
open Lib Strings Paths Converters

inductive EntryKind where
  | file | directory
  deriving DecidableEq, Repr

/-- The normalization forms and the case folding of the libraries, and `{:?}` of a string. -/
structure Unicode where
  nfd : Text → Text
  nfkc : Text → Text
  nfkd : Text → Text
  defaultCaseFold : Text → Text
  debug : Text → String
  /-- A colon has no decomposition and is part of no composition. -/
  nfkc_colon : ∀ text, ':' ∈ text → ':' ∈ nfkc text

/-- The execution context with the reservation of the policy. -/
structure Context (σ : Type) extends Runtime σ where
  /-- `reserve_memory`, whose guard is dropped by `releaseMemory`. -/
  reserveMemory : σ → Nat → Except Core.ConversionError σ
  releaseMemory : σ → Nat → σ
  maxNestingDepth : Nat

structure PathEntry where
  original : Text
  kind : Option EntryKind
  deriving DecidableEq, Repr

structure EntryPolicy (σ : Type) where
  paths : Text → Option PathEntry
  world : σ

section
variable (unicode : Unicode)

def malformed (name : Text) (detail : String) : ConversionError :=
  .malformed (some (String.ofList name)) s!"ZIP member {unicode.debug name}: {detail}"

/-! ## Names -/

def typeMask : Nat := 0o170000
def regular : Nat := 0o100000
def directory : Nat := 0o040000

def validateType (name : Text) (unixMode : Option Nat) (isDirectory : Bool) :
    Except ConversionError EntryKind := do
  let declared := unixMode.elim 0 (· &&& typeMask)
  refuse (declared ≠ 0 ∧ declared ≠ regular ∧ declared ≠ directory)
    (malformed unicode name "symbolic links and special files are forbidden")
  if isDirectory then do
    refuse (declared = regular)
      (malformed unicode name "directory marker conflicts with regular-file mode")
    return .directory
  else do
    refuse (declared = directory)
      (malformed unicode name "regular entry conflicts with directory mode")
    return .file

/-- `trim_end_matches([' ', '.'])`. -/
def trimEndDots (text : Text) : Text :=
  (text.reverse.dropWhile fun c => c = ' ' || c = '.').reverse

def lowerByte (b : UInt8) : UInt8 := if 65 ≤ b ∧ b ≤ 90 then b + 32 else b

def eqIgnoreAsciiCase (a b : List UInt8) : Bool := a.map lowerByte = b.map lowerByte

def bytesOf (text : String) : List UInt8 := Utf8.encode text.toList

def deviceNames : List String := ["con", "prn", "aux", "nul", "conin$", "conout$"]

/-- What a device name is looked for in: up to the first dot. -/
def stem (component : Text) : Text := trimEndDots ((splitOn '.' component).headD component)

def isWindowsDevice (component : Text) : Bool :=
  let bytes := Utf8.encode (stem component)
  deviceNames.any (fun name => eqIgnoreAsciiCase bytes (bytesOf name)) ||
    (bytes.length = 4 &&
      (["com", "lpt"].any (fun device => eqIgnoreAsciiCase (bytes.take 3) (bytesOf device)) &&
        bytes[3]?.any fun b => 49 ≤ b && b ≤ 57))

/-- Separators, drive colons and marks of the writing direction. -/
def isForbidden (c : Char) : Bool :=
  isControl c || c = '/' || c = '\\' || c = ':' || c.toNat = 0x200e || c.toNat = 0x200f ||
    (0x202a ≤ c.toNat && c.toNat ≤ 0x202e) || (0x2066 ≤ c.toNat && c.toNat ≤ 0x2069)

def safeComponent (component : Text) : Bool :=
  let normalized := unicode.nfkc component
  normalized ≠ [] && (normalized ≠ ['.'] && normalized ≠ ['.', '.']) &&
    trimEndDots normalized = normalized && !normalized.any isForbidden &&
    !isWindowsDevice normalized

def aliasKey (component : Text) : Text :=
  unicode.nfkd (unicode.defaultCaseFold
    (unicode.nfkd (unicode.defaultCaseFold (unicode.nfd component))))

variable {σ : Type} (context : Context σ)

/-- `if !text.is_empty()`, a slash before the component. -/
def pushComponent (text component : Text) : Text :=
  (if text = [] then text else text ++ ['/']) ++ component

def pushComponents (name : Text) : List Text → Text → Except ConversionError Text
  | [], canonical => .ok canonical
  | component :: rest, canonical => do
    refuse (component = [] ∨ component = ['.'] ∨ component = ['.', '.'])
      (malformed unicode name "entry path contains an empty or dot component")
    refuse (trimEndDots component ≠ component ∨ safeComponent unicode component = false ∨
        isWindowsDevice component)
      (malformed unicode name "entry path contains a reserved platform component")
    pushComponents name rest (pushComponent canonical component)

/-- The name that the checks see: a directory's without its last slash. -/
def stripName (name : Text) : EntryKind → Text
  | .directory => (stripSuffix ['/'] name).getD name
  | .file => name

def canonicalName (name : Text) (kind : EntryKind) (world : σ) :
    Except ConversionError (Text × σ) := do
  let name := stripName name kind
  refuse (name = [] ∨ ['/'] <+: name ∨ ['/', '/'] <+: name ∨ '\\' ∈ name ∨ '\x00' ∈ name ∨
      name.any isControl)
    (malformed unicode name "entry name is not a safe relative path")
  let reserved ← (context.allocate world (byteLength name)).mapError fun error =>
    memoryLimit s!"reserve canonical name for {unicode.debug name}: {error}"
  let canonical ← pushComponents unicode name (splitOn '/' name) []
  return (canonical, reserved.2)

/-! ## The index of paths -/

/-- The check of an indexed path against the one that has its key. -/
def revisit (name : Text) (kind : EntryKind) (original : Text) (last : Bool)
    (existing : PathEntry) : Except ConversionError PathEntry := do
  refuse (existing.original ≠ original) (malformed unicode name
    s!"Unicode/case alias conflicts with {unicode.debug existing.original}")
  if last then do
    refuse (existing.kind.isSome ∨ kind = .file)
      (malformed unicode name "duplicate entry or file/directory prefix conflict")
    return { existing with kind := some kind }
  else do
    refuse (existing.kind = some .file)
      (malformed unicode name "entry descends through another file")
    return existing

/-- The memory of a path that is new. -/
def growIndex (original key : Text) (world : σ) : Except ConversionError σ := do
  let bytes ← okOr ((checkedAdd (byteLength key) (byteLength original)).bind (checkedAdd · 256))
    (memoryLimit "ZIP path index plan overflow")
  (context.grow world bytes).mapError .core

/-- One component of a name. -/
def visit (name : Text) (kind : EntryKind) (original key : Text) (last : Bool)
    (policy : EntryPolicy σ) : Except ConversionError (EntryPolicy σ) :=
  match policy.paths key with
  | some existing => do
    let entry ← revisit unicode name kind original last existing
    return { policy with paths := Function.update policy.paths key (some entry) }
  | none => do
    let world ← growIndex context original key policy.world
    return {
      paths := Function.update policy.paths key
        (some ⟨original, if last then some kind else none⟩)
      world }

/-- The loop over the components of a name, of which so many have been seen. -/
def visitAll (name : Text) (kind : EntryKind) (count : Nat) :
    List Text → Nat → Text → Text → EntryPolicy σ → Except ConversionError (EntryPolicy σ)
  | [], _, _, _, policy => .ok policy
  | component :: rest, index, original, key, policy => do
    let world ← (context.checkpoint policy.world).mapError .core
    let slash : Text := if index ≠ 0 then ['/'] else []
    let original := original ++ slash ++ component
    let key := key ++ slash ++ aliasKey unicode component
    let policy ← visit unicode context name kind original key (index + 1 = count)
      { policy with world }
    visitAll name kind count rest (index + 1) original key policy

def accept (decodedName : Text) (unixMode : Option Nat) (isDirectory : Bool)
    (policy : EntryPolicy σ) : Except ConversionError ((Text × EntryKind) × EntryPolicy σ) := do
  let kind ← validateType unicode decodedName unixMode isDirectory
  let scratchBytes ← okOr (checkedMul (byteLength decodedName) 128)
    (memoryLimit "ZIP name normalization plan overflow")
  let world ← (context.reserveMemory policy.world scratchBytes).mapError .core
  let named ← canonicalName unicode context decodedName kind world
  let name := named.1
  let count := (splitOn '/' name).length
  refuse (context.maxNestingDepth < count) (.core (.resourceLimit "max_nesting_depth"
    s!"ZIP member {unicode.debug name}: {count} path components exceed {context.maxNestingDepth}"))
  let policy ← visitAll unicode context name kind count (splitOn '/' name) 0 [] []
    { policy with world := named.2 }
  -- The scratch guard is dropped.
  return ((name, kind), { policy with world := context.releaseMemory policy.world scratchBytes })

/-- An entry as the archive declares it. -/
structure Entry where
  name : Text
  mode : Option Nat
  directory : Bool
  deriving DecidableEq, Repr

/-- One policy over a sequence of entries. -/
def acceptAll : List Entry → EntryPolicy σ →
    Except ConversionError (List (Text × EntryKind) × EntryPolicy σ)
  | [], policy => .ok ([], policy)
  | entry :: rest, policy => do
    let first ← accept unicode context entry.name entry.mode entry.directory policy
    let others ← acceptAll rest first.2
    return (first.1 :: others.1, others.2)

/-- `EntryPolicy::new`. -/
def EntryPolicy.new (world : σ) : EntryPolicy σ := ⟨fun _ => none, world⟩

end

end IntoMarkdown.Zip
