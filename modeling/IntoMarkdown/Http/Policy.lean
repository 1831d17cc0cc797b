import Mathlib
import IntoMarkdown.Lib.Utf8

/-! # Hosts, addresses and the network policy

Host names and addresses as `policy.rs` normalises them. The URL parser is a
parameter. -/

namespace IntoMarkdown.Http

abbrev Text := List Char

inductive TransportErrorKind where
  | networkDenied | invalidMessage | hostDenied | privateNetworkDenied | dns | connect | tls
  | http | resourceLimit | cancelled | timeout | unavailable
  deriving DecidableEq, Repr

def maxUrlBytes : Nat := 8 * 1024
def maxAllowedHosts : Nat := 128
def maxHostBytes : Nat := 253
def maxDnsAddresses : Nat := 16

/-- A check that fails where `bad` holds. -/
def reject (bad : Prop) [Decidable bad] (kind : TransportErrorKind) :
    Except TransportErrorKind Unit :=
  if bad then .error kind else .ok ()

theorem reject_ok {bad : Prop} [Decidable bad] {kind : TransportErrorKind} {u : Unit}
    (h : reject bad kind = .ok u) : ¬ bad := by
  intro hbad
  rw [reject, if_pos hbad] at h
  cases h

theorem reject_of {bad : Prop} [Decidable bad] {kind : TransportErrorKind} (h : bad) :
    reject bad kind = .error kind := if_pos h

theorem reject_of_not {bad : Prop} [Decidable bad] {kind : TransportErrorKind} (h : ¬ bad) :
    reject bad kind = .ok () := if_neg h

/-! ## Addresses -/

inductive IpAddr where
  | v4 (bits : BitVec 32)
  | v6 (bits : BitVec 128)
  deriving DecidableEq, Repr

/-- The flow label and scope are those of an IPv6 address, else zero. -/
structure SocketAddr where
  ip : IpAddr
  port : UInt16
  flowinfo : UInt32
  scopeId : UInt32
  deriving DecidableEq, Repr

/-- `in_v4`, `in_v6`. -/
def inNetwork {w : Nat} (value network : BitVec w) (length : Nat) : Bool :=
  let mask := if length = 0 then 0 else BitVec.allOnes w <<< (w - length)
  value &&& mask == network &&& mask

def isPublicIpv4 (value : BitVec 32) : Bool :=
  !inNetwork value 0x00000000 8 && !inNetwork value 0x0a000000 8 &&
  !inNetwork value 0x64400000 10 && !inNetwork value 0x7f000000 8 &&
  !inNetwork value 0xa9fe0000 16 && !inNetwork value 0xac100000 12 &&
  !inNetwork value 0xc0000000 24 && !inNetwork value 0xc0000200 24 &&
  !inNetwork value 0xc0a80000 16 && !inNetwork value 0xc6120000 15 &&
  !inNetwork value 0xc6336400 24 && !inNetwork value 0xcb007100 24 &&
  !inNetwork value 0xe0000000 4 && !inNetwork value 0xf0000000 4

def isPublicIpv6 (value : BitVec 128) : Bool :=
  inNetwork value (0x2000#128 <<< 112) 3 && !inNetwork value (0x2001#128 <<< 112) 23 &&
  !inNetwork value (0x20010db8#128 <<< 96) 32 && !inNetwork value (0x2002#128 <<< 112) 16 &&
  !inNetwork value (0x3fff#128 <<< 112) 20

/-- `::ffff:a.b.c.d`. -/
def toIpv4Mapped (value : BitVec 128) : Option (BitVec 32) :=
  if value >>> 32 = 0xffff#128 then some (value.setWidth 32) else none

def isPublicIp : IpAddr → Bool
  | .v4 value => isPublicIpv4 value
  | .v6 value => if (toIpv4Mapped value).isSome then false else isPublicIpv6 value

/-! ## Addresses as text, after the standard library -/

def ipv4Text (value : BitVec 32) : Text :=
  let octet (i : Nat) : Text := Nat.toDigits 10 ((value >>> (8 * i)).toNat % 256)
  octet 3 ++ '.' :: octet 2 ++ '.' :: octet 1 ++ '.' :: octet 0

def segments (value : BitVec 128) : List Nat :=
  (List.range 8).map fun i => (value >>> (16 * (7 - i))).toNat % 65536

def groupsText (groups : List Nat) : Text :=
  List.intercalate [':'] (groups.map (Nat.toDigits 16))

/-- The first of the longest runs of zeros: where it starts and its length. -/
def longestZeros (groups : List Nat) : Nat × Nat :=
  let run (start : Nat) : Nat := ((groups.drop start).takeWhile (· = 0)).length
  (List.range groups.length).foldl (fun best start =>
    if best.2 < run start then (start, run start) else best) (0, 0)

def ipv6Text (value : BitVec 128) : Text :=
  match toIpv4Mapped value with
  | some mapped => "::ffff:".toList ++ ipv4Text mapped
  | none =>
    let groups := segments value
    let (start, length) := longestZeros groups
    if 1 < length then
      groupsText (groups.take start) ++ [':', ':'] ++ groupsText (groups.drop (start + length))
    else groupsText groups

def digitValue (radix : Nat) (c : Char) : Option Nat :=
  let value :=
    if '0' ≤ c ∧ c ≤ '9' then some (c.toNat - 48)
    else if 'a' ≤ c ∧ c ≤ 'f' then some (c.toNat - 87)
    else if 'A' ≤ c ∧ c ≤ 'F' then some (c.toNat - 55)
    else none
  value.filter (· < radix)

/-- `read_number` with at most `digits` digits and values below `bound`. -/
def readNumber (radix digits bound : Nat) (zeros : Bool) (text : Text) : Option (Nat × Text) :=
  let figures := text.takeWhile fun c => (digitValue radix c).isSome
  let value := figures.foldl (fun n c => n * radix + (digitValue radix c).getD 0) 0
  if figures = [] ∨ digits < figures.length ∨ bound ≤ value ∨
      (!zeros ∧ figures.head? = some '0' ∧ 1 < figures.length) then none
  else some (value, text.drop figures.length)

def readGiven (c : Char) : Text → Option Text
  | d :: rest => if d = c then some rest else none
  | [] => none

/-- `read_separator`: nothing stands before the first item. -/
def readSeparated {α : Type} (c : Char) (index : Nat) (read : Text → Option (α × Text))
    (text : Text) : Option (α × Text) :=
  if index = 0 then read text else (readGiven c text).bind read

def readIpv4 (text : Text) : Option (BitVec 32 × Text) :=
  (List.range 4).foldlM (fun (value, text) i =>
    (readSeparated '.' i (readNumber 10 3 256 false) text).map fun r =>
      (value <<< 8 ||| BitVec.ofNat 32 r.1, r.2)) (0#32, text)

/-- `read_groups`: at most `left` more groups, and whether the last two were an
IPv4 address. -/
def readGroups (index : Nat) (text : Text) : Nat → List Nat × Bool × Text
  | 0 => ([], false, text)
  | left + 1 =>
    let ipv4 := if left = 0 then none else readSeparated ':' index readIpv4 text
    match ipv4 with
    | some (value, rest) => ([(value >>> 16).toNat, value.toNat % 65536], true, rest)
    | none =>
      match readSeparated ':' index (readNumber 16 4 65536 true) text with
      | some (group, rest) =>
        let (groups, ipv4, rest) := readGroups (index + 1) rest left
        (group :: groups, ipv4, rest)
      | none => ([], false, text)

def ofGroups (groups : List Nat) : BitVec 128 :=
  groups.foldl (fun value group => value <<< 16 ||| BitVec.ofNat 128 group) 0#128

def readIpv6 (text : Text) : Option (BitVec 128 × Text) :=
  let (head, ipv4, rest) := readGroups 0 text 8
  if head.length = 8 then some (ofGroups head, rest)
  else if ipv4 then none
  else
    ((readGiven ':' rest).bind (readGiven ':')).map fun rest =>
      let (tail, _, rest) := readGroups 0 rest (8 - (head.length + 1))
      (ofGroups (head ++ List.replicate (8 - head.length - tail.length) 0 ++ tail), rest)

/-- `str::parse::<IpAddr>`. -/
def parseIpAddr (text : Text) : Option IpAddr :=
  match (readIpv4 text).map (fun r => (IpAddr.v4 r.1, r.2)) <|>
      (readIpv6 text).map (fun r => (IpAddr.v6 r.1, r.2)) with
  | some (ip, []) => some ip
  | _ => none

example : parseIpAddr (ipv4Text 0x08080404) = some (.v4 0x08080404) := by decide +kernel

example : parseIpAddr (ipv6Text (0x20010db8#128 <<< 96 ||| 1)) =
    some (.v6 (0x20010db8#128 <<< 96 ||| 1)) := by decide +kernel

/-! ## URLs -/

inductive Host where
  | domain (name : Text)
  | ipv4 (address : BitVec 32)
  | ipv6 (address : BitVec 128)
  deriving DecidableEq, Repr

structure Url where
  scheme : Text
  username : Text
  password : Option Text
  host : Option Host
  port : Option UInt16
  path : Text
  query : Option Text
  fragment : Option Text
  deriving DecidableEq, Repr

/-- What the code takes from the crate `url`, which writes an IPv6 host between
brackets. -/
structure UrlCrate where
  parse : Text → Option Url
  join : Url → Text → Option Url
  asStr : Url → Text
  parseHost : Text → Option Host
  ipv6Inner : BitVec 128 → Text

def byteLength (text : Text) : Nat := (text.map Char.utf8Size).sum

def isAsciiControl (c : Char) : Bool := c.toNat < 32 || c.toNat = 127

section
variable (c : UrlCrate)

/-- `canonical_url`. -/
def canonicalUrl (value : Text) : Except TransportErrorKind Url := do
  reject (maxUrlBytes < byteLength value ∨ value.any isAsciiControl) .invalidMessage
  match c.parse value with
  | none => .error .invalidMessage
  | some url =>
    reject ((url.scheme ≠ "http".toList ∧ url.scheme ≠ "https".toList) ∨ url.username ≠ [] ∨
      url.password.isSome ∨ url.host.isNone) .invalidMessage
    return { url with fragment := none }

/-- `canonical_redirect`. -/
def canonicalRedirect (current : Url) (location : Text) : Except TransportErrorKind Url := do
  reject (maxUrlBytes < byteLength location ∨ location.any isAsciiControl) .invalidMessage
  match c.join current location with
  | none => .error .invalidMessage
  | some joined => canonicalUrl c (c.asStr joined)

def Url.redacted (url : Url) : Url :=
  { url with username := [], password := none, query := none, fragment := none }

/-- `redacted_url`. -/
def redactedUrl (url : Url) : Text := c.asStr url.redacted

end

/-- `port_or_known_default`, for the schemes that reach it. -/
def Url.portOrKnownDefault (url : Url) : Option UInt16 :=
  url.port.orElse fun _ =>
    if url.scheme = "http".toList then some 80
    else if url.scheme = "https".toList then some 443 else none

/-! ## Hosts -/

def lower (text : Text) : Text := text.map Char.toLower

def trimEndDots (text : Text) : Text := (text.reverse.dropWhile (· = '.')).reverse

/-- The text that stands for a host. -/
def Host.canonical : Host → Text
  | .domain name => lower (trimEndDots name)
  | .ipv4 address => ipv4Text address
  | .ipv6 address => ipv6Text address

/-- `canonical_host`. -/
def canonicalHost (url : Url) : Except TransportErrorKind Text :=
  match (url.host.map Host.canonical).filter (· ≠ []) with
  | none => .error .invalidMessage
  | some host => .ok host

/-- White space in Unicode. -/
def isWhiteSpace (c : Char) : Bool :=
  let n := c.toNat
  (9 ≤ n && n ≤ 13) || n = 32 || n = 0x85 || n = 0xa0 || n = 0x1680 ||
  (0x2000 ≤ n && n ≤ 0x200a) || n = 0x2028 || n = 0x2029 || n = 0x202f || n = 0x205f || n = 0x3000

/-- `value.trim() == value`. -/
def isTrimmed (value : Text) : Bool :=
  !(value.head?.any isWhiteSpace) && !(value.getLast?.any isWhiteSpace)

/-- `strip_suffix('.')`, or the text itself. -/
def stripDot (value : Text) : Text := if value.getLast? = some '.' then value.dropLast else value

/-- `Host::to_string`. -/
def Host.display (c : UrlCrate) : Host → Text
  | .domain name => name
  | .ipv4 address => ipv4Text address
  | .ipv6 address => '[' :: c.ipv6Inner address ++ [']']

def normalizeEntry (c : UrlCrate) (value : Text) : Except TransportErrorKind Text := do
  reject (value = [] ∨ maxHostBytes < byteLength value ∨ !isTrimmed value) .invalidMessage
  let value := stripDot value
  reject (value = [] ∨ value.getLast? = some '.') .invalidMessage
  match c.parseHost value with
  | none => .error .invalidMessage
  | some host => return lower (host.display c)

/-- `normalize_allowlist`; the set as a list. -/
def normalizeAllowlist (c : UrlCrate) (values : List Text) :
    Except TransportErrorKind (List Text) := do
  reject (maxAllowedHosts < values.length) .resourceLimit
  values.mapM (normalizeEntry c)

def isLocalhostName (host : Text) : Bool :=
  lower host = "localhost".toList || ".localhost".toList.isSuffixOf (lower host)

structure NetworkPolicy where
  allowNetwork : Bool
  allowPrivateNetwork : Bool
  allowedHosts : List Text
  maxRedirects : UInt8
  deriving DecidableEq, Repr

/-! ## What an entry denotes -/

/-- The entry is read as a host with the canonical text of the URL's host. -/
def Denotes (c : UrlCrate) (entry : Text) (url : Url) : Prop :=
  ∃ host own, c.parseHost (stripDot entry) = some host ∧ url.host = some own ∧
    host.canonical = own.canonical

/-- The entry is read as an IPv4 literal, or as a name that does not end with a dot. -/
def Comparable (c : UrlCrate) (entry : Text) : Prop :=
  match c.parseHost (stripDot entry) with
  | some (.domain name) => name.getLast? ≠ some '.'
  | some (.ipv4 _) => True
  | _ => False

end IntoMarkdown.Http
