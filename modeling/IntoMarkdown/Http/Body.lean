import IntoMarkdown.Http.Client
import IntoMarkdown.Http.Head

/-! # The body of a response

`body.rs`. Both ways of taking a body run the same loops over a `Sink`: the chain
that `read_response` fills, or the writer of `read_response_to_writer`. Lengths are
of 64 bits, and the request is neither cancelled nor late. -/

namespace IntoMarkdown.Http
open Lib

/-- What the code takes from outside: NFC, the size of a chunk node, how much more
than asked for the allocator gives the head, and what the reads of the gzip decoder
return, with whether they end without an error. -/
structure Platform where
  nfc : Text → Text
  nodeBytes : Nat
  headSlack : Nat
  inflate : Bytes → List Bytes × Bool

structure FetchLimits where
  maxWireBytes : Nat
  maxDecodedBytes : Nat
  deriving DecidableEq, Repr

/-! ## The chain of chunks -/

structure ChunkNode where
  bytes : Bytes
  fits : bytes.length ≤ ioChunkBytes
  deriving DecidableEq

/-- The node filled last comes first. -/
structure ChunkChain where
  nodes : List ChunkNode
  len : Nat
  reservedBytes : Nat
  deriving DecidableEq

namespace ChunkChain

def empty : ChunkChain := ⟨[], 0, 0⟩

/-- What fits into the node filled last goes there, and the rest is left. -/
def coalesce : List ChunkNode → Bytes → List ChunkNode × Bytes
  | [], bytes => ([], bytes)
  | node :: nodes, bytes =>
    let take := min bytes.length (ioChunkBytes - node.bytes.length)
    (⟨node.bytes ++ bytes.take take, by
      have := node.fits
      rw [List.length_append, List.length_take]
      omega⟩ :: nodes, bytes.drop take)

/-- The loop over `chunks(IO_CHUNK_BYTES)`. -/
def pushParts (nodeBytes : Nat) (bytes : Bytes) (nodes : List ChunkNode) (reservedBytes : Nat)
    (memory : Reservation) :
    Except TransportErrorKind (List ChunkNode × Nat × Reservation) :=
  if bytes = [] then .ok (nodes, reservedBytes, memory)
  else
    match memory.grow nodeBytes with
    | .error kind => .error kind
    | .ok memory =>
      pushParts nodeBytes (bytes.drop ioChunkBytes)
        (⟨bytes.take ioChunkBytes, List.length_take_le ..⟩ :: nodes)
        (reservedBytes + nodeBytes) memory
termination_by bytes.length
decreasing_by
  have := List.length_pos_iff.mpr ‹_›
  rw [List.length_drop]
  unfold ioChunkBytes
  omega

def push (nodeBytes : Nat) (bytes : Bytes) (chain : ChunkChain) (memory : Reservation) :
    Except TransportErrorKind (ChunkChain × Reservation) := do
  let nextLen := chain.len + bytes.length
  reject (usizeBound ≤ nextLen) .resourceLimit
  let (nodes, remaining) := coalesce chain.nodes bytes
  let (nodes, reservedBytes, memory) ←
    pushParts nodeBytes remaining nodes chain.reservedBytes memory
  return (⟨nodes, nextLen, reservedBytes⟩, memory)

/-- `output[offset..offset + bytes.len()].copy_from_slice(bytes)`. -/
def copySlice (output : Bytes) (offset : Nat) (bytes : Bytes) : Bytes :=
  output.take offset ++ bytes ++ output.drop (offset + bytes.length)

def copyNodes : List ChunkNode → Nat → Bytes → Except TransportErrorKind (Nat × Bytes)
  | [], offset, output => .ok (offset, output)
  | node :: nodes, offset, output =>
    if offset < node.bytes.length then .error .resourceLimit
    else copyNodes nodes (offset - node.bytes.length)
      (copySlice output (offset - node.bytes.length) node.bytes)

/-- `copy_to`, and the output it leaves. -/
def copyTo (chain : ChunkChain) (output : Bytes) : Except TransportErrorKind Bytes := do
  reject (output.length ≠ chain.len) .resourceLimit
  let (offset, output) ← copyNodes chain.nodes chain.len output
  reject (offset ≠ 0) .resourceLimit
  return output

end ChunkChain

/-! ## Where a body goes -/

/-- `len` is the length that the limits are compared with. -/
structure Sink (σ : Type) where
  len : σ → Nat
  put : Bytes → σ → Except TransportErrorKind σ

def chainSink (nodeBytes : Nat) : Sink (ChunkChain × Reservation) where
  len s := s.1.len
  put bytes s := s.1.push nodeBytes bytes s.2

/-- A writer that takes everything; `len` is the code's `total`. -/
def writerSink : Sink Bytes where
  len output := output.length
  put bytes output := .ok (output ++ bytes)

/-! ## Reading -/

/-- `Vec::with_capacity` for the head, charged before any byte is read. -/
def headCapacity (p : Platform) : Nat := maxHeaderBytes + ioChunkBytes + p.headSlack

def headMemory (p : Platform) (memory : Reservation) : Except TransportErrorKind Reservation := do
  let memory ← memory.grow (maxHeaderBytes + ioChunkBytes)
  if 0 < p.headSlack then memory.grow p.headSlack else return memory

def headTerminator : Bytes := [13, 10, 13, 10]

/-- The loop of `read_head`: the bytes read, where the head ends in them, and the
connection after it. -/
def readHead (bytes : Bytes) (stream : Connection) :
    Except TransportErrorKind (Bytes × Nat × Connection) :=
  if maxHeaderBytes + ioChunkBytes ≤ bytes.length then .error .resourceLimit
  else
    let room := min (bytes.length + ioChunkBytes) (maxHeaderBytes + ioChunkBytes) - bytes.length
    let got := stream.read room
    match findBytes headTerminator (bytes ++ got.1) with
    | some index =>
      if maxHeaderBytes < index + 4 then .error .resourceLimit
      else .ok (bytes ++ got.1, index + 4, got.2)
    | none => if got.1 = [] then .error .invalidMessage else readHead (bytes ++ got.1) got.2
termination_by stream.all.length
decreasing_by exact Arrivals.all_read_lt ‹_›

structure PrefixedReader where
  prefetched : Bytes
  stream : Connection

def PrefixedReader.hasPrefetchedBytes (reader : PrefixedReader) : Bool := reader.prefetched ≠ []

def PrefixedReader.read (n : Nat) (reader : PrefixedReader) : Bytes × PrefixedReader :=
  if reader.prefetched.take n ≠ [] then
    (reader.prefetched.take n, { reader with prefetched := reader.prefetched.drop n })
  else
    let (bytes, stream) := reader.stream.read n
    (bytes, { reader with stream := stream })

/-- The reader and the wire bytes counted so far. -/
structure Wire where
  reader : PrefixedReader
  consumed : Nat

/-- `read_wire_checked`. -/
def readWireChecked (limit n : Nat) (wire : Wire) : Except TransportErrorKind (Bytes × Wire) :=
  if wire.reader.hasPrefetchedBytes then
    let (bytes, reader) := wire.reader.read n
    .ok (bytes, { wire with reader := reader })
  else if limit < wire.consumed then .error .resourceLimit
  else if limit - wire.consumed = 0 then .error .resourceLimit
  else
    let (bytes, reader) := wire.reader.read (min n (limit - wire.consumed))
    .ok (bytes, ⟨reader, wire.consumed + bytes.length⟩)

/-- The bytes to come. -/
def Wire.left (wire : Wire) : Bytes := wire.reader.prefetched ++ wire.reader.stream.all

/-- How many of them the limit allows; what is prefetched is counted already. -/
def Wire.allowance (limit : Nat) (wire : Wire) : Nat :=
  limit - wire.consumed + wire.reader.prefetched.length

def crlf : Bytes := [13, 10]

/-- The loop of `read_crlf_line`, with the bytes that the line may still take. -/
def lineLoop (limit : Nat) : Nat → Bytes → Wire → Except TransportErrorKind (Bytes × Wire)
  | 0, _, _ => .error .resourceLimit
  | room + 1, line, wire => do
    let (byte, wire) ← readWireChecked limit 1 wire
    reject (byte = []) .invalidMessage
    let line := line ++ byte
    if crlf <:+ line then return (line.take (line.length - 2), wire)
    else lineLoop limit room line wire

/-- `read_crlf_line`. -/
def readCrlfLine (lineLimit limit : Nat) (wire : Wire) :
    Except TransportErrorKind (Bytes × Wire) := do
  reject (32 < lineLimit) .resourceLimit
  lineLoop limit lineLimit [] wire

def isAsciiHexdigit (byte : UInt8) : Bool := (hex byte).isOk

/-- `from_str_radix` with radix 16, of digits. -/
def hexNumber (line : Bytes) : Nat :=
  line.foldl (fun n byte => n * 16 + (((hex byte).toOption).getD 0).toNat) 0

/-- The size that a chunk's line gives. -/
def chunkSize (line : Bytes) : Except TransportErrorKind Nat := do
  reject (line = [] ∨ 59 ∈ line ∨ !line.all isAsciiHexdigit) .invalidMessage
  reject (usizeBound ≤ hexNumber line) .resourceLimit
  return hexNumber line

section
variable {σ : Type} (sink : Sink σ)

/-- `while remaining != 0` over a connection. -/
def lengthLoop (remaining : Nat) (stream : Connection) (s : σ) : Except TransportErrorKind σ :=
  if remaining = 0 then .ok s
  else
    let got := stream.read (min remaining ioChunkBytes)
    if got.1 = [] then .error .invalidMessage
    else
      match sink.put got.1 s with
      | .error kind => .error kind
      | .ok s => lengthLoop (remaining - got.1.length) got.2 s
termination_by remaining
decreasing_by exact Nat.sub_lt (Nat.pos_of_ne_zero ‹_›) (List.length_pos_iff.mpr ‹¬got.1 = []›)

/-- The loop of a body that ends with the connection. -/
def closeLoop (admits : Nat → Bool) (stream : Connection) (s : σ) :
    Except TransportErrorKind σ :=
  let got := stream.read ioChunkBytes
  if got.1 = [] then .ok s
  else if !admits (sink.len s + got.1.length) then .error .resourceLimit
  else
    match sink.put got.1 s with
    | .error kind => .error kind
    | .ok s => closeLoop admits got.2 s
termination_by stream.all.length
decreasing_by exact Arrivals.all_read_lt ‹_›

/-- The loop over the data of one chunk. -/
def dataLoop (limit remaining : Nat) (wire : Wire) (s : σ) :
    Except TransportErrorKind (Wire × σ) :=
  if remaining = 0 then .ok (wire, s)
  else
    match readWireChecked limit (min remaining ioChunkBytes) wire with
    | .error kind => .error kind
    | .ok (bytes, wire) =>
      if bytes = [] then .error .invalidMessage
      else
        match sink.put bytes s with
        | .error kind => .error kind
        | .ok s => dataLoop limit (remaining - bytes.length) wire s
termination_by remaining
decreasing_by
  have := List.length_pos_iff.mpr ‹¬bytes = []›
  omega

/-- One turn of the loop over chunks: the next wire, or none at the last chunk. -/
def readChunk (admits : Nat → Bool) (limit : Nat) (wire : Wire) (s : σ) :
    Except TransportErrorKind (Option Wire × σ) := do
  let (line, wire) ← readCrlfLine 32 limit wire
  let size ← chunkSize line
  if size = 0 then
    let (last, _) ← readCrlfLine 2 limit wire
    reject (last ≠ []) .invalidMessage
    return (none, s)
  else
    reject (!admits (sink.len s + size)) .resourceLimit
    let (wire, s) ← dataLoop sink limit size wire s
    let (last, wire) ← readCrlfLine 2 limit wire
    reject (last ≠ []) .invalidMessage
    return (some wire, s)

end

/-! ## Every turn takes bytes -/

theorem PrefixedReader.read_left {n : Nat} (reader : PrefixedReader) :
    (reader.read n).1 ++ ((reader.read n).2.prefetched ++ (reader.read n).2.stream.all) =
      reader.prefetched ++ reader.stream.all := by
  unfold PrefixedReader.read
  split
  · rw [← List.append_assoc, List.take_append_drop]
  · next h =>
    rcases List.take_eq_nil_iff.mp (not_not.mp h) with rfl | hnil
    · have hread : (reader.stream.read 0).1 = [] :=
        List.length_eq_zero_iff.mp (Nat.le_zero.mp (Arrivals.read_length 0 _))
      have hall := Arrivals.read_all 0 reader.stream
      rw [hread, List.nil_append] at hall
      simp only [hread, hall, List.nil_append]
    · simp only [hnil, List.nil_append]
      exact Arrivals.read_all n reader.stream

theorem readWireChecked_ok {limit n : Nat} {wire next : Wire} {bytes : Bytes}
    (h : readWireChecked limit n wire = .ok (bytes, next)) :
    bytes ++ next.left = wire.left := by
  unfold readWireChecked at h
  split at h
  · obtain ⟨rfl, rfl⟩ := Prod.mk.inj (Except.ok.inj h)
    exact PrefixedReader.read_left _
  · split at h
    · cases h
    · split at h
      · cases h
      · obtain ⟨rfl, rfl⟩ := Prod.mk.inj (Except.ok.inj h)
        exact PrefixedReader.read_left _

theorem lineLoop_left {limit room : Nat} {line : Bytes} {wire next : Wire} {taken : Bytes}
    (h : lineLoop limit room line wire = .ok (taken, next)) :
    next.left.length < wire.left.length := by
  induction room generalizing line wire with
  | zero => cases h
  | succ room ih =>
    unfold lineLoop at h
    obtain ⟨⟨byte, mid⟩, hread, h⟩ := ok_bind h
    obtain ⟨_, hbyte, h⟩ := ok_bind h
    have hmid := congrArg List.length (readWireChecked_ok hread)
    have hpos := List.length_pos_iff.mpr (reject_ok hbyte)
    rw [List.length_append] at hmid
    dsimp only at h hpos
    split at h
    · obtain ⟨-, rfl⟩ := Prod.mk.inj (Except.ok.inj h)
      omega
    · have := ih h
      omega

theorem readCrlfLine_left {lineLimit limit : Nat} {wire next : Wire} {line : Bytes}
    (h : readCrlfLine lineLimit limit wire = .ok (line, next)) :
    next.left.length < wire.left.length := by
  obtain ⟨_, -, h⟩ := ok_bind h
  exact lineLoop_left h

section
variable {σ : Type} {sink : Sink σ}

theorem dataLoop_left {limit remaining : Nat} {wire next : Wire} {s s' : σ}
    (h : dataLoop sink limit remaining wire s = .ok (next, s')) :
    next.left.length ≤ wire.left.length := by
  induction remaining using Nat.strong_induction_on generalizing wire s with
  | _ remaining ih =>
    unfold dataLoop at h
    split at h
    · obtain ⟨rfl, -⟩ := Prod.mk.inj (Except.ok.inj h)
      exact le_rfl
    · split at h
      · cases h
      · next bytes mid hread =>
        have hmid := congrArg List.length (readWireChecked_ok hread)
        rw [List.length_append] at hmid
        split at h
        · cases h
        · next hbytes =>
          have hpos := List.length_pos_iff.mpr hbytes
          split at h
          · cases h
          · have := ih _ (by omega) h
            omega

theorem readChunk_left {admits : Nat → Bool} {limit : Nat} {wire next : Wire} {s s' : σ}
    (h : readChunk sink admits limit wire s = .ok (some next, s')) :
    next.left.length < wire.left.length := by
  obtain ⟨⟨line, w₁⟩, hline, h⟩ := ok_bind h
  obtain ⟨size, -, h⟩ := ok_bind h
  have h₁ := readCrlfLine_left hline
  dsimp only at h
  split at h
  · obtain ⟨⟨last, _⟩, -, h⟩ := ok_bind h
    obtain ⟨_, -, h⟩ := ok_bind h
    cases h
  · obtain ⟨_, -, h⟩ := ok_bind h
    obtain ⟨⟨w₂, s₂⟩, hdata, h⟩ := ok_bind h
    obtain ⟨⟨last, w₃⟩, hlast, h⟩ := ok_bind h
    obtain ⟨_, -, h⟩ := ok_bind h
    have h₂ := dataLoop_left hdata
    have h₃ := readCrlfLine_left hlast
    obtain ⟨h, -⟩ := Prod.mk.inj (Except.ok.inj h)
    obtain rfl := Option.some.inj h
    exact h₃.trans_le (h₂.trans h₁.le)

end

/-! ## The framings -/

section
variable {σ : Type} (sink : Sink σ)

def chunkedLoop (admits : Nat → Bool) (limit : Nat) (wire : Wire) (s : σ) :
    Except TransportErrorKind σ :=
  match _h : readChunk sink admits limit wire s with
  | .error kind => .error kind
  | .ok (none, s) => .ok s
  | .ok (some wire, s) => chunkedLoop admits limit wire s
termination_by wire.left.length
decreasing_by exact readChunk_left _h

/-- `read_chunked` and `read_chunked_to_writer`. The bytes that came with the head are
charged once, now; reading them again does not charge them. -/
def readChunkedInto (admits : Nat → Bool) (limit : Nat) (initial : Bytes) (stream : Connection)
    (s : σ) : Except TransportErrorKind σ := do
  reject (limit < initial.length) .resourceLimit
  chunkedLoop sink admits limit ⟨⟨initial, stream⟩, initial.length⟩ s

/-- A body of the given length. -/
def readLengthInto (limit length : Nat) (initial : Bytes) (stream : Connection) (s : σ) :
    Except TransportErrorKind σ := do
  reject (limit < length ∨ length < initial.length) .resourceLimit
  let s ← sink.put initial s
  lengthLoop sink (length - initial.length) stream s

/-- A body to the end of the stream. -/
def readCloseInto (limit : Nat) (initial : Bytes) (stream : Connection) (s : σ) :
    Except TransportErrorKind σ := do
  reject (limit < initial.length) .resourceLimit
  let s ← sink.put initial s
  closeLoop sink (· ≤ limit) stream s

end

/-! ## Responses -/

structure WireBody where
  chunks : ChunkChain
  memory : Reservation

structure RawResponse where
  status : Nat
  location : Option Text
  mediaType : Option Text
  filename : Option Text
  contentEncoding : ContentEncoding
  body : WireBody

/-- The body of `read_response`, by its framing. -/
def readChain (p : Platform) (limits : FetchLimits) (framing : Framing) (initial : Bytes)
    (stream : Connection) (memory : Reservation) :
    Except TransportErrorKind (ChunkChain × Reservation) :=
  let wireLimit := limits.maxWireBytes
  match framing with
  | .length length =>
    readLengthInto (chainSink p.nodeBytes) wireLimit length initial stream (.empty, memory)
  | .close => readCloseInto (chainSink p.nodeBytes) wireLimit initial stream (.empty, memory)
  | .chunked =>
    readChunkedInto (chainSink p.nodeBytes) (· ≤ wireLimit) wireLimit initial stream
      (.empty, memory)

/-- `read_response` with the memory that the request may use. -/
def readResponse (p : Platform) (limits : FetchLimits) (budget : Nat) (stream : Connection) :
    Except TransportErrorKind RawResponse := do
  let memory ← headMemory p (.none budget)
  let (bytes, headEnd, stream) ← readHead [] stream
  let head ← parseHead p.nfc (bytes.take headEnd)
  if isRedirect head.status then
    return ⟨head.status, head.location, none, none, .identity, ⟨.empty, .none budget⟩⟩
  else if head.status ≠ 200 then
    return ⟨head.status, none, none, none, .identity, ⟨.empty, .none budget⟩⟩
  else
    let (chunks, memory) ←
      readChain p limits head.framing (bytes.drop headEnd) stream memory
    let memory ← memory.shrink (headCapacity p)
    return ⟨head.status, none, head.mediaType, head.filename, head.contentEncoding,
      ⟨chunks, memory⟩⟩

structure RawStreamResponse where
  status : Nat
  location : Option Text
  mediaType : Option Text
  filename : Option Text
  bytesWritten : Nat
  deriving DecidableEq, Repr

/-- The body of `read_response_to_writer`, by its framing: what the writer holds at its end. -/
def readToWriter (limits : FetchLimits) (framing : Framing) (initial : Bytes)
    (stream : Connection) : Except TransportErrorKind Bytes :=
  let wireLimit := limits.maxWireBytes
  let decodedLimit := limits.maxDecodedBytes
  match framing with
  | .length length =>
    readLengthInto writerSink (min wireLimit decodedLimit) length initial stream []
  | .close => readCloseInto writerSink (min wireLimit decodedLimit) initial stream []
  | .chunked =>
    readChunkedInto writerSink (· ≤ decodedLimit) wireLimit initial stream []

/-- `read_response_to_writer`, and what the writer holds after it. -/
def readResponseToWriter (p : Platform) (limits : FetchLimits) (budget : Nat)
    (stream : Connection) : Except TransportErrorKind (RawStreamResponse × Bytes) := do
  let _ ← headMemory p (.none budget)
  let (bytes, headEnd, stream) ← readHead [] stream
  let head ← parseHead p.nfc (bytes.take headEnd)
  if head.status ≠ 200 ∨ isRedirect head.status then
    return (⟨head.status, head.location, none, none, 0⟩, [])
  else
    reject (head.contentEncoding ≠ .identity) .invalidMessage
    let output ← readToWriter limits head.framing (bytes.drop headEnd) stream
    return (⟨head.status, none, head.mediaType, head.filename, output.length⟩, output)

/-! ## The decoded body -/

/-- What the decoder's reads return, put into a chain. -/
def inflateLoop (p : Platform) (limit : Nat) :
    List Bytes → ChunkChain → Reservation →
      Except TransportErrorKind (ChunkChain × Reservation)
  | [], chain, memory => .ok (chain, memory)
  | piece :: pieces, chain, memory => do
    reject (limit < chain.len + piece.length) .resourceLimit
    let (chain, memory) ← chain.push p.nodeBytes piece memory
    inflateLoop p limit pieces chain memory

def copyOut (chain : ChunkChain) (memory : Reservation) :
    Except TransportErrorKind (Bytes × Reservation) := do
  let memory ← memory.grow chain.len
  let bytes ← chain.copyTo (List.replicate chain.len 0)
  let memory ← memory.shrink chain.reservedBytes
  return (bytes, memory)

def decodeGzip (p : Platform) (limits : FetchLimits) (wire : Bytes) (memory : Reservation) :
    Except TransportErrorKind (Bytes × Reservation) := do
  let (pieces, complete) := p.inflate wire
  let (chain, memory) ← inflateLoop p limits.maxDecodedBytes pieces .empty memory
  reject (!complete) .invalidMessage
  let memory ← memory.shrink wire.length
  copyOut chain memory

def decodeWire (p : Platform) (limits : FetchLimits) :
    ContentEncoding → Bytes → Reservation → Except TransportErrorKind (Bytes × Reservation)
  | .identity, wire, memory => .ok (wire, memory)
  | .gzip, wire, memory => decodeGzip p limits wire memory

/-- `finalize_body`: the bytes, and what stays reserved for them. -/
def finalizeBody (p : Platform) (limits : FetchLimits) (body : WireBody)
    (encoding : ContentEncoding) : Except TransportErrorKind (Bytes × Reservation) := do
  let (wire, memory) ← copyOut body.chunks body.memory
  let (decoded, memory) ← decodeWire p limits encoding wire memory
  reject (limits.maxDecodedBytes < decoded.length) .resourceLimit
  let _ ← memory.grow decoded.length
  let reservation ← (Reservation.none memory.budget).grow decoded.length
  return (decoded, reservation)

end IntoMarkdown.Http
