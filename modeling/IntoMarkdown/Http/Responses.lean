import IntoMarkdown.Http.Exact

/-! # Whole responses

`read_response` with `finalize_body`, and `read_response_to_writer`, on the bytes of a
stream and on every way of cutting them. -/

namespace IntoMarkdown.Http
open Lib

/-! ## Bytes delivered one by one -/

theorem read_singly {n : Nat} (hn : 0 < n) (byte : UInt8) (left : Bytes) :
    (Arrivals.singly (byte :: left)).read n = ([byte], .singly left) := by
  have hle : [byte].length ≤ n := hn
  unfold Arrivals.singly Arrivals.read
  simp only [List.map_cons]
  rw [dif_pos hle]

/-- The read that ends the head brings nothing else. -/
theorem readHead_singly {bytes left : Bytes} {r : Bytes × Nat × Connection}
    (hnone : findBytes headTerminator bytes = none)
    (h : readHead bytes (.singly left) = .ok r) : r.2.1 = r.1.length := by
  induction left generalizing bytes with
  | nil =>
    rw [readHead] at h
    split at h
    · cases h
    · have hread : ∀ n, (Arrivals.singly ([] : Bytes)).read n = ([], .singly []) := fun _ => rfl
      simp only [hread, List.append_nil, hnone, ↓reduceIte] at h
      cases h
  | cons byte left ih =>
    rw [readHead] at h
    split at h
    · cases h
    · next hroom =>
      have hpos : 0 < min (bytes.length + ioChunkBytes) (maxHeaderBytes + ioChunkBytes) -
          bytes.length := by
        unfold maxHeaderBytes ioChunkBytes at *
        omega
      simp only [read_singly hpos] at h
      split at h
      · next index hfind =>
        split at h
        · cases h
        · obtain rfl := (Except.ok.inj h).symm
          obtain ⟨hfirst, hindex⟩ := findBytes_some hfind
          have hend := hfirst.le hindex
          have hfour : headTerminator.length = 4 := rfl
          have hlength : (bytes ++ [byte]).length = bytes.length + 1 := List.length_append
          by_contra hne
          -- the terminator would lie in what had been read before
          refine findBytes_none headTerminator_ne hnone index ?_
          have hstarts := hfirst.starts
          rw [List.drop_append_of_le_length (by omega)] at hstarts
          refine List.prefix_of_prefix_length_le hstarts (List.prefix_append ..) ?_
          rw [List.length_drop]
          dsimp only at hne
          omega
      · next hfind => exact ih hfind h

/-! ## What a response is taken for -/

structure Seen where
  status : Nat
  location : Option Text
  mediaType : Option Text
  filename : Option Text
  contentEncoding : ContentEncoding
  body : Bytes
  deriving DecidableEq

def RawResponse.seen (r : RawResponse) : Seen :=
  ⟨r.status, r.location, r.mediaType, r.filename, r.contentEncoding,
    ChunkChain.content r.body.chunks.nodes⟩

theorem Reservation.grow_ok {memory : Reservation} {bytes : Nat}
    (h : memory.held + bytes ≤ memory.budget) :
    memory.grow bytes = .ok ⟨memory.held + bytes, memory.budget, h⟩ := dif_pos h

theorem Reservation.grow_error {memory : Reservation} {bytes : Nat}
    (h : ¬ memory.held + bytes ≤ memory.budget) : memory.grow bytes = .error .resourceLimit :=
  dif_neg h

theorem headMemory_ok {p : Platform} {budget : Nat} (h : headCapacity p ≤ budget) :
    headMemory p (.none budget) = .ok ⟨headCapacity p, budget, h⟩ := by
  have hcapacity : headCapacity p = 0 + (maxHeaderBytes + ioChunkBytes) + p.headSlack := by
    unfold headCapacity
    omega
  have hfirst : (Reservation.none budget).held + (maxHeaderBytes + ioChunkBytes) ≤
      (Reservation.none budget).budget := by
    simp only [Reservation.none]
    omega
  rw [headMemory, Reservation.grow_ok hfirst]
  simp only [bind, Except.bind]
  split
  · rw [Reservation.grow_ok (by simp only [Reservation.none]; omega)]
    simp only [Reservation.none, hcapacity]
  · have hzero : p.headSlack = 0 := by omega
    simp only [hcapacity, hzero, Reservation.none, Nat.add_zero]
    rfl

theorem headMemory_error {p : Platform} {budget : Nat} (h : budget < headCapacity p) :
    headMemory p (.none budget) = .error .resourceLimit := by
  have hcapacity : headCapacity p = 0 + (maxHeaderBytes + ioChunkBytes) + p.headSlack := by
    unfold headCapacity
    omega
  unfold headMemory
  by_cases hfirst : (Reservation.none budget).held + (maxHeaderBytes + ioChunkBytes) ≤
      (Reservation.none budget).budget
  · rw [Reservation.grow_ok hfirst]
    simp only [Reservation.none] at hfirst
    simp only [bind, Except.bind]
    rw [if_pos (by omega), Reservation.grow_error]
    simp only [Reservation.none]
    omega
  · rw [Reservation.grow_error hfirst]
    rfl

section
variable (p : Platform) (limits : FetchLimits) (budget : Nat)

/-- The read that ended the head of a 200 response brought more than its body may have. -/
def Overread (stream : Connection) : Prop :=
  ∃ r head, readHead [] stream = .ok r ∧ parseHead p.nfc (r.1.take r.2.1) = .ok head ∧
    head.status = 200 ∧ Surplus limits head.framing (r.1.drop r.2.1)

/-- A response that is not 200 has no body, and keeps its location if it is a redirect. -/
def bodiless (head : ParsedHead) : Seen :=
  ⟨head.status, if isRedirect head.status then head.location else none, none, none,
    .identity, []⟩

/-- The response that the bytes of a stream give. -/
def exactResponse (total : Bytes) : Except TransportErrorKind Seen := do
  reject (budget < headCapacity p) .resourceLimit
  let e ← headEnd total
  let head ← parseHead p.nfc (total.take e)
  if head.status ≠ 200 then return bodiless head
  else
    let body ← exactBody (ChunkChain.chainFits p.nodeBytes (headCapacity p) budget) limits
      head.framing (total.drop e)
    return ⟨200, none, head.mediaType, head.filename, head.contentEncoding, body⟩

end

section
variable {p : Platform} {limits : FetchLimits} (budget : Nat)

/-- A body that is read leaves only its nodes reserved. -/
theorem holds_shrink {base : Nat} {chunks : ChunkChain} {memory : Reservation} {xs : Bytes}
    (h : ChunkChain.Holds p.nodeBytes base budget (chunks, memory) xs) :
    ∃ memory', memory.shrink base = .ok memory' ∧
      ChunkChain.Holds p.nodeBytes 0 budget (chunks, memory') xs := by
  have hheld := h.held
  dsimp only at hheld
  refine ⟨_, if_pos (by omega), h.content, h.packed, h.len, h.reserved, ?_, h.budget, h.small⟩
  dsimp only
  omega

/-- A response with its body, and the memory that the body holds. -/
def ResponseIs (p : Platform) (budget : Nat) (r : RawResponse) (seen : Seen) : Prop :=
  r.seen = seen ∧
    ChunkChain.Holds p.nodeBytes 0 budget (r.body.chunks, r.body.memory) seen.body

theorem responseIs_bodiless {head : ParsedHead} {location : Option Text}
    (h : location = if isRedirect head.status then head.location else none) :
    ResponseIs p budget
      ⟨head.status, location, none, none, .identity, ⟨.empty, .none budget⟩⟩ (bodiless head) := by
  subst h
  have hempty : ChunkChain.Holds p.nodeBytes (Reservation.none budget).held
      (Reservation.none budget).budget (.empty, .none budget) [] := ChunkChain.holds_empty
  exact ⟨rfl, hempty⟩

/-- The outcome for a stream, unless the end of the head came with too much. -/
theorem readResponse_refines {stream : Connection} (h : ¬ Overread p limits stream) :
    Refines (ResponseIs p budget) (readResponse p limits budget stream)
      (exactResponse p limits budget stream.all) := by
  unfold readResponse exactResponse
  by_cases hbudget : budget < headCapacity p
  · rw [headMemory_error hbudget, reject_of hbudget]
    exact .error _
  rw [headMemory_ok (Nat.le_of_not_lt hbudget), reject_of_not hbudget]
  have hhead := readHead_refines stream (rfl : findBytes headTerminator [] = none)
    (Nat.zero_le _)
  rw [List.nil_append] at hhead
  cases hread : readHead [] stream with
  | error kind =>
    rw [hhead.of_error hread]
    exact .error _
  | ok r =>
    obtain ⟨e, hend, hr⟩ := hhead.of_ok hread
    obtain ⟨bytes, e', rest⟩ := r
    obtain rfl : e' = e := hr.ends
    rw [hend]
    simp only [bind, Except.bind]
    rw [← hr.take]
    cases hparse : parseHead p.nfc (bytes.take e') with
    | error kind => exact .error _
    | ok head =>
      dsimp only
      split
      · next hredirect =>
        have hstatus : head.status ≠ 200 := by
          intro h200
          rw [h200] at hredirect
          cases hredirect
        rw [if_pos hstatus]
        exact .ok (responseIs_bodiless budget (if_pos hredirect).symm)
      · next hredirect =>
        by_cases hstatus : head.status ≠ 200
        · rw [if_pos hstatus, if_pos hstatus]
          exact .ok (responseIs_bodiless budget (if_neg hredirect).symm)
        · rw [if_neg hstatus, if_neg hstatus]
          have hsurplus : ¬ Surplus limits head.framing (bytes.drop e') := fun hsurplus =>
            h ⟨_, head, hread, hparse, not_not.mp hstatus, hsurplus⟩
          have hchain := readChain_refines (p := p) hsurplus rest
            ⟨headCapacity p, budget, Nat.le_of_not_lt hbudget⟩
          rw [hr.drop] at hchain
          refine hchain.bind fun held body hbody => ?_
          obtain ⟨chunks, memory⟩ := held
          obtain ⟨memory', hshrink, hshrunk⟩ := holds_shrink budget hbody
          simp only [hshrink]
          refine .ok ⟨?_, hshrunk⟩
          rw [RawResponse.seen, hshrunk.content, not_not.mp hstatus]

theorem readResponse_overread {stream : Connection} (h : Overread p limits stream) :
    readResponse p limits budget stream = .error .resourceLimit := by
  obtain ⟨⟨bytes, e, rest⟩, head, hread, hparse, hstatus, hsurplus⟩ := h
  unfold readResponse
  by_cases hbudget : budget < headCapacity p
  · rw [headMemory_error hbudget]
    rfl
  · rw [headMemory_ok (Nat.le_of_not_lt hbudget)]
    simp only [bind, Except.bind, hread]
    dsimp only at hparse
    simp only [hparse, hstatus]
    rw [if_neg (by decide), if_neg (fun h => h rfl), readChain_surplus hsurplus]

theorem not_overread_singly (total : Bytes) : ¬ Overread p limits (.singly total) := by
  rintro ⟨r, head, hread, -, -, hsurplus⟩
  rw [readHead_singly rfl hread, List.drop_length] at hsurplus
  exact not_surplus_nil _ _ hsurplus

/-- How the bytes were cut shows only where the end of the head came with too much. -/
theorem readResponse_cut {stream : Connection} (h : ¬ Overread p limits stream) :
    (readResponse p limits budget stream).map RawResponse.seen =
      (readResponse p limits budget (.singly stream.all)).map RawResponse.seen := by
  have hcut := readResponse_refines budget h
  have hbytewise : ¬ Overread p limits (.singly stream.all) := not_overread_singly stream.all
  have hsingly := readResponse_refines budget hbytewise
  rw [Arrivals.all_singly] at hsingly
  have hmap : ∀ a b, ResponseIs p budget a b → RawResponse.seen a = id b := fun a b h => h.1
  rw [hcut.map_eq hmap, hsingly.map_eq hmap]

/-! ## What an accepted response is -/

/-- The head ends with the first empty line. -/
structure HeadOf (total head : Bytes) : Prop where
  prefixed : head <+: total
  ends : headTerminator <:+ head
  first : ∀ front, front <+: total → headTerminator <:+ front → head.length ≤ front.length

theorem headEnd_head {total : Bytes} {e : Nat} (h : headEnd total = .ok e) :
    HeadOf total (total.take e) := by
  cases hfind : findBytes headTerminator (total.take (maxHeaderBytes + ioChunkBytes)) with
  | none =>
    rw [headEnd_none hfind] at h
    split at h
    · cases h
    · cases h
  | some index =>
    rw [headEnd_some hfind] at h
    split at h
    · cases h
    · obtain rfl := Except.ok.inj h
      obtain ⟨hfirst, hindex⟩ := findBytes_some hfind
      have hend := hfirst.le hindex
      have hfour : headTerminator.length = 4 := rfl
      rw [List.length_take] at hend
      have hlength : (total.take (index + 4)).length = index + 4 :=
        List.length_take_of_le (by omega)
      -- the first place is the same in the whole and in the part that is searched
      have hwhole := findBytes_append headTerminator_ne hfind
        (total.drop (maxHeaderBytes + ioChunkBytes))
      rw [List.take_append_drop] at hwhole
      obtain ⟨hfirst, -⟩ := findBytes_some hwhole
      refine ⟨List.take_prefix _ _, ?_, fun front hfront hterm => ?_⟩
      · obtain ⟨rest, hrest⟩ := hfirst.starts
        refine ⟨total.take index, ?_⟩
        rw [List.take_add, ← hrest, ← hfour, List.take_left]
      · rw [hlength]
        by_contra hshort
        obtain ⟨start, rfl⟩ := hterm
        obtain ⟨rest, rfl⟩ := hfront
        rw [List.length_append] at hshort
        refine hfirst.earlier start.length (by omega) ⟨rest, ?_⟩
        rw [List.append_assoc, List.drop_left]

/-- What the framing prescribes for a stream: its head, and the body that follows. -/
structure Prescribed (p : Platform) (limits : FetchLimits) (total : Bytes) (seen : Seen) :
    Prop where
  exists_parts : ∃ headBytes head wire rest, total = headBytes ++ (wire ++ rest) ∧
    HeadOf total headBytes ∧ parseHead p.nfc headBytes = .ok head ∧ head.status = 200 ∧
    seen = ⟨200, none, head.mediaType, head.filename, head.contentEncoding, seen.body⟩ ∧
    Prescribes head.framing wire rest seen.body ∧ wire.length ≤ limits.maxWireBytes

theorem exactResponse_prescribed {total : Bytes} {seen : Seen}
    (h : exactResponse p limits budget total = .ok seen) (hstatus : seen.status = 200) :
    Prescribed p limits total seen := by
  obtain ⟨_, -, h⟩ := ok_bind h
  obtain ⟨e, hend, h⟩ := ok_bind h
  obtain ⟨head, hparse, h⟩ := ok_bind h
  split at h
  · next hother =>
    obtain rfl := Except.ok.inj h
    exact absurd hstatus hother
  · next hok =>
    obtain ⟨body, hbody, h⟩ := ok_bind h
    obtain rfl := Except.ok.inj h
    obtain ⟨wire, rest, hleft, hprescribes, hwire⟩ := exactBody_prescribed hbody
    refine ⟨total.take e, head, wire, rest, ?_, headEnd_head hend, hparse, not_not.mp hok, rfl,
      hprescribes, hwire⟩
    rw [← hleft, List.take_append_drop]

theorem readResponse_prescribed {stream : Connection} {r : RawResponse}
    (h : readResponse p limits budget stream = .ok r) (hstatus : r.status = 200) :
    Prescribed p limits stream.all r.seen := by
  have hover : ¬ Overread p limits stream := by
    intro hover
    rw [readResponse_overread budget hover] at h
    cases h
  obtain ⟨seen, hseen, rfl, -⟩ := (readResponse_refines budget hover).of_ok h
  exact exactResponse_prescribed budget hseen hstatus

/-! ## The pushed bytes in order -/

/-- Pushes one after the other. -/
def pushAll (nodeBytes : Nat) (pushes : List Bytes) (s : ChunkChain × Reservation) :
    Except TransportErrorKind (ChunkChain × Reservation) :=
  pushes.foldlM (fun s bytes => s.1.push nodeBytes bytes s.2) s

theorem pushAll_holds {nodeBytes base : Nat} {pushes : List Bytes}
    {s s' : ChunkChain × Reservation} {xs : Bytes}
    (h : ChunkChain.Holds nodeBytes base budget s xs) (hs : pushAll nodeBytes pushes s = .ok s') :
    ChunkChain.Holds nodeBytes base budget s' (xs ++ pushes.flatten) := by
  induction pushes generalizing s xs with
  | nil =>
    obtain rfl := Except.ok.inj hs
    simpa using h
  | cons bytes pushes ih =>
    rw [pushAll, List.foldlM_cons] at hs
    obtain ⟨s₁, hpush, hs⟩ := ok_bind hs
    obtain ⟨ys, hys, hholds⟩ := (ChunkChain.push_refines h bytes).of_ok hpush
    split at hys
    · obtain rfl := Except.ok.inj hys
      rw [List.flatten_cons, ← List.append_assoc]
      exact ih hholds hs
    · cases hys

/-! ## The two ways of taking a body -/

/-- The memory for a body of this length that is gathered before it is handed out. -/
def Covers (p : Platform) (budget length : Nat) : Prop :=
  ChunkChain.chainFits p.nodeBytes (headCapacity p) budget length ∧
    nodesFor length * p.nodeBytes + length ≤ budget ∧ length + length ≤ budget

theorem copyOut_holds {chunks : ChunkChain} {memory : Reservation} {xs : Bytes}
    (h : ChunkChain.Holds p.nodeBytes 0 budget (chunks, memory) xs)
    (hfit : nodesFor xs.length * p.nodeBytes + xs.length ≤ budget) :
    ∃ memory', copyOut chunks memory = .ok (xs, memory') ∧ memory'.held = xs.length ∧
      memory'.budget = budget := by
  have hheld : memory.held = nodesFor xs.length * p.nodeBytes := by simpa using h.held
  have hbudget : memory.budget = budget := h.budget
  have hlen : chunks.len = xs.length := h.len
  have hreserved : chunks.reservedBytes = nodesFor xs.length * p.nodeBytes := h.reserved
  have hcontent : ChunkChain.content chunks.nodes = xs := h.content
  have hcopy : chunks.copyTo (List.replicate chunks.len 0) = .ok xs := by
    rw [← hcontent]
    exact ChunkChain.copyTo_content (by rw [hcontent, hlen]) (List.length_replicate ..)
  have hgrow : memory.held + chunks.len ≤ memory.budget := by omega
  have hshrink : chunks.reservedBytes ≤ memory.held + chunks.len := by omega
  unfold copyOut
  rw [Reservation.grow_ok hgrow]
  simp only [bind, Except.bind, hcopy]
  rw [show Reservation.shrink ⟨memory.held + chunks.len, memory.budget, hgrow⟩
    chunks.reservedBytes = .ok ⟨memory.held + chunks.len - chunks.reservedBytes, memory.budget,
      (Nat.sub_le _ _).trans hgrow⟩ from if_pos hshrink]
  refine ⟨_, rfl, ?_, hbudget⟩
  dsimp only
  omega

theorem copyOut_error {chunks : ChunkChain} {memory : Reservation} {xs : Bytes}
    (h : ChunkChain.Holds p.nodeBytes 0 budget (chunks, memory) xs)
    (hfit : ¬ nodesFor xs.length * p.nodeBytes + xs.length ≤ budget) :
    copyOut chunks memory = .error .resourceLimit := by
  have hheld : memory.held = nodesFor xs.length * p.nodeBytes := by simpa using h.held
  have hbudget : memory.budget = budget := h.budget
  have hlen : chunks.len = xs.length := h.len
  unfold copyOut
  rw [Reservation.grow_error (by omega)]
  rfl

theorem finalizeBody_identity {chunks : ChunkChain} {memory : Reservation} {xs body : Bytes}
    (h : ChunkChain.Holds p.nodeBytes 0 budget (chunks, memory) xs) :
    (∃ reserved, finalizeBody p limits ⟨chunks, memory⟩ .identity = .ok (body, reserved)) ↔
      body = xs ∧ xs.length ≤ limits.maxDecodedBytes ∧
        nodesFor xs.length * p.nodeBytes + xs.length ≤ budget ∧ xs.length + xs.length ≤ budget := by
  unfold finalizeBody
  by_cases hfit : nodesFor xs.length * p.nodeBytes + xs.length ≤ budget
  swap
  · simp only [copyOut_error budget h hfit]
    refine iff_of_false ?_ fun h => hfit h.2.2.1
    rintro ⟨_, ⟨⟩⟩
  · obtain ⟨memory', hcopy, hheld, hbudget⟩ := copyOut_holds budget h hfit
    simp only [hcopy, bind, Except.bind, decodeWire]
    by_cases hdecoded : limits.maxDecodedBytes < xs.length
    · rw [reject_of hdecoded]
      refine iff_of_false ?_ fun h => by omega
      rintro ⟨_, ⟨⟩⟩
    · rw [reject_of_not hdecoded]
      by_cases hlast : memory'.held + xs.length ≤ memory'.budget
      · have hown : (Reservation.none memory'.budget).held + xs.length ≤
            (Reservation.none memory'.budget).budget := by
          simp only [Reservation.none]
          omega
        simp only [Reservation.grow_ok hlast, Reservation.grow_ok hown]
        constructor
        · rintro ⟨_, h⟩
          obtain ⟨rfl, -⟩ := Prod.mk.inj (Except.ok.inj h)
          exact ⟨rfl, by omega, hfit, by omega⟩
        · rintro ⟨rfl, -⟩
          exact ⟨_, rfl⟩
      · simp only [Reservation.grow_error hlast]
        refine iff_of_false ?_ fun h => by omega
        rintro ⟨_, ⟨⟩⟩

/-- What gathering the body and then handing it out delivers. -/
def Gathered (p : Platform) (limits : FetchLimits) (stream : Connection) (body : Bytes) : Prop :=
  ∃ r reserved, readResponse p limits budget stream = .ok r ∧ r.contentEncoding = .identity ∧
    finalizeBody p limits r.body r.contentEncoding = .ok (body, reserved)

/-- What the writer holds after a response that was accepted. -/
def Written (p : Platform) (limits : FetchLimits) (stream : Connection) (body : Bytes) : Prop :=
  ∃ info, readResponseToWriter p limits budget stream = .ok (info, body)

theorem gathered_of_seen {stream : Connection} (h : ¬ Overread p limits stream) {body : Bytes} :
    Gathered budget p limits stream body ↔
      ∃ seen, exactResponse p limits budget stream.all = .ok seen ∧
        seen.contentEncoding = .identity ∧ seen.body = body ∧
        body.length ≤ limits.maxDecodedBytes ∧
        nodesFor body.length * p.nodeBytes + body.length ≤ budget ∧
        body.length + body.length ≤ budget := by
  have href := readResponse_refines budget h
  constructor
  · rintro ⟨r, reserved, hread, hidentity, hfinal⟩
    obtain ⟨seen, hseen, rfl, hholds⟩ := href.of_ok hread
    rw [hidentity] at hfinal
    obtain ⟨rfl, hlimits⟩ := (finalizeBody_identity budget hholds).mp ⟨reserved, hfinal⟩
    exact ⟨r.seen, hseen, hidentity, rfl, hlimits⟩
  · rintro ⟨seen, hseen, hidentity, rfl, hlimits⟩
    obtain ⟨r, hread, rfl, hholds⟩ := href.ok_of hseen
    obtain ⟨reserved, hfinal⟩ := (finalizeBody_identity budget hholds).mpr ⟨rfl, hlimits⟩
    have hencoding : r.contentEncoding = .identity := hidentity
    refine ⟨r, reserved, hread, hencoding, ?_⟩
    rw [hencoding]
    exact hfinal

theorem not_written_of_overread {stream : Connection} (h : Overread p limits stream)
    (body : Bytes) : ¬ Written budget p limits stream body := by
  obtain ⟨⟨bytes, e, rest⟩, head, hread, hparse, hstatus, hsurplus⟩ := h
  rintro ⟨info, hwritten⟩
  obtain ⟨_, -, hwritten⟩ := ok_bind hwritten
  obtain ⟨⟨bytes', e', rest'⟩, hread', hwritten⟩ := ok_bind hwritten
  obtain ⟨head', hparse', hwritten⟩ := ok_bind hwritten
  rw [hread] at hread'
  obtain ⟨rfl, hrest⟩ := Prod.mk.inj (Except.ok.inj hread')
  obtain ⟨rfl, rfl⟩ := Prod.mk.inj hrest
  rw [hparse] at hparse'
  obtain rfl := Except.ok.inj hparse'
  have hok : ¬ (head.status ≠ 200 ∨ isRedirect head.status) := by
    rw [hstatus]
    decide
  rw [if_neg hok] at hwritten
  obtain ⟨_, -, hwritten⟩ := ok_bind hwritten
  obtain ⟨output, houtput, -⟩ := ok_bind hwritten
  dsimp only at hsurplus
  rw [readToWriter_surplus hsurplus] at houtput
  cases houtput

/-- What the two ways have in common: the head of a response with the bytes after it, and
the body that they give. -/
inductive Carries (p : Platform) (limits : FetchLimits) (total body : Bytes) : Prop where
  | bodiless (e : Nat) (head : ParsedHead) (hend : headEnd total = .ok e)
      (hparse : parseHead p.nfc (total.take e) = .ok head) (hstatus : head.status ≠ 200)
      (hbody : body = [])
  | framed (e : Nat) (head : ParsedHead) (hend : headEnd total = .ok e)
      (hparse : parseHead p.nfc (total.take e) = .ok head) (hstatus : head.status = 200)
      (hencoding : head.contentEncoding = .identity)
      (haccepts : Accepts limits head.framing (total.drop e) body)

theorem written_iff {stream : Connection} (h : ¬ Overread p limits stream) {body : Bytes} :
    Written budget p limits stream body ↔
      headCapacity p ≤ budget ∧ Carries p limits stream.all body ∧
        body.length ≤ limits.maxDecodedBytes := by
  by_cases hbudget : headCapacity p ≤ budget
  swap
  · refine iff_of_false ?_ fun h => hbudget h.1
    rintro ⟨_, hwritten⟩
    unfold readResponseToWriter at hwritten
    rw [headMemory_error (Nat.lt_of_not_le hbudget)] at hwritten
    cases hwritten
  have hhead := readHead_refines stream (rfl : findBytes headTerminator [] = none)
    (Nat.zero_le _)
  rw [List.nil_append] at hhead
  constructor
  · rintro ⟨info, hwritten⟩
    obtain ⟨_, -, hwritten⟩ := ok_bind hwritten
    obtain ⟨⟨bytes, e', rest⟩, hread, hwritten⟩ := ok_bind hwritten
    obtain ⟨head, hparse, hwritten⟩ := ok_bind hwritten
    obtain ⟨e, hend, hr⟩ := hhead.of_ok hread
    obtain rfl : e' = e := hr.ends
    have htake : bytes.take e' = stream.all.take e' := hr.take
    have hdrop : bytes.drop e' ++ rest.all = stream.all.drop e' := hr.drop
    rw [htake] at hparse
    refine ⟨hbudget, ?_⟩
    split at hwritten
    · next hother =>
      obtain ⟨-, rfl⟩ := Prod.mk.inj (Except.ok.inj hwritten)
      have hstatus : head.status ≠ 200 := by
        rcases hother with hother | hredirect
        · exact hother
        · intro h200
          rw [h200] at hredirect
          cases hredirect
      exact ⟨.bodiless e' head hend hparse hstatus rfl, Nat.zero_le _⟩
    · next hok =>
      push Not at hok
      obtain ⟨_, hencoding, hwritten⟩ := ok_bind hwritten
      obtain ⟨output, houtput, hwritten⟩ := ok_bind hwritten
      obtain ⟨-, rfl⟩ := Prod.mk.inj (Except.ok.inj hwritten)
      have hsurplus : ¬ Surplus limits head.framing (bytes.drop e') := fun hsurplus =>
        h ⟨_, head, hread, by rw [← hparse, ← htake], hok.1, hsurplus⟩
      obtain ⟨haccepts, hdecoded⟩ := (readToWriter_iff hsurplus rest).mp houtput
      rw [hdrop] at haccepts
      exact ⟨.framed e' head hend hparse hok.1 (not_not.mp (reject_ok hencoding)) haccepts,
        hdecoded⟩
  · rintro ⟨-, hcarries, hdecoded⟩
    have hwriter : ∀ e head, headEnd stream.all = .ok e →
        parseHead p.nfc (stream.all.take e) = .ok head →
        ∃ bytes rest, readHead [] stream = .ok (bytes, e, rest) ∧
          parseHead p.nfc (bytes.take e) = .ok head ∧
          bytes.drop e ++ rest.all = stream.all.drop e := by
      intro e head hend hparse
      obtain ⟨⟨bytes, e', rest⟩, hread, hr⟩ := hhead.ok_of hend
      obtain rfl : e' = e := hr.ends
      have htake : bytes.take e' = stream.all.take e' := hr.take
      exact ⟨bytes, rest, hread, by rw [htake]; exact hparse, hr.drop⟩
    unfold Written readResponseToWriter
    rw [headMemory_ok hbudget]
    cases hcarries with
    | bodiless e head hend hparse hstatus hbody =>
      subst hbody
      obtain ⟨bytes, rest, hread, hparse, -⟩ := hwriter e head hend hparse
      simp only [hread, hparse, bind, Except.bind]
      rw [if_pos (Or.inl hstatus)]
      exact ⟨_, rfl⟩
    | framed e head hend hparse hstatus hencoding haccepts =>
      obtain ⟨bytes, rest, hread, hparse, hdrop⟩ := hwriter e head hend hparse
      have hsurplus : ¬ Surplus limits head.framing (bytes.drop e) := fun hsurplus =>
        h ⟨_, head, hread, hparse, hstatus, hsurplus⟩
      have hok : ¬ (head.status ≠ 200 ∨ isRedirect head.status) := by
        rw [hstatus]
        decide
      rw [← hdrop] at haccepts
      have houtput := (readToWriter_iff hsurplus rest).mpr ⟨haccepts, hdecoded⟩
      simp only [hread, hparse, bind, Except.bind]
      rw [if_neg hok, reject_of_not (not_not.mpr hencoding)]
      simp only [houtput]
      exact ⟨_, rfl⟩

theorem exactResponse_iff {total body : Bytes} :
    (∃ seen, exactResponse p limits budget total = .ok seen ∧
        seen.contentEncoding = .identity ∧ seen.body = body) ↔
      headCapacity p ≤ budget ∧ Carries p limits total body ∧
        ChunkChain.chainFits p.nodeBytes (headCapacity p) budget body.length := by
  have hzero : headCapacity p ≤ budget →
      ChunkChain.chainFits p.nodeBytes (headCapacity p) budget 0 := by
    intro hle
    exact ⟨by decide, by simpa using hle⟩
  constructor
  · rintro ⟨seen, hseen, hidentity, rfl⟩
    obtain ⟨_, hbudget, hseen⟩ := ok_bind hseen
    have hle := Nat.le_of_not_lt (reject_ok hbudget)
    obtain ⟨e, hend, hseen⟩ := ok_bind hseen
    obtain ⟨head, hparse, hseen⟩ := ok_bind hseen
    refine ⟨hle, ?_⟩
    split at hseen
    · next hstatus =>
      obtain rfl := Except.ok.inj hseen
      exact ⟨.bodiless e head hend hparse hstatus rfl, hzero hle⟩
    · next hstatus =>
      obtain ⟨body, hbody, hseen⟩ := ok_bind hseen
      obtain rfl := Except.ok.inj hseen
      obtain ⟨haccepts, hfits⟩ :=
        (exactBody_iff (hzero hle) ChunkChain.chainFits_mono).mp hbody
      exact ⟨.framed e head hend hparse (not_not.mp hstatus) hidentity haccepts, hfits⟩
  · rintro ⟨hle, hcarries, hfits⟩
    unfold exactResponse
    rw [reject_of_not (Nat.not_lt_of_le hle)]
    cases hcarries with
    | bodiless e head hend hparse hstatus hbody =>
      subst hbody
      simp only [hend, hparse, bind, Except.bind]
      rw [if_pos hstatus]
      exact ⟨_, rfl, rfl, rfl⟩
    | framed e head hend hparse hstatus hencoding haccepts =>
      have hbody := (exactBody_iff (hzero hle) ChunkChain.chainFits_mono).mpr ⟨haccepts, hfits⟩
      simp only [hend, hparse, bind, Except.bind]
      rw [if_neg (not_not.mpr hstatus)]
      simp only [hbody]
      exact ⟨_, rfl, hencoding, rfl⟩

/-- Both ways accept the same streams and deliver the same bytes, where the memory covers
a body that is gathered. -/
theorem gathered_iff_written (stream : Connection) (body : Bytes) :
    Gathered budget p limits stream body ↔
      Written budget p limits stream body ∧ Covers p budget body.length := by
  by_cases hover : Overread p limits stream
  · refine iff_of_false ?_ fun h => not_written_of_overread budget hover body h.1
    rintro ⟨r, _, hread, -⟩
    rw [readResponse_overread budget hover] at hread
    cases hread
  · rw [gathered_of_seen budget hover, written_iff budget hover]
    constructor
    · rintro ⟨seen, hseen, hidentity, hbody, hdecoded, hcover⟩
      obtain ⟨hle, hcarries, hfits⟩ :=
        (exactResponse_iff budget).mp ⟨seen, hseen, hidentity, hbody⟩
      exact ⟨⟨hle, hcarries, hdecoded⟩, hfits, hcover⟩
    · rintro ⟨⟨hle, hcarries, hdecoded⟩, hfits, hcover⟩
      obtain ⟨seen, hseen, hidentity, hbody⟩ :=
        (exactResponse_iff budget).mpr ⟨hle, hcarries, hfits⟩
      exact ⟨seen, hseen, hidentity, hbody, hdecoded, hcover⟩

end

/-! ## A byte too many -/

theorem readHead_once {bytes : Bytes} {index : Nat} (hne : ∀ run ∈ [bytes], run ≠ [])
    (hlength : bytes.length ≤ ioChunkBytes) (hfind : findBytes headTerminator bytes = some index)
    (hindex : index + 4 ≤ maxHeaderBytes) :
    readHead [] ⟨[bytes], hne⟩ = .ok (bytes, index + 4, ⟨[], List.forall_mem_nil _⟩) := by
  have hread : (⟨[bytes], hne⟩ : Connection).read ioChunkBytes =
      (bytes, ⟨[], List.forall_mem_nil _⟩) := by
    unfold Arrivals.read
    simp only [hlength, ↓reduceDIte]
  have hroom : min (([] : Bytes).length + ioChunkBytes) (maxHeaderBytes + ioChunkBytes) -
      ([] : Bytes).length = ioChunkBytes := rfl
  rw [readHead, if_neg (by decide), hroom]
  dsimp only
  rw [hread]
  simp only [List.nil_append, hfind]
  rw [if_neg (Nat.not_lt_of_le hindex)]

def oneByteHead : Text := "HTTP/1.1 200 OK\r\nContent-Length: 1\r\n\r\n".toList

/-- The head of a response of one byte, and two bytes, in one piece. -/
def surplusBytes : Bytes := Utf8.encode oneByteHead ++ [97, 98]

def surplusStream : Connection := ⟨[surplusBytes], by decide +kernel⟩

def samplePlatform : Platform := ⟨id, 8208, 0, fun _ => ([], true)⟩

def sampleLimits : FetchLimits := ⟨1024, 1024⟩

theorem oneByteHead_parsed : parseHead id (Utf8.encode oneByteHead) =
    .ok ⟨200, .length 1, none, none, none, .identity⟩ := by
  rw [parseHead, Utf8.decode_encode]
  decide +kernel

theorem surplus_overread : Overread samplePlatform sampleLimits surplusStream := by
  have hread : readHead [] surplusStream =
      .ok (surplusBytes, 38, ⟨[], List.forall_mem_nil _⟩) :=
    readHead_once _ (by decide +kernel) (by decide +kernel) (by decide)
  have htake : surplusBytes.take 38 = Utf8.encode oneByteHead := by decide +kernel
  have hdrop : surplusBytes.drop 38 = [97, 98] := by decide +kernel
  refine ⟨_, ⟨200, .length 1, none, none, none, .identity⟩, hread, ?_, rfl, ?_⟩
  · rw [htake]
    exact oneByteHead_parsed
  · rw [hdrop]
    decide

theorem surplus_exact : ∃ seen, exactResponse samplePlatform sampleLimits 100000 surplusBytes =
    .ok seen ∧ seen.contentEncoding = .identity ∧ seen.body = [97] := by
  have hend : headEnd surplusBytes = .ok 38 := by decide +kernel
  have htake : surplusBytes.take 38 = Utf8.encode oneByteHead := by decide +kernel
  have hdrop : surplusBytes.drop 38 = [97, 98] := by decide +kernel
  have hparse : parseHead samplePlatform.nfc (surplusBytes.take 38) =
      .ok ⟨200, .length 1, none, none, none, .identity⟩ := by
    rw [htake]
    exact oneByteHead_parsed
  have haccepts : Accepts sampleLimits (.length 1) (surplusBytes.drop 38) [97] := by
    rw [hdrop]
    exact ⟨by decide, by decide, rfl⟩
  exact (exactResponse_iff 100000).mpr
    ⟨by decide, .framed 38 _ hend hparse rfl rfl haccepts, by decide⟩

end IntoMarkdown.Http
