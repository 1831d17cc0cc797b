import IntoMarkdown.Http.Chain

/-! # Bodies on one run of bytes

The same framings where all bytes are there at once. The loops refine them, however
the bytes are cut, as long as a place for bytes tells only how many it takes. -/

namespace IntoMarkdown.Http
open Lib

/-! ## The wire as one run of bytes -/

structure Run where
  left : Bytes
  allowance : Nat
  deriving DecidableEq

/-- The next `n` bytes, or what stops the reader before them. -/
def Run.take (n : Nat) (run : Run) : Except TransportErrorKind (Bytes × Run) :=
  if n ≤ run.left.length ∧ n ≤ run.allowance then
    .ok (run.left.take n, ⟨run.left.drop n, run.allowance - n⟩)
  else if run.allowance ≤ run.left.length then .error .resourceLimit
  else .error .invalidMessage

theorem Run.take_add {run : Run} {m : Nat} (hleft : m ≤ run.left.length)
    (hallowed : m ≤ run.allowance) (n : Nat) :
    run.take (m + n) = ((⟨run.left.drop m, run.allowance - m⟩ : Run).take n).map
      fun r => (run.left.take m ++ r.1, r.2) := by
  unfold Run.take
  dsimp only
  rw [List.length_drop]
  have hfit : (n ≤ run.left.length - m ∧ n ≤ run.allowance - m) ↔
      (m + n ≤ run.left.length ∧ m + n ≤ run.allowance) := by omega
  have hlimit : run.allowance - m ≤ run.left.length - m ↔ run.allowance ≤ run.left.length := by
    omega
  simp only [hfit, hlimit]
  split
  · simp only [Except.map, List.take_add, List.drop_drop, Nat.sub_sub]
  · split
    · rfl
    · rfl

/-- The wire holds what is left of the run. -/
structure Wire.Is (limit : Nat) (wire : Wire) (run : Run) : Prop where
  left : wire.left = run.left
  allowance : wire.allowance limit = run.allowance
  counted : wire.consumed ≤ limit

/-- What a read that got bytes has done. -/
structure Took (limit n : Nat) (run : Run) (bytes : Bytes) (next : Wire) : Prop where
  isRun : next.Is limit ⟨run.left.drop bytes.length, run.allowance - bytes.length⟩
  eq_take : bytes = run.left.take bytes.length
  le : bytes.length ≤ n
  allowed : bytes.length ≤ run.allowance
  short : bytes = [] → run.left = []

theorem took_of {limit n : Nat} {wire next : Wire} {run : Run} {bytes : Bytes}
    (h : wire.Is limit run) (hleft : bytes ++ next.left = wire.left)
    (hallowance : next.allowance limit + bytes.length = wire.allowance limit)
    (hcounted : next.consumed ≤ limit) (hle : bytes.length ≤ n)
    (hshort : bytes = [] → run.left = []) : Took limit n run bytes next := by
  have hrun : bytes ++ next.left = run.left := hleft.trans h.left
  have hallow := h.allowance
  refine ⟨⟨?_, by dsimp only; omega, hcounted⟩, ?_, hle, by omega, hshort⟩
  · rw [← hrun, List.drop_left]
  · rw [← hrun, List.take_left]

theorem readWireChecked_spec {limit n : Nat} {wire : Wire} {run : Run}
    (h : wire.Is limit run) (hn : 0 < n) :
    (run.allowance = 0 ∧ readWireChecked limit n wire = .error .resourceLimit) ∨
    (0 < run.allowance ∧
      ∃ bytes next, readWireChecked limit n wire = .ok (bytes, next) ∧
        Took limit n run bytes next) := by
  have hallow := h.allowance
  have hcount := h.counted
  unfold Wire.allowance at hallow
  unfold readWireChecked PrefixedReader.hasPrefetchedBytes
  by_cases hpre : wire.reader.prefetched = []
  · rw [if_neg (by simpa using hpre), if_neg (by omega)]
    rw [hpre, List.length_nil, Nat.add_zero] at hallow
    by_cases hzero : limit - wire.consumed = 0
    · rw [if_pos hzero]
      exact Or.inl ⟨by omega, rfl⟩
    · rw [if_neg hzero]
      have hread : wire.reader.read (min n (limit - wire.consumed)) =
          ((wire.reader.stream.read (min n (limit - wire.consumed))).1,
            ⟨[], (wire.reader.stream.read (min n (limit - wire.consumed))).2⟩) := by
        simp [PrefixedReader.read, hpre]
      rw [hread]
      have hlength := Arrivals.read_length (min n (limit - wire.consumed)) wire.reader.stream
      have hall := Arrivals.read_all (min n (limit - wire.consumed)) wire.reader.stream
      have hnil := Arrivals.read_eq_nil (n := min n (limit - wire.consumed)) (by omega)
        wire.reader.stream
      refine Or.inr ⟨by omega, _, _, rfl, took_of h ?_ ?_ ?_ ?_ ?_⟩
      · simpa [Wire.left, hpre] using hall
      · simp only [Wire.allowance, hpre, List.length_nil]
        omega
      · dsimp only
        omega
      · omega
      · intro hgot
        rw [← h.left, Wire.left, hpre, List.nil_append]
        exact hnil.mp hgot
  · rw [if_pos (by simpa using hpre)]
    have hpos := List.length_pos_iff.mpr hpre
    have htake : wire.reader.prefetched.take n ≠ [] := by
      rw [Ne, List.take_eq_nil_iff]
      rintro (rfl | hnil)
      · exact absurd hn (Nat.lt_irrefl 0)
      · exact hpre hnil
    have hread : wire.reader.read n = (wire.reader.prefetched.take n,
        { wire.reader with prefetched := wire.reader.prefetched.drop n }) := if_pos htake
    rw [hread]
    refine Or.inr ⟨by omega, _, _, rfl, took_of h ?_ ?_ hcount ?_ fun hgot => absurd hgot htake⟩
    · rw [Wire.left, Wire.left, ← List.append_assoc, List.take_append_drop]
    · simp only [Wire.allowance, List.length_drop, List.length_take]
      omega
    · exact List.length_take_le ..

/-! ## Lines -/

/-- A value beside a wire and the same value beside its run. -/
def Beside {α : Type} (limit : Nat) (a : α × Wire) (b : α × Run) : Prop :=
  a.1 = b.1 ∧ a.2.Is limit b.2

def lineRun : Nat → Bytes → Run → Except TransportErrorKind (Bytes × Run)
  | 0, _, _ => .error .resourceLimit
  | room + 1, line, run => do
    let (byte, run) ← run.take 1
    let line := line ++ byte
    if crlf <:+ line then return (line.take (line.length - 2), run)
    else lineRun room line run

theorem lineLoop_refines {limit : Nat} (room : Nat) (line : Bytes) {wire : Wire} {run : Run}
    (h : wire.Is limit run) :
    Refines (Beside limit) (lineLoop limit room line wire) (lineRun room line run) := by
  induction room generalizing line wire run with
  | zero => exact .error _
  | succ room ih =>
    unfold lineLoop lineRun
    rcases readWireChecked_spec h Nat.one_pos with ⟨hzero, hread⟩ | ⟨hpos, bytes, next, hread, htook⟩
    · have htake : run.take 1 = .error .resourceLimit := by
        rw [Run.take, if_neg (by omega), if_pos (by omega)]
      rw [hread, htake]
      exact .error _
    · rw [hread]
      by_cases hnil : bytes = []
      · have hleft := htook.short hnil
        have htake : run.take 1 = .error .invalidMessage := by
          rw [Run.take, hleft, List.length_nil, if_neg (by omega), if_neg (by omega)]
        rw [htake]
        simp only [hnil, bind, Except.bind, reject_of]
        exact .error _
      · have hone : bytes.length = 1 :=
          le_antisymm htook.le (List.length_pos_iff.mpr hnil)
        have hbytes := htook.eq_take
        have hnext := htook.isRun
        rw [hone] at hbytes hnext
        have hsome : 1 ≤ run.left.length := by
          have := congrArg List.length hbytes
          rw [List.length_take, hone] at this
          omega
        have htake : run.take 1 = .ok (bytes, ⟨run.left.drop 1, run.allowance - 1⟩) := by
          rw [Run.take, if_pos ⟨hsome, hpos⟩, ← hbytes]
        rw [htake]
        simp only [bind, Except.bind, reject_of_not hnil]
        split
        · exact .ok ⟨rfl, hnext⟩
        · exact ih _ hnext

theorem readCrlfLine_refines {limit lineLimit : Nat} (hline : lineLimit ≤ 32) {wire : Wire}
    {run : Run} (h : wire.Is limit run) :
    Refines (Beside limit) (readCrlfLine lineLimit limit wire) (lineRun lineLimit [] run) := by
  unfold readCrlfLine
  rw [reject_of_not (by omega)]
  exact lineLoop_refines lineLimit [] h

/-! ## Places for bytes -/

/-- A sink keeps the bytes it was given, in their order, as long as their number fits. -/
structure Sink.Keeps {σ : Type} (sink : Sink σ) (R : σ → Bytes → Prop) (fits : Nat → Prop)
    [DecidablePred fits] : Prop where
  len : ∀ {s xs}, R s xs → sink.len s = xs.length
  put : ∀ {s xs}, R s xs → ∀ bytes, Refines R (sink.put bytes s)
    (if fits (xs.length + bytes.length) then .ok (xs ++ bytes) else .error .resourceLimit)
  held : ∀ {s xs}, R s xs → fits xs.length
  mono : ∀ {m n}, m ≤ n → fits n → fits m

theorem chainSink_keeps (nodeBytes base budget : Nat) :
    (chainSink nodeBytes).Keeps (ChunkChain.Holds nodeBytes base budget)
      (ChunkChain.chainFits nodeBytes base budget) where
  len h := h.len
  put h bytes := ChunkChain.push_refines h bytes
  held h := h.fits
  mono h hn := ChunkChain.chainFits_mono h hn

theorem writerSink_keeps : writerSink.Keeps (· = ·) (fun _ => True) where
  len h := congrArg List.length h
  put h bytes := by
    subst h
    rw [if_pos trivial]
    exact .ok rfl
  held _ := trivial
  mono _ _ := trivial

section
variable (fits : Nat → Prop) [DecidablePred fits]

/-- The data of a chunk: what does not fit stops the reader first. -/
def dataRun (size : Nat) (run : Run) (xs : Bytes) : Except TransportErrorKind (Run × Bytes) :=
  if fits (xs.length + min size (min run.left.length run.allowance)) then
    (run.take size).map fun r => (r.2, xs ++ r.1)
  else .error .resourceLimit

def lengthRun (size : Nat) (left xs : Bytes) : Except TransportErrorKind Bytes :=
  if fits (xs.length + min size left.length) then
    if left.length < size then .error .invalidMessage else .ok (xs ++ left.take size)
  else .error .resourceLimit

def closeRun (limit : Nat) (left xs : Bytes) : Except TransportErrorKind Bytes :=
  if xs.length + left.length ≤ limit ∧ fits (xs.length + left.length) then .ok (xs ++ left)
  else .error .resourceLimit

def chunkRun (admits : Nat → Bool) (run : Run) (xs : Bytes) :
    Except TransportErrorKind (Option Run × Bytes) := do
  let (line, run) ← lineRun 32 [] run
  let size ← chunkSize line
  if size = 0 then
    let (last, _) ← lineRun 2 [] run
    reject (last ≠ []) .invalidMessage
    return (none, xs)
  else
    reject (!admits (xs.length + size)) .resourceLimit
    let (run, xs) ← dataRun fits size run xs
    let (last, run) ← lineRun 2 [] run
    reject (last ≠ []) .invalidMessage
    return (some run, xs)

end

section
variable {σ : Type} {sink : Sink σ} {R : σ → Bytes → Prop} {fits : Nat → Prop}
  [DecidablePred fits]

/-- Data read in two parts. -/
theorem dataRun_step {size : Nat} {run : Run} {xs bytes : Bytes}
    (hbytes : bytes = run.left.take bytes.length) (hle : bytes.length ≤ size)
    (hallowed : bytes.length ≤ run.allowance) :
    dataRun fits size run xs =
      dataRun fits (size - bytes.length)
        ⟨run.left.drop bytes.length, run.allowance - bytes.length⟩ (xs ++ bytes) := by
  have hleft : bytes.length ≤ run.left.length := by
    have := congrArg List.length hbytes
    rw [List.length_take] at this
    omega
  have hsum : xs.length + min size (min run.left.length run.allowance) =
      (xs ++ bytes).length + min (size - bytes.length)
        (min (run.left.drop bytes.length).length (run.allowance - bytes.length)) := by
    rw [List.length_append, List.length_drop]
    omega
  obtain ⟨more, rfl⟩ := Nat.exists_eq_add_of_le hle
  unfold dataRun
  rw [hsum, Run.take_add hleft hallowed, ← hbytes, Nat.add_sub_cancel_left]
  congr 1
  generalize Run.take more _ = r
  cases r with
  | error kind => rfl
  | ok r => simp [Except.map]

theorem dataLoop_refines (hsink : sink.Keeps R fits) {limit : Nat} (size : Nat) {wire : Wire}
    {run : Run} {s : σ} {xs : Bytes} (h : wire.Is limit run) (hs : R s xs) :
    Refines (fun a b => a.1.Is limit b.1 ∧ R a.2 b.2) (dataLoop sink limit size wire s)
      (dataRun fits size run xs) := by
  induction size using Nat.strong_induction_on generalizing wire run s xs with
  | _ size ih =>
    unfold dataLoop
    by_cases hzero : size = 0
    · subst hzero
      rw [if_pos rfl, dataRun, Nat.zero_min, Nat.add_zero, if_pos (hsink.held hs), Run.take,
        if_pos ⟨Nat.zero_le _, Nat.zero_le _⟩]
      refine .ok ⟨?_, ?_⟩
      · simpa using h
      · simpa using hs
    · rw [if_neg hzero]
      rcases readWireChecked_spec (n := min size ioChunkBytes) h
        (by unfold ioChunkBytes; omega) with ⟨hnone, hread⟩ | ⟨hpos, bytes, next, hread, htook⟩
      · have hrun : dataRun fits size run xs = .error .resourceLimit := by
          have hfits : fits (xs.length + min size (min run.left.length run.allowance)) := by
            rw [hnone, Nat.min_zero, Nat.min_zero]
            exact hsink.held hs
          rw [dataRun, if_pos hfits, Run.take, if_neg (by omega), if_pos (by omega)]
          rfl
        rw [hread, hrun]
        exact .error _
      · rw [hread]
        have hle : bytes.length ≤ size := htook.le.trans (Nat.min_le_left ..)
        dsimp only
        by_cases hnil : bytes = []
        · have hleft := htook.short hnil
          have hrun : dataRun fits size run xs = .error .invalidMessage := by
            have hfits : fits (xs.length + min size (min run.left.length run.allowance)) := by
              rw [hleft, List.length_nil, Nat.zero_min, Nat.min_zero]
              exact hsink.held hs
            rw [dataRun, if_pos hfits, Run.take, hleft, List.length_nil, if_neg (by omega),
              if_neg (by omega)]
            rfl
          rw [if_pos hnil, hrun]
          exact .error _
        · rw [if_neg hnil]
          have hlength := List.length_pos_iff.mpr hnil
          have hput := hsink.put hs bytes
          by_cases hfit : fits (xs.length + bytes.length)
          · rw [if_pos hfit] at hput
            obtain ⟨s', hs', hR⟩ := hput.ok_of rfl
            rw [hs', dataRun_step htook.eq_take hle htook.allowed]
            exact ih _ (by omega) htook.isRun hR
          · rw [if_neg hfit] at hput
            have hrun : dataRun fits size run xs = .error .resourceLimit := by
              rw [dataRun, if_neg]
              intro hfits
              have hleft : bytes.length ≤ run.left.length := by
                have := congrArg List.length htook.eq_take
                rw [List.length_take] at this
                omega
              have hallowed := htook.allowed
              exact hfit (hsink.mono (by omega) hfits)
            rw [hrun, hput.eq_error]
            exact .error _

theorem chunk_refines (hsink : sink.Keeps R fits) (admits : Nat → Bool) {limit : Nat}
    {wire : Wire} {run : Run} {s : σ} {xs : Bytes} (h : wire.Is limit run) (hs : R s xs) :
    Refines (fun a b => Option.Rel (Wire.Is limit) a.1 b.1 ∧ R a.2 b.2)
      (readChunk sink admits limit wire s) (chunkRun fits admits run xs) := by
  unfold readChunk chunkRun
  refine (readCrlfLine_refines le_rfl h).bind fun ⟨line, wire⟩ ⟨line', run⟩ ⟨hline, hwire⟩ => ?_
  obtain rfl : line = line' := hline
  dsimp only
  cases chunkSize line with
  | error kind => exact .error _
  | ok size =>
    simp only [bind, Except.bind]
    split
    · have hlast := readCrlfLine_refines (show 2 ≤ 32 by omega) hwire
      refine hlast.bind fun ⟨last, _⟩ ⟨last', _⟩ ⟨hlast, _⟩ => ?_
      obtain rfl : last = last' := hlast
      dsimp only
      by_cases hempty : last ≠ []
      · rw [reject_of hempty]
        exact .error _
      · rw [reject_of_not hempty]
        exact .ok ⟨.none, hs⟩
    · rw [hsink.len hs]
      by_cases hadmits : !admits (xs.length + size)
      · rw [reject_of hadmits]
        exact .error _
      · rw [reject_of_not hadmits]
        refine (dataLoop_refines hsink size hwire hs).bind
          fun ⟨wire, s⟩ ⟨run, xs⟩ ⟨hwire, hs⟩ => ?_
        have hlast := readCrlfLine_refines (show 2 ≤ 32 by omega) hwire
        refine hlast.bind fun ⟨last, wire⟩ ⟨last', run⟩ ⟨hlast, hwire⟩ => ?_
        obtain rfl : last = last' := hlast
        dsimp only
        by_cases hempty : last ≠ []
        · rw [reject_of hempty]
          exact .error _
        · rw [reject_of_not hempty]
          exact .ok ⟨.some hwire, hs⟩

theorem lengthRun_step {size : Nat} {left xs bytes : Bytes} (hle : bytes.length ≤ size) :
    lengthRun fits size (bytes ++ left) xs =
      lengthRun fits (size - bytes.length) left (xs ++ bytes) := by
  obtain ⟨more, rfl⟩ := Nat.exists_eq_add_of_le hle
  have hsum : xs.length + min (bytes.length + more) (bytes ++ left).length =
      (xs ++ bytes).length + min more left.length := by
    rw [List.length_append, List.length_append]
    omega
  unfold lengthRun
  rw [Nat.add_sub_cancel_left, hsum]
  congr 1
  simp only [List.length_append, Nat.add_lt_add_iff_left, List.take_length_add_append,
    List.append_assoc]

theorem lengthLoop_refines (hsink : sink.Keeps R fits) (remaining : Nat) (stream : Connection)
    {s : σ} {xs : Bytes} (hs : R s xs) :
    Refines R (lengthLoop sink remaining stream s) (lengthRun fits remaining stream.all xs) := by
  induction remaining using Nat.strong_induction_on generalizing stream s xs with
  | _ remaining ih =>
    unfold lengthLoop
    by_cases hzero : remaining = 0
    · subst hzero
      rw [if_pos rfl, lengthRun, Nat.zero_min, Nat.add_zero, if_pos (hsink.held hs),
        if_neg (Nat.not_lt_zero _)]
      exact .ok (by simpa using hs)
    · rw [if_neg hzero]
      dsimp only
      have hall := Arrivals.read_all (min remaining ioChunkBytes) stream
      have hle := Arrivals.read_length (min remaining ioChunkBytes) stream
      have hshort := Arrivals.read_eq_nil (n := min remaining ioChunkBytes)
        (by unfold ioChunkBytes; omega) stream
      revert hall hle hshort
      generalize stream.read (min remaining ioChunkBytes) = got
      obtain ⟨bytes, rest⟩ := got
      intro hall hle hshort
      by_cases hnil : bytes = []
      · have hleft := hshort.mp hnil
        have hfits : fits (xs.length + min remaining stream.all.length) := by
          rw [hleft, List.length_nil, Nat.min_zero]
          exact hsink.held hs
        rw [if_pos hnil, lengthRun, if_pos hfits, hleft, List.length_nil,
          if_pos (Nat.pos_of_ne_zero hzero)]
        exact .error _
      · rw [if_neg hnil]
        have hlength := List.length_pos_iff.mpr hnil
        have hle : bytes.length ≤ remaining := hle.trans (Nat.min_le_left ..)
        have hput := hsink.put hs bytes
        dsimp only at hall ⊢
        by_cases hfit : fits (xs.length + bytes.length)
        · rw [if_pos hfit] at hput
          obtain ⟨s', hs', hR⟩ := hput.ok_of rfl
          rw [hs', ← hall, lengthRun_step hle]
          exact ih _ (by omega) rest hR
        · rw [if_neg hfit] at hput
          have hrun : lengthRun fits remaining stream.all xs = .error .resourceLimit := by
            rw [lengthRun, if_neg]
            intro hfits
            have := congrArg List.length hall
            rw [List.length_append] at this
            exact hfit (hsink.mono (by omega) hfits)
          rw [hrun, hput.eq_error]
          exact .error _

theorem closeLoop_refines (hsink : sink.Keeps R fits) (limit : Nat) (stream : Connection)
    {s : σ} {xs : Bytes} (hs : R s xs) (hxs : xs.length ≤ limit) :
    Refines R (closeLoop sink (· ≤ limit) stream s) (closeRun fits limit stream.all xs) := by
  induction hn : stream.all.length using Nat.strong_induction_on generalizing stream s xs with
  | _ n ih =>
    subst hn
    unfold closeLoop
    dsimp only
    have hall := Arrivals.read_all ioChunkBytes stream
    have hshort := Arrivals.read_eq_nil (n := ioChunkBytes) (by decide) stream
    have hless := Arrivals.all_read_lt (n := ioChunkBytes) (a := stream)
    revert hall hshort hless
    generalize stream.read ioChunkBytes = got
    obtain ⟨bytes, rest⟩ := got
    intro hall hshort hless
    dsimp only at hall hshort hless ⊢
    by_cases hnil : bytes = []
    · have hleft := hshort.mp hnil
      rw [if_pos hnil, closeRun, hleft, List.length_nil, Nat.add_zero,
        if_pos ⟨hxs, hsink.held hs⟩, List.append_nil]
      exact .ok hs
    · have hlength := congrArg List.length hall
      rw [List.length_append] at hlength
      rw [if_neg hnil, hsink.len hs]
      by_cases hadmits : xs.length + bytes.length ≤ limit
      · rw [if_neg (by simpa using hadmits)]
        have hput := hsink.put hs bytes
        by_cases hfit : fits (xs.length + bytes.length)
        · rw [if_pos hfit] at hput
          obtain ⟨s', hs', hR⟩ := hput.ok_of rfl
          have hrun : closeRun fits limit stream.all xs =
              closeRun fits limit rest.all (xs ++ bytes) := by
            have hsum : xs.length + stream.all.length = (xs ++ bytes).length + rest.all.length := by
              rw [List.length_append]
              omega
            rw [closeRun, closeRun, hsum, ← hall, List.append_assoc]
          rw [hs', hrun]
          exact ih _ (hless hnil) rest hR (by rw [List.length_append]; exact hadmits) rfl
        · rw [if_neg hfit] at hput
          rw [hput.eq_error, closeRun, if_neg]
          · exact .error _
          · exact fun h => hfit (hsink.mono (by omega) h.2)
      · rw [if_pos (by simpa using hadmits), closeRun, if_neg (by omega)]
        exact .error _

end

/-! ## Chunks as they are written -/

/-- The size line of a chunk. -/
structure SizeLine (line : Bytes) (size : Nat) : Prop where
  nonempty : line ≠ []
  digits : ∀ byte ∈ line, isAsciiHexdigit byte
  value : hexNumber line = size

theorem chunkSize_ok {line : Bytes} {size : Nat} (h : chunkSize line = .ok size) :
    SizeLine line size := by
  obtain ⟨_, hline, h⟩ := ok_bind h
  obtain ⟨_, -, h⟩ := ok_bind h
  have hline := reject_ok hline
  push Not at hline
  exact ⟨hline.1, List.all_eq_true.mp (by simpa using hline.2.2), Except.ok.inj h⟩

/-- The wire form of a chunked body without extensions and trailers. -/
inductive ChunkedBody : Bytes → Bytes → Prop where
  | last {line : Bytes} (h : SizeLine line 0) : ChunkedBody (line ++ crlf ++ crlf) []
  | chunk {line data wire body : Bytes} (h : SizeLine line data.length) (hdata : data ≠ [])
      (hrest : ChunkedBody wire body) :
      ChunkedBody (line ++ crlf ++ data ++ crlf ++ wire) (data ++ body)

theorem Run.take_ok {run next : Run} {n : Nat} {bytes : Bytes}
    (h : run.take n = .ok (bytes, next)) :
    bytes.length = n ∧ run.left = bytes ++ next.left ∧ run.allowance = n + next.allowance := by
  unfold Run.take at h
  split at h
  · next hfit =>
    obtain ⟨rfl, rfl⟩ := Prod.mk.inj (Except.ok.inj h)
    exact ⟨List.length_take_of_le hfit.1, (List.take_append_drop ..).symm,
      (Nat.add_sub_cancel' hfit.2).symm⟩
  · split at h
    · cases h
    · cases h

theorem take_append_crlf {line : Bytes} (h : crlf <:+ line) :
    line.take (line.length - 2) ++ crlf = line := by
  obtain ⟨front, rfl⟩ := h
  rw [List.length_append, show front.length + crlf.length - 2 = front.length from rfl,
    List.take_left]

theorem lineRun_ok {room : Nat} {line taken : Bytes} {run next : Run}
    (h : lineRun room line run = .ok (taken, next)) :
    ∃ used, line ++ used = taken ++ crlf ∧ run.left = used ++ next.left ∧
      run.allowance = used.length + next.allowance := by
  induction room generalizing line run with
  | zero => cases h
  | succ room ih =>
    unfold lineRun at h
    obtain ⟨⟨byte, mid⟩, htake, h⟩ := ok_bind h
    obtain ⟨hone, hleft, hallowance⟩ := Run.take_ok htake
    dsimp only at h
    split at h
    · next hend =>
      obtain ⟨rfl, rfl⟩ := Prod.mk.inj (Except.ok.inj h)
      exact ⟨byte, (take_append_crlf hend).symm, hleft, by rw [hone]; exact hallowance⟩
    · obtain ⟨used, hused, hrest, hmore⟩ := ih h
      refine ⟨byte ++ used, ?_, ?_, ?_⟩
      · rw [← List.append_assoc, hused]
      · rw [hleft, hrest, List.append_assoc]
      · rw [List.length_append]
        omega

/-- A line that starts at the run. -/
theorem lineRun_starts {room : Nat} {taken : Bytes} {run next : Run}
    (h : lineRun room [] run = .ok (taken, next)) :
    run.left = taken ++ crlf ++ next.left ∧
      run.allowance = taken.length + 2 + next.allowance := by
  obtain ⟨used, hused, hleft, hallowance⟩ := lineRun_ok h
  rw [List.nil_append] at hused
  subst hused
  rw [List.length_append] at hallowance
  exact ⟨hleft, hallowance⟩

/-- What one turn takes off the run, and the data it gets. -/
inductive Chunk (run : Run) : Option Run → Bytes → Prop where
  | last {line : Bytes} (next : Run) (h : SizeLine line 0)
      (hleft : run.left = line ++ crlf ++ crlf ++ next.left)
      (hallowance : run.allowance = (line ++ crlf ++ crlf).length + next.allowance) :
      Chunk run none []
  | more {line data : Bytes} {next : Run} (h : SizeLine line data.length) (hdata : data ≠ [])
      (hleft : run.left = line ++ crlf ++ data ++ crlf ++ next.left)
      (hallowance : run.allowance = (line ++ crlf ++ data ++ crlf).length + next.allowance) :
      Chunk run (some next) data

section
variable {fits : Nat → Prop} [DecidablePred fits] {admits : Nat → Bool}

theorem dataRun_ok {size : Nat} {run next : Run} {xs ys : Bytes}
    (h : dataRun fits size run xs = .ok (next, ys)) :
    ∃ data, data.length = size ∧ ys = xs ++ data ∧ run.left = data ++ next.left ∧
      run.allowance = size + next.allowance := by
  unfold dataRun at h
  split at h
  · obtain ⟨⟨data, rest⟩, htake, heq⟩ := map_ok h
    obtain ⟨rfl, rfl⟩ := Prod.mk.inj heq
    obtain ⟨hlength, hleft, hallowance⟩ := Run.take_ok htake
    exact ⟨data, hlength, rfl, hleft, hallowance⟩
  · cases h

theorem chunkRun_ok {run : Run} {xs ys : Bytes} {next : Option Run}
    (h : chunkRun fits admits run xs = .ok (next, ys)) :
    ∃ data, Chunk run next data ∧ ys = xs ++ data := by
  obtain ⟨⟨line, r₁⟩, hline, h⟩ := ok_bind h
  obtain ⟨size, hsize, h⟩ := ok_bind h
  obtain ⟨hleft, hallowance⟩ := lineRun_starts hline
  have hsize := chunkSize_ok hsize
  dsimp only at h
  split at h
  · next hzero =>
    obtain ⟨⟨last, r₂⟩, hlast, h⟩ := ok_bind h
    obtain ⟨_, hempty, h⟩ := ok_bind h
    obtain ⟨rfl, rfl⟩ := Prod.mk.inj (Except.ok.inj h)
    obtain rfl : last = [] := not_not.mp (reject_ok hempty)
    obtain ⟨hleft₂, hallowance₂⟩ := lineRun_starts hlast
    subst hzero
    refine ⟨[], .last r₂ hsize ?_ ?_, (List.append_nil _).symm⟩
    · rw [hleft, hleft₂]
      simp
    · rw [hallowance, hallowance₂]
      simp [crlf]
      omega
  · next hzero =>
    obtain ⟨_, -, h⟩ := ok_bind h
    obtain ⟨⟨r₂, zs⟩, hdata, h⟩ := ok_bind h
    obtain ⟨⟨last, r₃⟩, hlast, h⟩ := ok_bind h
    obtain ⟨_, hempty, h⟩ := ok_bind h
    obtain ⟨rfl, rfl⟩ := Prod.mk.inj (Except.ok.inj h)
    obtain rfl : last = [] := not_not.mp (reject_ok hempty)
    obtain ⟨data, rfl, rfl, hleft₂, hallowance₂⟩ := dataRun_ok hdata
    obtain ⟨hleft₃, hallowance₃⟩ := lineRun_starts hlast
    refine ⟨data, .more hsize (fun hnil => hzero (by rw [hnil]; rfl)) ?_ ?_, rfl⟩
    · rw [hleft, hleft₂, hleft₃]
      simp
    · rw [hallowance, hallowance₂, hallowance₃]
      simp [crlf]
      omega

theorem Chunk.left_lt {run next : Run} {data : Bytes} (h : Chunk run (some next) data) :
    next.left.length < run.left.length := by
  cases h with
  | more _ hdata hleft _ =>
    have := List.length_pos_iff.mpr hdata
    rw [hleft]
    simp only [List.length_append]
    omega

theorem Chunk.admitted {run : Run} {next : Option Run} {data : Bytes} (h : Chunk run next data) :
    data.length + (next.elim 0 Run.allowance) ≤ run.allowance := by
  cases h with
  | last next _ _ hallowance => exact Nat.zero_le _
  | more _ _ _ hallowance =>
    rw [hallowance]
    simp only [List.length_append, Option.elim_some]
    omega

end

section
variable (fits : Nat → Prop) [DecidablePred fits] (admits : Nat → Bool)

def chunkedRun (run : Run) (xs : Bytes) : Except TransportErrorKind Bytes :=
  match _h : chunkRun fits admits run xs with
  | .error kind => .error kind
  | .ok (none, ys) => .ok ys
  | .ok (some next, ys) => chunkedRun next ys
termination_by run.left.length
decreasing_by
  obtain ⟨_, hchunk, -⟩ := chunkRun_ok _h
  exact hchunk.left_lt

theorem chunkedRun_error {run : Run} {xs : Bytes} {kind : TransportErrorKind}
    (h : chunkRun fits admits run xs = .error kind) :
    chunkedRun fits admits run xs = .error kind := by
  rw [chunkedRun]
  split <;> simp_all

theorem chunkedRun_none {run : Run} {xs ys : Bytes}
    (h : chunkRun fits admits run xs = .ok (none, ys)) :
    chunkedRun fits admits run xs = .ok ys := by
  rw [chunkedRun]
  split <;> simp_all

theorem chunkedRun_some {run next : Run} {xs ys : Bytes}
    (h : chunkRun fits admits run xs = .ok (some next, ys)) :
    chunkedRun fits admits run xs = chunkedRun fits admits next ys := by
  rw [chunkedRun]
  split <;> simp_all

end

section
variable {σ : Type} {sink : Sink σ} {R : σ → Bytes → Prop} {fits : Nat → Prop}
  [DecidablePred fits]

theorem chunkedLoop_refines (hsink : sink.Keeps R fits) (admits : Nat → Bool) {limit : Nat}
    {wire : Wire} {run : Run} {s : σ} {xs : Bytes} (h : wire.Is limit run) (hs : R s xs) :
    Refines R (chunkedLoop sink admits limit wire s) (chunkedRun fits admits run xs) := by
  induction hn : run.left.length using Nat.strong_induction_on
    generalizing wire run s xs with
  | _ n ih =>
    subst hn
    have hchunk := chunk_refines hsink admits h hs
    rw [chunkedLoop]
    cases hrun : chunkRun fits admits run xs with
    | error kind =>
      rw [hrun] at hchunk
      rw [chunkedRun_error _ _ hrun]
      split
      · next he => rw [hchunk.eq_error] at he; cases he; exact .error _
      · next he => rw [hchunk.eq_error] at he; cases he
      · next he => rw [hchunk.eq_error] at he; cases he
    | ok r =>
      obtain ⟨next, ys⟩ := r
      rw [hrun] at hchunk
      obtain ⟨⟨wire', s'⟩, hread, hnext, hs'⟩ := hchunk.ok_of rfl
      cases hnext with
      | none =>
        rw [chunkedRun_none _ _ hrun]
        split
        · next he => rw [hread] at he; cases he
        · next he => rw [hread] at he; cases he; exact .ok hs'
        · next he => rw [hread] at he; cases he
      | some hnext =>
        rw [chunkedRun_some _ _ hrun]
        obtain ⟨_, hdata, -⟩ := chunkRun_ok hrun
        split
        · next he => rw [hread] at he; cases he
        · next he => rw [hread] at he; cases he
        · next he =>
          rw [hread] at he
          cases he
          exact ih _ hdata.left_lt hnext hs' rfl

end

/-! ## With the bytes that came with the head -/

section
variable {σ : Type} {sink : Sink σ} {R : σ → Bytes → Prop} {fits : Nat → Prop}
  [DecidablePred fits]

theorem readLengthInto_refines (hsink : sink.Keeps R fits) {s : σ} (hs : R s []) (limit : Nat)
    {length : Nat} {initial : Bytes} (hinitial : initial.length ≤ length)
    (stream : Connection) :
    Refines R (readLengthInto sink limit length initial stream s)
      (if limit < length then .error .resourceLimit
        else lengthRun fits length (initial ++ stream.all) []) := by
  unfold readLengthInto
  by_cases hlimit : limit < length
  · rw [reject_of (Or.inl hlimit), if_pos hlimit]
    exact .error _
  · rw [reject_of_not (by omega), if_neg hlimit]
    have hput := hsink.put hs initial
    rw [List.length_nil, Nat.zero_add, List.nil_append] at hput
    by_cases hfit : fits initial.length
    · rw [if_pos hfit] at hput
      obtain ⟨s', hs', hR⟩ := hput.ok_of rfl
      simp only [hs', bind, Except.bind]
      rw [lengthRun_step hinitial, List.nil_append]
      exact lengthLoop_refines hsink _ stream hR
    · rw [if_neg hfit] at hput
      have hrun : lengthRun fits length (initial ++ stream.all) [] = .error .resourceLimit := by
        rw [lengthRun, if_neg]
        intro hfits
        rw [List.length_append] at hfits
        exact hfit (hsink.mono (by simp only [List.length_nil]; omega) hfits)
      rw [hput.eq_error, hrun]
      exact .error _

theorem readCloseInto_refines (hsink : sink.Keeps R fits) {s : σ} (hs : R s []) (limit : Nat)
    (initial : Bytes) (stream : Connection) :
    Refines R (readCloseInto sink limit initial stream s)
      (closeRun fits limit (initial ++ stream.all) []) := by
  unfold readCloseInto
  by_cases hlimit : limit < initial.length
  · rw [reject_of hlimit, closeRun, if_neg]
    · exact .error _
    · simp only [List.length_append, List.length_nil]
      omega
  · rw [reject_of_not hlimit]
    have hput := hsink.put hs initial
    rw [List.length_nil, Nat.zero_add, List.nil_append] at hput
    by_cases hfit : fits initial.length
    · rw [if_pos hfit] at hput
      obtain ⟨s', hs', hR⟩ := hput.ok_of rfl
      have hrun : closeRun fits limit (initial ++ stream.all) [] =
          closeRun fits limit stream.all initial := by
        simp only [closeRun, List.length_append, List.length_nil, Nat.zero_add, List.nil_append]
      simp only [hs', bind, Except.bind]
      rw [hrun]
      exact closeLoop_refines hsink limit stream hR (Nat.le_of_not_lt hlimit)
    · rw [if_neg hfit] at hput
      rw [hput.eq_error, closeRun, if_neg]
      · exact .error _
      · intro h
        simp only [List.length_append] at h
        exact hfit (hsink.mono (by omega) h.2)

theorem readChunkedInto_refines (hsink : sink.Keeps R fits) (admits : Nat → Bool) {s : σ}
    (hs : R s []) {limit : Nat} {initial : Bytes} (hinitial : initial.length ≤ limit)
    (stream : Connection) :
    Refines R (readChunkedInto sink admits limit initial stream s)
      (chunkedRun fits admits ⟨initial ++ stream.all, limit⟩ []) := by
  unfold readChunkedInto
  rw [reject_of_not (by omega)]
  exact chunkedLoop_refines hsink admits ⟨rfl, Nat.sub_add_cancel hinitial, hinitial⟩ hs

end

end IntoMarkdown.Http
