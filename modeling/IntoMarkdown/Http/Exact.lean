import IntoMarkdown.Http.Framing

/-! # Bodies are framed exactly

What is accepted is what the framing prescribes. The outcome depends on how the bytes
were cut only where the read that ends the head brings more than the body may have. -/

namespace IntoMarkdown.Http
open Lib

/-! ## What is accepted -/

section
variable {fits : Nat → Prop} [DecidablePred fits] {admits : Nat → Bool}

/-- A chunked body is taken as it was written, within the allowance. -/
theorem chunkedRun_ok {run : Run} {xs ys : Bytes} (h : chunkedRun fits admits run xs = .ok ys) :
    ∃ wire body rest, run.left = wire ++ rest ∧ ChunkedBody wire body ∧ ys = xs ++ body ∧
      wire.length ≤ run.allowance := by
  induction hn : run.left.length using Nat.strong_induction_on generalizing run xs with
  | _ n ih =>
    subst hn
    cases hrun : chunkRun fits admits run xs with
    | error kind =>
      rw [chunkedRun_error _ _ hrun] at h
      cases h
    | ok r =>
      obtain ⟨next, zs⟩ := r
      obtain ⟨data, hchunk, rfl⟩ := chunkRun_ok hrun
      cases hchunk with
      | last next hsize hleft hallowance =>
        rw [chunkedRun_none _ _ hrun] at h
        obtain rfl := Except.ok.inj h
        exact ⟨_, [], next.left, hleft, .last hsize, rfl, by omega⟩
      | @more line _ next hsize hdata hleft hallowance =>
        rw [chunkedRun_some _ _ hrun] at h
        have hless := (Chunk.more hsize hdata hleft hallowance).left_lt
        obtain ⟨wire, body, rest, hrest, hbody, rfl, hwire⟩ := ih _ hless h rfl
        refine ⟨_, data ++ body, rest, ?_, .chunk hsize hdata hbody, List.append_assoc .., ?_⟩
        · rw [hleft, hrest]
          simp only [List.append_assoc]
        · simp only [List.length_append] at hallowance ⊢
          omega

theorem dataRun_iff {size : Nat} {run next : Run} {xs ys : Bytes} :
    dataRun fits size run xs = .ok (next, ys) ↔
      dataRun (fun _ => True) size run xs = .ok (next, ys) ∧ fits ys.length := by
  unfold dataRun
  rw [if_pos trivial]
  by_cases htake : size ≤ run.left.length ∧ size ≤ run.allowance
  · have hmin : min size (min run.left.length run.allowance) = size := by omega
    rw [hmin, Run.take, if_pos htake]
    have hlength : (xs ++ run.left.take size).length = xs.length + size := by
      rw [List.length_append, List.length_take_of_le htake.1]
    constructor
    · intro h
      split at h
      · next hfit =>
        refine ⟨h, ?_⟩
        obtain ⟨-, rfl⟩ := Prod.mk.inj (Except.ok.inj h)
        rw [hlength]
        exact hfit
      · cases h
    · rintro ⟨h, hfit⟩
      obtain ⟨rfl, rfl⟩ := Prod.mk.inj (Except.ok.inj h)
      rw [hlength] at hfit
      rw [if_pos hfit]
      rfl
  · have herror : ∀ r, (run.take size).map (fun r => (r.2, xs ++ r.1)) ≠ .ok r := by
      intro r h
      obtain ⟨⟨bytes, rest⟩, hok, -⟩ := map_ok h
      obtain ⟨hbytes, hleft, hallowance⟩ := Run.take_ok hok
      have := congrArg List.length hleft
      rw [List.length_append] at this
      omega
    refine iff_of_false (fun h => ?_) (fun h => herror _ h.1)
    split at h
    · exact herror _ h
    · cases h

/-- The limits on the body decide only whether it is taken, not what is taken. -/
theorem chunkRun_iff {run : Run} {xs ys : Bytes} {next : Option Run} (hfits : fits xs.length)
    (hadmits : admits xs.length) :
    chunkRun fits admits run xs = .ok (next, ys) ↔
      chunkRun (fun _ => True) (fun _ => true) run xs = .ok (next, ys) ∧
        fits ys.length ∧ admits ys.length := by
  unfold chunkRun
  cases lineRun 32 [] run with
  | error kind => exact iff_of_false (fun h => by cases h) (fun h => by cases h.1)
  | ok r =>
    obtain ⟨line, r₁⟩ := r
    cases hsize : chunkSize line with
    | error kind =>
      simp only [bind, Except.bind, hsize]
      exact iff_of_false (fun h => by cases h) (fun h => by cases h.1)
    | ok size =>
      simp only [bind, Except.bind, hsize]
      split
      · refine ⟨fun h => ⟨h, ?_⟩, fun h => h.1⟩
        obtain ⟨_, -, h⟩ := ok_bind h
        obtain ⟨_, -, h⟩ := ok_bind h
        obtain ⟨-, rfl⟩ := Prod.mk.inj (Except.ok.inj h)
        exact ⟨hfits, hadmits⟩
      · constructor
        · intro h
          obtain ⟨_, hreject, h⟩ := ok_bind h
          obtain ⟨⟨r₂, zs⟩, hdata, h⟩ := ok_bind h
          have hadmitted := reject_ok hreject
          obtain ⟨hfree, hfit⟩ := dataRun_iff.mp hdata
          obtain ⟨data, hlength, rfl, -⟩ := dataRun_ok hfree
          have hys : xs ++ data = ys := by
            obtain ⟨_, -, h'⟩ := ok_bind h
            obtain ⟨_, -, h'⟩ := ok_bind h'
            exact (Prod.mk.inj (Except.ok.inj h')).2
          refine ⟨?_, ?_⟩
          · rw [reject_of_not (by simp), hfree]
            exact h
          · rw [← hys]
            refine ⟨hfit, ?_⟩
            rw [List.length_append, hlength]
            simpa using hadmitted
        · rintro ⟨h, hfit, hadmits⟩
          rw [reject_of_not (by simp)] at h
          obtain ⟨⟨r₂, zs⟩, hdata, h⟩ := ok_bind h
          obtain ⟨data, hlength, rfl, -⟩ := dataRun_ok hdata
          have hys : xs ++ data = ys := by
            obtain ⟨_, -, h'⟩ := ok_bind h
            obtain ⟨_, -, h'⟩ := ok_bind h'
            exact (Prod.mk.inj (Except.ok.inj h')).2
          rw [← hys] at hfit hadmits
          rw [List.length_append, hlength] at hadmits
          rw [reject_of_not (by simpa using hadmits), dataRun_iff.mpr ⟨hdata, hfit⟩]
          exact h

theorem chunkedRun_iff (hmono : ∀ {m n}, m ≤ n → fits n → fits m)
    (hless : ∀ {m n}, m ≤ n → admits n → admits m) {run : Run} {xs ys : Bytes}
    (hfits : fits xs.length) (hadmits : admits xs.length) :
    chunkedRun fits admits run xs = .ok ys ↔
      chunkedRun (fun _ => True) (fun _ => true) run xs = .ok ys ∧
        fits ys.length ∧ admits ys.length := by
  induction hn : run.left.length using Nat.strong_induction_on generalizing run xs with
  | _ n ih =>
    subst hn
    cases hfree : chunkRun (fun _ => True) (fun _ => true) run xs with
    | error kind =>
      rw [chunkedRun_error _ _ hfree]
      refine iff_of_false (fun h => ?_) (fun h => by cases h.1)
      cases hrun : chunkRun fits admits run xs with
      | error kind =>
        rw [chunkedRun_error _ _ hrun] at h
        cases h
      | ok r =>
        rw [((chunkRun_iff hfits hadmits).mp hrun).1] at hfree
        cases hfree
    | ok r =>
      obtain ⟨next, zs⟩ := r
      by_cases hzs : fits zs.length ∧ admits zs.length
      · have hrun := (chunkRun_iff hfits hadmits).mpr ⟨hfree, hzs⟩
        cases next with
        | none =>
          rw [chunkedRun_none _ _ hrun, chunkedRun_none _ _ hfree]
          refine ⟨fun h => ⟨h, ?_⟩, fun h => h.1⟩
          obtain rfl := Except.ok.inj h
          exact hzs
        | some next =>
          obtain ⟨_, hchunk, -⟩ := chunkRun_ok hrun
          rw [chunkedRun_some _ _ hrun, chunkedRun_some _ _ hfree]
          exact ih _ hchunk.left_lt hzs.1 hzs.2 rfl
      · -- what is refused here is refused because of bytes that the whole body has too
        refine iff_of_false (fun h => ?_) (fun h => hzs ?_)
        · cases hrun : chunkRun fits admits run xs with
          | error kind =>
            rw [chunkedRun_error _ _ hrun] at h
            cases h
          | ok r =>
            obtain ⟨next', zs'⟩ := r
            obtain ⟨hsame, hlimits⟩ := (chunkRun_iff hfits hadmits).mp hrun
            rw [hfree] at hsame
            obtain ⟨-, rfl⟩ := Prod.mk.inj (Except.ok.inj hsame)
            exact hzs hlimits
        · obtain ⟨h, hfit, hadmits⟩ := h
          have hle : zs.length ≤ ys.length := by
            cases next with
            | none =>
              rw [chunkedRun_none _ _ hfree] at h
              rw [Except.ok.inj h]
            | some next =>
              rw [chunkedRun_some _ _ hfree] at h
              obtain ⟨_, body, _, _, _, rfl, _⟩ := chunkedRun_ok h
              rw [List.length_append]
              exact Nat.le_add_right _ _
          exact ⟨hmono hle hfit, hless hle hadmits⟩

end

/-! ## The head -/

/-- The first place where the bytes looked for start. -/
structure FirstAt (needle l : Bytes) (i : Nat) : Prop where
  starts : needle <+: l.drop i
  earlier : ∀ j < i, ¬ needle <+: l.drop j

theorem FirstAt.le {needle l : Bytes} {i : Nat} (h : FirstAt needle l i) (hi : i ≤ l.length) :
    i + needle.length ≤ l.length := by
  have := h.starts.length_le
  rw [List.length_drop] at this
  omega

theorem findBytes_some {needle l : Bytes} {i : Nat} (h : findBytes needle l = some i) :
    FirstAt needle l i ∧ i ≤ l.length := by
  induction l generalizing i with
  | nil => cases h
  | cons b rest ih =>
    rw [findBytes] at h
    split at h
    · next hstart =>
      obtain rfl := Option.some.inj h
      exact ⟨⟨hstart, fun j hj => absurd hj (Nat.not_lt_zero j)⟩, Nat.zero_le _⟩
    · next hstart =>
      obtain ⟨k, hk, rfl⟩ := Option.map_eq_some_iff.mp h
      obtain ⟨hfirst, hle⟩ := ih hk
      refine ⟨⟨hfirst.starts, fun j hj => ?_⟩, Nat.succ_le_succ hle⟩
      cases j with
      | zero => exact hstart
      | succ j => exact hfirst.earlier j (Nat.lt_of_succ_lt_succ hj)

theorem findBytes_none {needle l : Bytes} (hneedle : needle ≠ []) (h : findBytes needle l = none)
    (i : Nat) : ¬ needle <+: l.drop i := by
  induction l generalizing i with
  | nil =>
    rw [List.drop_nil, List.prefix_nil]
    exact hneedle
  | cons b rest ih =>
    rw [findBytes] at h
    split at h
    · cases h
    · next hstart =>
      cases i with
      | zero => exact hstart
      | succ i => exact ih (Option.map_eq_none_iff.mp h) i

theorem findBytes_of {needle l : Bytes} {i : Nat} (hneedle : needle ≠ [])
    (h : FirstAt needle l i) : findBytes needle l = some i := by
  cases hfind : findBytes needle l with
  | none => exact absurd h.starts (findBytes_none hneedle hfind i)
  | some k =>
    obtain ⟨hfirst, -⟩ := findBytes_some hfind
    rcases Nat.lt_trichotomy i k with hlt | rfl | hlt
    · exact absurd h.starts (hfirst.earlier i hlt)
    · rfl
    · exact absurd hfirst.starts (h.earlier k hlt)

/-- More bytes do not move the first place. -/
theorem findBytes_append {needle a : Bytes} {i : Nat} (hneedle : needle ≠ [])
    (h : findBytes needle a = some i) (b : Bytes) : findBytes needle (a ++ b) = some i := by
  obtain ⟨hfirst, hi⟩ := findBytes_some h
  have hlength := hfirst.le hi
  refine findBytes_of hneedle ⟨?_, fun j hj hstart => ?_⟩
  · rw [List.drop_append_of_le_length hi]
    exact hfirst.starts.trans (List.prefix_append ..)
  · rw [List.drop_append_of_le_length (by omega)] at hstart
    refine hfirst.earlier j hj (List.prefix_of_prefix_length_le hstart (List.prefix_append ..) ?_)
    rw [List.length_drop]
    omega

theorem headTerminator_ne : headTerminator ≠ [] := List.cons_ne_nil _ _

/-- Where the head ends in all that the connection delivers. -/
def headEnd (total : Bytes) : Except TransportErrorKind Nat :=
  match findBytes headTerminator (total.take (maxHeaderBytes + ioChunkBytes)) with
  | some index => if maxHeaderBytes < index + 4 then .error .resourceLimit else .ok (index + 4)
  | none =>
    if maxHeaderBytes + ioChunkBytes ≤ total.length then .error .resourceLimit
    else .error .invalidMessage

theorem headEnd_some {total : Bytes} {i : Nat}
    (h : findBytes headTerminator (total.take (maxHeaderBytes + ioChunkBytes)) = some i) :
    headEnd total = if maxHeaderBytes < i + 4 then .error .resourceLimit else .ok (i + 4) := by
  rw [headEnd, h]

theorem headEnd_none {total : Bytes}
    (h : findBytes headTerminator (total.take (maxHeaderBytes + ioChunkBytes)) = none) :
    headEnd total = if maxHeaderBytes + ioChunkBytes ≤ total.length then .error .resourceLimit
      else .error .invalidMessage := by
  rw [headEnd, h]

/-- A head that was read, and what was read with it. -/
structure HeadRead (total : Bytes) (r : Bytes × Nat × Connection) (e : Nat) : Prop where
  ends : r.2.1 = e
  all : r.1 ++ r.2.2.all = total
  within : e ≤ r.1.length

theorem HeadRead.take {total : Bytes} {r : Bytes × Nat × Connection} {e : Nat}
    (h : HeadRead total r e) : r.1.take e = total.take e := by
  rw [← h.all, List.take_append_of_le_length h.within]

theorem HeadRead.drop {total : Bytes} {r : Bytes × Nat × Connection} {e : Nat}
    (h : HeadRead total r e) : r.1.drop e ++ r.2.2.all = total.drop e := by
  rw [← h.all, List.drop_append_of_le_length h.within]

theorem readHead_refines {bytes : Bytes} (stream : Connection)
    (hnone : findBytes headTerminator bytes = none)
    (hle : bytes.length ≤ maxHeaderBytes + ioChunkBytes) :
    Refines (HeadRead (bytes ++ stream.all)) (readHead bytes stream)
      (headEnd (bytes ++ stream.all)) := by
  induction hn : stream.all.length using Nat.strong_induction_on generalizing bytes stream with
  | _ n ih =>
    subst hn
    rw [readHead]
    by_cases hfull : maxHeaderBytes + ioChunkBytes ≤ bytes.length
    · have hlength : (bytes ++ stream.all).length = bytes.length + stream.all.length :=
        List.length_append
      rw [if_pos hfull, headEnd_none, if_pos (by omega)]
      · exact .error _
      · rw [List.take_append_of_le_length hfull, List.take_of_length_le hle]
        exact hnone
    · rw [if_neg hfull]
      dsimp only
      have hroom : 0 < min (bytes.length + ioChunkBytes) (maxHeaderBytes + ioChunkBytes) -
          bytes.length := by
        unfold maxHeaderBytes ioChunkBytes at *
        omega
      have hall := Arrivals.read_all (min (bytes.length + ioChunkBytes)
        (maxHeaderBytes + ioChunkBytes) - bytes.length) stream
      have hgot := Arrivals.read_length (min (bytes.length + ioChunkBytes)
        (maxHeaderBytes + ioChunkBytes) - bytes.length) stream
      have hshort := Arrivals.read_eq_nil hroom stream
      have hless := Arrivals.all_read_lt (n := min (bytes.length + ioChunkBytes)
        (maxHeaderBytes + ioChunkBytes) - bytes.length) (a := stream)
      revert hall hgot hshort hless
      generalize stream.read (min (bytes.length + ioChunkBytes) (maxHeaderBytes + ioChunkBytes) -
        bytes.length) = got
      obtain ⟨got, rest⟩ := got
      intro hall hgot hshort hless
      dsimp only at hall hgot hshort hless ⊢
      have htotal : bytes ++ stream.all = bytes ++ got ++ rest.all := by
        rw [List.append_assoc, hall]
      have hfits : (bytes ++ got).length ≤ maxHeaderBytes + ioChunkBytes := by
        rw [List.length_append]
        omega
      cases hfind : findBytes headTerminator (bytes ++ got) with
      | some index =>
        obtain ⟨hfirst, hindex⟩ := findBytes_some hfind
        have hend := hfirst.le hindex
        rw [htotal, headEnd_some (i := index)]
        · dsimp only
          split
          · exact .error _
          · exact .ok ⟨rfl, rfl, hend⟩
        · rw [List.take_append, List.take_of_length_le hfits]
          exact findBytes_append headTerminator_ne hfind _
      | none =>
        dsimp only
        by_cases hnil : got = []
        · have hleft := hshort.mp hnil
          rw [if_pos hnil, hleft, List.append_nil, headEnd_none, if_neg hfull]
          · exact .error _
          · rw [List.take_of_length_le hle]
            exact hnone
        · rw [if_neg hnil, htotal]
          exact ih _ (hless hnil) rest hfind hfits rfl

/-! ## The body by its framing -/

/-- The read that ended the head brought more than the body may have. -/
def Surplus (limits : FetchLimits) : Framing → Bytes → Prop
  | .length length, initial => length < initial.length
  | .close, _ => False
  | .chunked, initial => limits.maxWireBytes < initial.length

instance (limits : FetchLimits) (framing : Framing) (initial : Bytes) :
    Decidable (Surplus limits framing initial) :=
  match framing with
  | .length _ => inferInstanceAs (Decidable (_ < _))
  | .close => inferInstanceAs (Decidable False)
  | .chunked => inferInstanceAs (Decidable (_ < _))

theorem not_surplus_nil (limits : FetchLimits) (framing : Framing) :
    ¬ Surplus limits framing [] := by
  cases framing with
  | length length => exact Nat.not_lt_zero _
  | close => exact id
  | chunked => exact Nat.not_lt_zero _

/-- The body that the bytes after the head give. -/
def exactBody (fits : Nat → Prop) [DecidablePred fits] (limits : FetchLimits)
    (framing : Framing) (left : Bytes) : Except TransportErrorKind Bytes :=
  match framing with
  | .length length =>
    if limits.maxWireBytes < length then .error .resourceLimit else lengthRun fits length left []
  | .close => closeRun fits limits.maxWireBytes left []
  | .chunked => chunkedRun fits (· ≤ limits.maxWireBytes) ⟨left, limits.maxWireBytes⟩ []

/-- What the bytes after the head are, for a framing: the part that carries the body,
what is left, and the body. -/
inductive Prescribes : Framing → Bytes → Bytes → Bytes → Prop where
  | length (body rest : Bytes) : Prescribes (.length body.length) body rest body
  | close (body : Bytes) : Prescribes .close body [] body
  | chunked {wire body : Bytes} (h : ChunkedBody wire body) (rest : Bytes) :
      Prescribes .chunked wire rest body

section
variable {fits : Nat → Prop} [DecidablePred fits] {limits : FetchLimits}

theorem exactBody_prescribed {framing : Framing} {left body : Bytes}
    (h : exactBody fits limits framing left = .ok body) :
    ∃ wire rest, left = wire ++ rest ∧ Prescribes framing wire rest body ∧
      wire.length ≤ limits.maxWireBytes := by
  cases framing with
  | length length =>
    unfold exactBody at h
    dsimp only at h
    split at h
    · cases h
    · next hlimit =>
      unfold lengthRun at h
      split at h
      · split at h
        · cases h
        · next hlength =>
          obtain rfl := Except.ok.inj h
          have htake : (left.take length).length = length :=
            List.length_take_of_le (Nat.le_of_not_lt hlength)
          refine ⟨left.take length, left.drop length, (List.take_append_drop ..).symm, ?_,
            by omega⟩
          have hbody := Prescribes.length (left.take length) (left.drop length)
          rwa [htake] at hbody
      · cases h
  | close =>
    unfold exactBody closeRun at h
    dsimp only at h
    split at h
    · next hfit =>
      obtain rfl := Except.ok.inj h
      refine ⟨left, [], (List.append_nil _).symm, .close left, ?_⟩
      simpa using hfit.1
    · cases h
  | chunked =>
    obtain ⟨wire, body', rest, hleft, hbody, rfl, hwire⟩ := chunkedRun_ok h
    exact ⟨wire, rest, hleft, .chunked hbody rest, hwire⟩

theorem ChunkedBody.length_le {wire body : Bytes} (h : ChunkedBody wire body) :
    body.length ≤ wire.length := by
  induction h with
  | last h => exact Nat.zero_le _
  | chunk h hdata hrest ih =>
    simp only [List.length_append]
    omega

theorem lengthRun_iff {length : Nat} {left body : Bytes} :
    lengthRun fits length left [] = .ok body ↔
      length ≤ left.length ∧ body = left.take length ∧ fits body.length := by
  unfold lengthRun
  rw [List.length_nil, Nat.zero_add, List.nil_append]
  by_cases hlength : left.length < length
  · rw [if_pos hlength]
    refine iff_of_false (fun h => ?_) (fun h => absurd h.1 (Nat.not_le_of_lt hlength))
    by_cases hfit : fits (min length left.length)
    · rw [if_pos hfit] at h
      cases h
    · rw [if_neg hfit] at h
      cases h
  · have hle := Nat.le_of_not_lt hlength
    have htake : (left.take length).length = length := List.length_take_of_le hle
    rw [if_neg hlength, Nat.min_eq_left hle]
    constructor
    · intro h
      by_cases hfit : fits length
      · rw [if_pos hfit] at h
        obtain rfl := Except.ok.inj h
        exact ⟨hle, rfl, by rwa [htake]⟩
      · rw [if_neg hfit] at h
        cases h
    · rintro ⟨-, rfl, hfit⟩
      rw [htake] at hfit
      rw [if_pos hfit]

theorem closeRun_iff {limit : Nat} {left body : Bytes} :
    closeRun fits limit left [] = .ok body ↔
      left.length ≤ limit ∧ body = left ∧ fits body.length := by
  unfold closeRun
  rw [List.length_nil, Nat.zero_add, List.nil_append]
  constructor
  · intro h
    by_cases hfit : left.length ≤ limit ∧ fits left.length
    · rw [if_pos hfit] at h
      obtain rfl := Except.ok.inj h
      exact ⟨hfit.1, rfl, hfit.2⟩
    · rw [if_neg hfit] at h
      cases h
  · rintro ⟨hlimit, rfl, hfit⟩
    exact if_pos ⟨hlimit, hfit⟩

/-- The body may be taken where there is room for it. -/
def Accepts (limits : FetchLimits) (framing : Framing) (left body : Bytes) : Prop :=
  match framing with
  | .length length =>
    length ≤ limits.maxWireBytes ∧ length ≤ left.length ∧ body = left.take length
  | .close => left.length ≤ limits.maxWireBytes ∧ body = left
  | .chunked =>
    chunkedRun (fun _ => True) (fun _ => true) ⟨left, limits.maxWireBytes⟩ [] = .ok body

theorem chunkedRun_accepts {bound : Nat} (hzero : fits 0)
    (hmono : ∀ {m n}, m ≤ n → fits n → fits m) {left body : Bytes} :
    chunkedRun fits (fun n => decide (n ≤ bound)) ⟨left, limits.maxWireBytes⟩ [] = .ok body ↔
      Accepts limits .chunked left body ∧ fits body.length ∧ body.length ≤ bound := by
  have hnil : fits ([] : Bytes).length := hzero
  refine (chunkedRun_iff hmono ?_ hnil (decide_eq_true (Nat.zero_le _))).trans ?_
  · exact fun h hn => decide_eq_true (h.trans (of_decide_eq_true hn))
  · rw [decide_eq_true_iff]
    rfl

/-- The room for a body decides only whether it is taken. -/
theorem exactBody_iff (hzero : fits 0) (hmono : ∀ {m n}, m ≤ n → fits n → fits m)
    {framing : Framing} {left body : Bytes} :
    exactBody fits limits framing left = .ok body ↔
      Accepts limits framing left body ∧ fits body.length := by
  cases framing with
  | length length =>
    simp only [exactBody, Accepts]
    by_cases hlimit : limits.maxWireBytes < length
    · rw [if_pos hlimit]
      exact iff_of_false (fun h => by cases h) (fun h => by omega)
    · rw [if_neg hlimit, lengthRun_iff]
      have hle := Nat.le_of_not_lt hlimit
      tauto
  | close =>
    simp only [exactBody, Accepts]
    rw [closeRun_iff]
    tauto
  | chunked =>
    simp only [exactBody]
    rw [chunkedRun_accepts hzero hmono]
    refine ⟨fun h => ⟨h.1, h.2.1⟩, fun h => ⟨h.1, h.2, ?_⟩⟩
    obtain ⟨wire, body', _, _, hbody, rfl, hwire⟩ := chunkedRun_ok h.1
    exact hbody.length_le.trans hwire

theorem readChain_refines {p : Platform} {framing : Framing} {initial : Bytes}
    (h : ¬ Surplus limits framing initial) (stream : Connection) (memory : Reservation) :
    Refines (ChunkChain.Holds p.nodeBytes memory.held memory.budget)
      (readChain p limits framing initial stream memory)
      (exactBody (ChunkChain.chainFits p.nodeBytes memory.held memory.budget) limits framing
        (initial ++ stream.all)) := by
  have hsink := chainSink_keeps p.nodeBytes memory.held memory.budget
  have hempty : ChunkChain.Holds p.nodeBytes memory.held memory.budget (.empty, memory) [] :=
    ChunkChain.holds_empty
  cases framing with
  | length length =>
    exact readLengthInto_refines hsink hempty _ (Nat.le_of_not_lt h) stream
  | close => exact readCloseInto_refines hsink hempty _ initial stream
  | chunked => exact readChunkedInto_refines hsink _ hempty (Nat.le_of_not_lt h) stream

theorem readChain_surplus {p : Platform} {framing : Framing} {initial : Bytes}
    (h : Surplus limits framing initial) (stream : Connection) (memory : Reservation) :
    readChain p limits framing initial stream memory = .error .resourceLimit := by
  cases framing with
  | length length =>
    have hreject : limits.maxWireBytes < length ∨ length < initial.length := Or.inr h
    simp only [readChain, readLengthInto, reject_of hreject]
    rfl
  | close => exact absurd h id
  | chunked =>
    have hreject : limits.maxWireBytes < initial.length := h
    simp only [readChain, readChunkedInto, reject_of hreject]
    rfl

theorem readToWriter_surplus {framing : Framing} {initial : Bytes}
    (h : Surplus limits framing initial) (stream : Connection) :
    readToWriter limits framing initial stream = .error .resourceLimit := by
  cases framing with
  | length length =>
    have hreject : min limits.maxWireBytes limits.maxDecodedBytes < length ∨
      length < initial.length := Or.inr h
    simp only [readToWriter, readLengthInto, reject_of hreject]
    rfl
  | close => exact absurd h id
  | chunked =>
    have hreject : limits.maxWireBytes < initial.length := h
    simp only [readToWriter, readChunkedInto, reject_of hreject]
    rfl

/-- A sink that takes everything ends with what the exact framing gives. -/
theorem writer_ok {x : Except TransportErrorKind Bytes} {y : Except TransportErrorKind Bytes}
    (h : Refines (· = ·) x y) : x = y := by
  cases h with
  | error kind => rfl
  | ok h => exact congrArg Except.ok h

/-- The writer gets what the exact framing gives, up to the limit of decoded bytes. -/
theorem readToWriter_iff {framing : Framing} {initial : Bytes}
    (h : ¬ Surplus limits framing initial) (stream : Connection) {output : Bytes} :
    readToWriter limits framing initial stream = .ok output ↔
      Accepts limits framing (initial ++ stream.all) output ∧
        output.length ≤ limits.maxDecodedBytes := by
  cases framing with
  | length length =>
    have href := writer_ok (readLengthInto_refines writerSink_keeps (s := []) rfl
      (min limits.maxWireBytes limits.maxDecodedBytes) (Nat.le_of_not_lt h) stream)
    simp only [readToWriter, Accepts]
    rw [href]
    by_cases hlimit : min limits.maxWireBytes limits.maxDecodedBytes < length
    · rw [if_pos hlimit]
      refine iff_of_false (fun h => by cases h) ?_
      rintro ⟨⟨hwire, hleft, rfl⟩, hdecoded⟩
      rw [List.length_take_of_le hleft] at hdecoded
      omega
    · rw [if_neg hlimit, lengthRun_iff]
      constructor
      · rintro ⟨hleft, rfl, -⟩
        rw [List.length_take_of_le hleft]
        exact ⟨⟨by omega, hleft, rfl⟩, by omega⟩
      · rintro ⟨⟨-, hleft, rfl⟩, -⟩
        exact ⟨hleft, rfl, trivial⟩
  | close =>
    have href := writer_ok (readCloseInto_refines writerSink_keeps (s := []) rfl
      (min limits.maxWireBytes limits.maxDecodedBytes) initial stream)
    simp only [readToWriter, Accepts]
    rw [href, closeRun_iff]
    constructor
    · rintro ⟨hlimit, rfl, -⟩
      exact ⟨⟨hlimit.trans (Nat.min_le_left ..), rfl⟩, hlimit.trans (Nat.min_le_right ..)⟩
    · rintro ⟨⟨hwire, rfl⟩, hdecoded⟩
      exact ⟨Nat.le_min.mpr ⟨hwire, hdecoded⟩, rfl, trivial⟩
  | chunked =>
    have href := writer_ok (readChunkedInto_refines writerSink_keeps
      (fun n => decide (n ≤ limits.maxDecodedBytes)) (s := []) rfl (Nat.le_of_not_lt h) stream)
    simp only [readToWriter]
    rw [href, chunkedRun_accepts trivial fun _ _ => trivial]
    tauto

end

end IntoMarkdown.Http
