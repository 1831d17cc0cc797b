import IntoMarkdown.Decoding.Decode

/-! # What is decoded

Each loop reads the bytes in the one way that its encoding allows: the pieces of the text make up
the bytes, and neighbours that were replaced are reported together. -/

namespace IntoMarkdown.Decoding
open Lib Lib.Strings Converters

/-! ## Ranges -/

def adjacent (a b : Nat × Nat) : Bool := a.2 = b.1

/-- Neighbours as one span. -/
def spanOf (group : List (Nat × Nat)) : RecoverySpan :=
  ⟨(group.head?.map Prod.fst).getD 0, (group.getLast?.map Prod.snd).getD 0, group.length⟩

def spansOf (ranges : List (Nat × Nat)) : List RecoverySpan :=
  (ranges.splitBy adjacent).map spanOf

section
variable {ranges before : List (Nat × Nat)} {last range : Nat × Nat}

/-- The group that the last range is in. -/
theorem exists_lastGroup (before : List (Nat × Nat)) (last : Nat × Nat) :
    ∃ groups group, (before ++ [last]).splitBy adjacent = groups ++ [group] ∧
      group.getLast? = some last := by
  have hflatten := List.flatten_splitBy adjacent (before ++ [last])
  rcases List.eq_nil_or_concat' ((before ++ [last]).splitBy adjacent) with hnil | ⟨groups, group, h⟩
  · rw [List.splitBy_eq_nil] at hnil
    exact absurd hnil (List.append_ne_nil_of_right_ne_nil _ (List.cons_ne_nil _ _))
  · refine ⟨groups, group, h, ?_⟩
    have hne : group ≠ [] := fun hnil => by
      have hmem : group ∈ (before ++ [last]).splitBy adjacent :=
        h ▸ List.mem_append_right _ List.mem_cons_self
      exact List.ne_nil_of_mem_splitBy hmem hnil
    rw [h, List.flatten_append, List.flatten_singleton] at hflatten
    have hlast := congrArg List.getLast? hflatten
    rwa [List.getLast?_append_of_ne_nil _ hne, List.getLast?_concat] at hlast

/-- A range that follows the last one joins its group. -/
theorem splitBy_join {groups : List (List (Nat × Nat))} {group : List (Nat × Nat)}
    (hsplit : ranges.splitBy adjacent = groups ++ [group]) (hlast : group.getLast? = some last)
    (hadjacent : adjacent last range = true) :
    (ranges ++ [range]).splitBy adjacent = groups ++ [group ++ [range]] := by
  obtain ⟨hflatten, hne, hchains, hapart⟩ := List.splitBy_eq_iff.mp hsplit
  rw [List.splitBy_eq_iff]
  refine ⟨?_, ?_, ?_, ?_⟩
  · rw [hflatten, List.flatten_append, List.flatten_append, List.flatten_singleton,
      List.flatten_singleton, List.append_assoc]
  · intro hmem
    rcases List.mem_append.mp hmem with hmem | hmem
    · exact hne (List.mem_append_left _ hmem)
    · exact absurd (List.mem_singleton.mp hmem).symm
        (List.append_ne_nil_of_right_ne_nil _ (List.cons_ne_nil _ _))
  · intro other hother
    rcases List.mem_append.mp hother with hother | hother
    · exact hchains other (List.mem_append_left _ hother)
    · obtain rfl := List.mem_singleton.mp hother
      refine List.isChain_append.mpr
        ⟨hchains group (List.mem_append_right _ List.mem_cons_self), List.isChain_singleton _, ?_⟩
      intro a ha b hb
      obtain rfl := Option.some.inj (hlast.symm.trans ha)
      obtain rfl := Option.some.inj hb
      exact hadjacent
  · obtain ⟨hfront, -, hbetween⟩ := List.isChain_append.mp hapart
    refine List.isChain_append.mpr ⟨hfront, List.isChain_singleton _, ?_⟩
    intro a ha b hb
    obtain ⟨hane, hgne, hdiffer⟩ := hbetween a ha group rfl
    obtain rfl := Option.some.inj hb
    refine ⟨hane, List.append_ne_nil_of_left_ne_nil hgne _, ?_⟩
    rwa [List.head_append_of_ne_nil hgne]

theorem spansOf_concat (ranges : List (Nat × Nat)) (range : Nat × Nat) :
    spansOf (ranges ++ [range]) =
      match (spansOf ranges).getLast? with
      | some previous =>
        if previous.stop = range.1 then
          (spansOf ranges).modifyLast fun span =>
            { span with stop := range.2, replacements := previous.replacements + 1 }
        else spansOf ranges ++ [⟨range.1, range.2, 1⟩]
      | none => [⟨range.1, range.2, 1⟩] := by
  rcases List.eq_nil_or_concat' ranges with rfl | ⟨before, last, rfl⟩
  · rfl
  · obtain ⟨groups, group, hsplit, hlast⟩ := exists_lastGroup before last
    have hspans : spansOf (before ++ [last]) = groups.map spanOf ++ [spanOf group] := by
      rw [spansOf, hsplit, List.map_append, List.map_singleton]
    have hstop : (spanOf group).stop = last.2 := by
      rw [spanOf, hlast]
      rfl
    rw [hspans, List.getLast?_concat]
    dsimp only
    rw [hstop]
    split
    · next hadjacent =>
      have hne : group ≠ [] := fun hnil => by
        rw [hnil] at hlast
        cases hlast
      rw [List.modifyLast_concat, spansOf, splitBy_join hsplit hlast (decide_eq_true hadjacent),
        List.map_append, List.map_singleton]
      congr 2
      rw [spanOf, spanOf, List.head?_append_of_ne_nil _ hne, List.getLast?_concat,
        List.length_append]
      rfl
    · next happart =>
      have hfalse : adjacent last range = false := decide_eq_false happart
      have hsingle : [range].splitBy adjacent = [[range]] := rfl
      rw [spansOf, List.splitBy_append_cons [] fun a ha => ?_, hsingle, List.map_append, ← spansOf,
        hspans]
      · rfl
      · rw [List.getLast?_concat] at ha
        obtain rfl := Option.some.inj ha
        exact hfalse

end

/-! ## Pieces -/

def foundChar : Found Char → Char
  | .good c => c
  | .bad _ => replacementCharacter

section
variable (code : Char → List UInt8)

/-- The pieces of the text, for what is found from a byte of the source on. -/
def piecesFrom : Nat → List (Found Char) → List Piece
  | _, [] => []
  | start, found :: rest =>
    ⟨[foundChar found], start, start + found.width code⟩ ::
      piecesFrom (start + found.width code) rest

/-- The ranges of what is broken. -/
def brokenRanges : Nat → List (Found Char) → List (Nat × Nat)
  | _, [] => []
  | start, .good c :: rest => brokenRanges (start + (code c).length) rest
  | start, .bad length :: rest =>
    (start, start + length) :: brokenRanges (start + length) rest

/-- In strict mode the first broken piece is an error. -/
def accept (charset : Charset) (mode : TextDecodingMode) (found : List (Found Char))
    (start : Nat) : Except ConversionError Unit :=
  match brokenRanges code start found with
  | [] => .ok ()
  | range :: _ => refuse (mode = .strict) (invalidSequence charset range.1 range.2)

end

section
variable {code : Char → List UInt8} {charset : Charset} {mode : TextDecodingMode}
  {found : List (Found Char)} {start : Nat}

theorem accept_replace (found : List (Found Char)) (start : Nat) :
    accept code charset .replace found start = .ok () := by
  unfold accept
  split
  · rfl
  · exact refuse_of_not (fun h => by cases h)

theorem accept_good (c : Char) : accept code charset mode (.good c :: found) start =
    accept code charset mode found (start + (code c).length) := rfl

theorem accept_bad (length : Nat) : accept code charset mode (.bad length :: found) start =
    (refuse (mode = .strict) (invalidSequence charset start (start + length)) >>= fun _ =>
      accept code charset mode found (start + length)) := by
  cases mode with
  | strict => rfl
  | replace =>
    rw [accept_replace, accept_replace]
    rfl

theorem piecesFrom_append (found found' : List (Found Char)) (start : Nat) :
    piecesFrom code start (found ++ found') = piecesFrom code start found ++
      piecesFrom code (start + (found.map (Found.width code)).sum) found' := by
  induction found generalizing start with
  | nil => rfl
  | cons first found ih =>
    rw [List.cons_append, piecesFrom, piecesFrom, ih, List.map_cons, List.sum_cons,
      Nat.add_assoc]
    rfl

theorem brokenRanges_goods (text : Text) (found : List (Found Char)) (start : Nat) :
    brokenRanges code start (text.map Found.good ++ found) =
      brokenRanges code (start + (text.flatMap code).length) found := by
  induction text generalizing start with
  | nil => rfl
  | cons c text ih =>
    rw [List.map_cons, List.cons_append, brokenRanges, ih, List.flatMap_cons, List.length_append,
      Nat.add_assoc]

theorem width_goods (text : Text) :
    ((text.map Found.good).map (Found.width code)).sum = (text.flatMap code).length := by
  rw [List.length_flatMap, List.map_map]
  rfl

end

/-! ## Decoders -/

/-- A decoder that has read pieces, some of them replaced. -/
structure Decoder.Reads {σ : Type} (decoder : Decoder σ) (initialSource : Nat)
    (pieces : List Piece) (ranges : List (Nat × Nat)) : Prop where
  holds : decoder.decoded.Holds pieces
  source : decoder.decoded.initialSource = initialSource
  recoveries : decoder.recoveries.items = spansOf ranges

section
variable {σ : Type} {runtime : Runtime σ} {slots : Slots} {decoder : Decoder σ}
  {initialSource : Nat} {pieces : List Piece} {ranges : List (Nat × Nat)} {charset : Charset}
  {mode : TextDecodingMode}

theorem DecodedText.Holds.withMemory {decoded : DecodedText σ} (h : decoded.Holds pieces)
    (memory : LogicalMemory σ) : DecodedText.Holds { decoded with memory } pieces :=
  ⟨h.text, h.runs, h.proper⟩

theorem checkpoint_yields (h : decoder.Reads initialSource pieces ranges) (offset : Nat) :
    Yields (fun next => next.Reads initialSource pieces ranges)
      (checkpoint runtime offset decoder) := by
  unfold checkpoint
  split
  · refine Yields.map (.of_coreOnly (CoreOnly.mapError _) fun _ _ => trivial) fun world _ => ?_
    exact ⟨h.holds.withMemory _, h.source, h.recoveries⟩
  · exact .ok h

theorem pushScalar_yields (h : decoder.Reads initialSource pieces ranges) (value : Char)
    {start stop : Nat} (hle : start ≤ stop) :
    Yields (fun next => next.Reads initialSource (pieces ++ [⟨[value], start, stop⟩]) ranges)
      (pushScalar runtime slots decoder value start stop) := by
  have hproper : Piece.Proper ⟨[value], start, stop⟩ := ⟨List.cons_ne_nil _ _, hle⟩
  exact (h.holds.push runtime slots hproper).map fun decoded hdecoded =>
    ⟨hdecoded.1, hdecoded.2.trans h.source, h.recoveries⟩

theorem pushStrUnits_yields (h : decoder.Reads initialSource pieces ranges) (text : Text)
    (place : Nat) :
    Yields (fun next => next.Reads initialSource
        (pieces ++ piecesFrom String.utf8EncodeChar place (text.map Found.good)) ranges)
      (pushStrUnits runtime slots decoder text place) := by
  induction text generalizing decoder pieces place with
  | nil =>
    rw [List.map_nil, piecesFrom, List.append_nil]
    exact .ok h
  | cons c text ih =>
    have hpiece : piecesFrom String.utf8EncodeChar place ((c :: text).map Found.good) =
        ⟨[c], place, place + c.utf8Size⟩ ::
          piecesFrom String.utf8EncodeChar (place + c.utf8Size) (text.map Found.good) := by
      rw [List.map_cons, piecesFrom, Found.width, String.length_utf8EncodeChar]
      rfl
    rw [hpiece, List.append_cons]
    exact (pushScalar_yields h c (Nat.le_add_right _ _)).bind fun next hnext => ih hnext _

theorem record_yields {recoveries : Vec RecoverySpan} (h : recoveries.items = spansOf ranges)
    (start stop : Nat) (memory : LogicalMemory σ) :
    Yields (fun done => done.1.items = spansOf (ranges ++ [(start, stop)]))
      (record runtime slots recoveries start stop memory) := by
  have hpush {recoveries' : Vec RecoverySpan} (hsame : recoveries'.items = recoveries.items)
      (hspans : spansOf (ranges ++ [(start, stop)]) = spansOf ranges ++ [⟨start, stop, 1⟩]) :
      (recoveries'.push ⟨start, stop, 1⟩).items = spansOf (ranges ++ [(start, stop)]) := by
    rw [Vec.push_items, hsame, h, hspans]
  unfold record
  rw [h]
  have hconcat := spansOf_concat ranges (start, stop)
  cases hlast : (spansOf ranges).getLast? with
  | none =>
    rw [hlast] at hconcat
    have hnil : spansOf ranges = [] := List.getLast?_eq_none_iff.mp hlast
    exact (LogicalMemory.reserveVec_yields runtime _ _ _ _).bind fun grown hgrown =>
      .ok (hpush hgrown (by rw [hconcat, hnil]; rfl))
  | some previous =>
    rw [hlast] at hconcat
    dsimp only at hconcat ⊢
    split
    · next hstop =>
      rw [if_pos hstop] at hconcat
      unfold checkedAdd
      split
      · exact .ok hconcat.symm
      · exact .core _
    · next hstop =>
      rw [if_neg hstop] at hconcat
      exact (LogicalMemory.reserveVec_yields runtime _ _ _ _).bind fun grown hgrown =>
        .ok (hpush hgrown hconcat)

theorem recoverInvalid_limited (h : decoder.Reads initialSource pieces ranges) {start stop : Nat}
    (hle : start ≤ stop) :
    Limited (fun next (_ : Unit) => next.Reads initialSource
        (pieces ++ [⟨[replacementCharacter], start, stop⟩]) (ranges ++ [(start, stop)]))
      (recoverInvalid runtime slots charset mode decoder start stop)
      (refuse (mode = .strict) (invalidSequence charset start stop)) := by
  have hproper : Piece.Proper ⟨[replacementCharacter], start, stop⟩ :=
    ⟨List.cons_ne_nil _ _, hle⟩
  unfold recoverInvalid
  by_cases hstrict : mode = .strict
  · rw [refuse_of hstrict]
    exact .error _
  · rw [refuse_of_not hstrict]
    refine Yields.limited ((h.holds.push runtime slots hproper).bind fun decoded hdecoded => ?_)
    refine (record_yields h.recoveries start stop _).bind fun recorded hrecorded => ?_
    exact .ok ⟨hdecoded.1.withMemory _, hdecoded.2.trans h.source, hrecorded⟩

/-- A loop from some byte of the source on reads the bytes in the one way that there is. -/
def LoopReads (code : Char → List UInt8) (charset : Charset) (mode : TextDecodingMode)
    (start : Nat) (found : List (Found Char))
    (run : Decoder σ → Except ConversionError (Decoder σ)) : Prop :=
  ∀ decoder initialSource pieces ranges, decoder.Reads initialSource pieces ranges →
    Limited (fun final (_ : Unit) => final.Reads initialSource
        (pieces ++ piecesFrom code start found) (ranges ++ brokenRanges code start found))
      (run decoder) (accept code charset mode found start)

variable {code : Char → List UInt8} {start : Nat} {found : List (Found Char)}
  {run : Decoder σ → Except ConversionError (Decoder σ)}

theorem LoopReads.nil : LoopReads code charset mode start [] (.ok : Decoder σ → _) := by
  intro decoder initialSource pieces ranges h
  rw [piecesFrom, brokenRanges, List.append_nil, List.append_nil]
  exact .ok h

/-- A broken piece, and what follows it. -/
theorem LoopReads.bad {length : Nat}
    (hrun : LoopReads code charset mode (start + length) found run) :
    LoopReads code charset mode start (.bad length :: found) fun decoder =>
      recoverInvalid runtime slots charset mode decoder start (start + length) >>= run := by
  intro decoder initialSource pieces ranges h
  rw [accept_bad, piecesFrom, brokenRanges, List.append_cons pieces, List.append_cons ranges]
  exact (recoverInvalid_limited h (Nat.le_add_right _ _)).bind fun next _ hnext =>
    hrun next initialSource _ _ hnext

/-- A character, and what follows it. -/
theorem LoopReads.good {c : Char} {width : Nat} (hwidth : (code c).length = width)
    (hrun : LoopReads code charset mode (start + width) found run) :
    LoopReads code charset mode start (.good c :: found) fun decoder =>
      pushScalar runtime slots decoder c start (start + width) >>= run := by
  subst hwidth
  intro decoder initialSource pieces ranges h
  rw [accept_good, piecesFrom, brokenRanges, List.append_cons]
  refine (pushScalar_yields h c (Nat.le_add_right _ _)).bind_limited fun next hnext => ?_
  exact hrun next initialSource _ _ hnext

theorem LoopReads.checkpoint (hrun : LoopReads code charset mode start found run) (offset : Nat) :
    LoopReads code charset mode start found fun decoder =>
      Decoding.checkpoint runtime offset decoder >>= run := by
  intro decoder initialSource pieces ranges h
  exact (checkpoint_yields h offset).bind_limited fun next hnext =>
    hrun next initialSource pieces ranges hnext

/-! ## UTF-8 -/

theorem byteLength_eq (text : Text) : byteLength text = (Utf8.encode text).length := by
  induction text with
  | nil => rfl
  | cons c text ih =>
    rw [byteLength_cons, ih, Utf8.encode, Utf8.encode, List.flatMap_cons, List.length_append,
      String.length_utf8EncodeChar]

/-- Valid text, and what follows it. -/
theorem LoopReads.valid {text : Text}
    (hrun : LoopReads String.utf8EncodeChar charset mode (start + byteLength text) found run) :
    LoopReads String.utf8EncodeChar charset mode start (text.map Found.good ++ found)
      fun decoder => pushStrUnits runtime slots decoder text start >>= run := by
  intro decoder initialSource pieces ranges h
  have hsum : start + ((text.map Found.good).map (Found.width String.utf8EncodeChar)).sum =
      start + byteLength text := by
    rw [width_goods, byteLength_eq]
    rfl
  have hlength : start + (text.flatMap String.utf8EncodeChar).length = start + byteLength text := by
    rw [byteLength_eq]
    rfl
  unfold accept
  rw [piecesFrom_append, hsum, brokenRanges_goods, hlength, ← List.append_assoc]
  exact (pushStrUnits_yields h text start).bind_limited fun next hnext =>
    hrun next initialSource _ _ hnext

/-- The last turn of the loop. -/
theorem utf8Loop_done (base offset : Nat) {rest : List UInt8} {text : Text} (hne : rest ≠ [])
    (hread : Utf8.fromUtf8 rest = (text, none)) :
    utf8Loop runtime slots base mode offset rest = fun decoder =>
      checkpoint runtime offset decoder >>= fun decoder =>
        pushStrUnits runtime slots decoder text (base + offset) >>= .ok := by
  funext decoder
  rw [utf8Loop, if_neg hne]
  simp only [hread]

/-- A turn of the loop that is not the last. -/
theorem utf8Loop_stopped (base offset : Nat) {rest : List UInt8} {text : Text}
    {errorLen : Option Nat} (hne : rest ≠ [])
    (hread : Utf8.fromUtf8 rest = (text, some errorLen)) {valid invalid : Nat}
    (hvalid : valid = byteLength text)
    (hinvalid : max (errorLen.getD (rest.length - valid)) 1 = invalid) :
    utf8Loop runtime slots base mode offset rest = fun decoder =>
      checkpoint runtime offset decoder >>= fun decoder =>
        pushStrUnits runtime slots decoder text (base + offset) >>= fun decoder =>
          recoverInvalid runtime slots .utf8 mode decoder (base + offset + valid)
            (base + offset + valid + invalid) >>=
            utf8Loop runtime slots base mode (offset + valid + invalid)
              (rest.drop (valid + invalid)) := by
  funext decoder
  rw [utf8Loop, if_neg hne]
  simp only [hread]
  subst hvalid hinvalid
  rfl

theorem utf8Loop_reads (runtime : Runtime σ) (slots : Slots) (base : Nat)
    (mode : TextDecodingMode) (offset : Nat) (rest : List UInt8) :
    ∃ found, Decodes String.utf8EncodeChar Utf8.Subpart rest found ∧
      LoopReads String.utf8EncodeChar .utf8 mode (base + offset) found
        (utf8Loop runtime slots base mode offset rest) := by
  induction hlength : rest.length using Nat.strong_induction_on generalizing offset rest with
  | h length ih =>
    by_cases hnil : rest = []
    · refine ⟨[], hnil ▸ .nil, ?_⟩
      intro decoder initialSource pieces ranges h
      rw [utf8Loop, if_pos hnil]
      exact LoopReads.nil decoder initialSource pieces ranges h
    · obtain ⟨tail, hrest, hstopped⟩ := Utf8.fromUtf8_stopped rest
      rcases hread : Utf8.fromUtf8 rest with ⟨text, error⟩
      rw [hread] at hrest hstopped
      dsimp only at hrest hstopped
      have hbytes := congrArg List.length hrest
      rw [List.length_append, ← byteLength_eq] at hbytes
      -- What is behind the valid text is read by the loop itself.
      have hbehind {piece more : List UInt8} (htail : tail = piece ++ more)
          (hpart : Utf8.Subpart piece more) {errorLen : Option Nat} (herror : error = some errorLen)
          (hinvalid : max (errorLen.getD (rest.length - byteLength text)) 1 = piece.length) :
          ∃ found, Decodes String.utf8EncodeChar Utf8.Subpart rest found ∧
            LoopReads String.utf8EncodeChar .utf8 mode (base + offset) found
              (utf8Loop runtime slots base mode offset rest) := by
        subst htail herror
        have hpos := List.length_pos_iff.mpr hpart.nonempty
        rw [List.length_append] at hbytes
        have hdrop : rest.drop (byteLength text + piece.length) = more := by
          rw [hrest, ← List.append_assoc, List.drop_left']
          rw [List.length_append, byteLength_eq]
        obtain ⟨found, hfound, hreads⟩ := ih more.length (by omega)
          (offset + byteLength text + piece.length) more rfl
        refine ⟨text.map Found.good ++ .bad piece.length :: found, ?_, ?_⟩
        · rw [hrest]
          exact (Decodes.bad hpart hfound).append_code text
        · rw [utf8Loop_stopped base offset hnil hread rfl hinvalid, hdrop]
          rw [← Nat.add_assoc, ← Nat.add_assoc] at hreads
          exact (LoopReads.valid (LoopReads.bad hreads)).checkpoint offset
      cases hstopped with
      | done =>
        rw [utf8Loop_done base offset hnil hread]
        refine ⟨text.map Found.good ++ [], ?_, (LoopReads.valid LoopReads.nil).checkpoint offset⟩
        rw [hrest]
        exact Decodes.nil.append_code text
      | @invalid piece more hpart =>
        refine hbehind rfl hpart rfl ?_
        have hpos := List.length_pos_iff.mpr hpart.nonempty
        rw [Option.getD_some]
        omega
      | incomplete hpart =>
        refine hbehind (List.append_nil _).symm hpart rfl ?_
        have hpos := List.length_pos_iff.mpr hpart.nonempty
        rw [Option.getD_none]
        omega

/-! ## UTF-16 -/

theorem bind_return {α : Type} (x : Except ConversionError α) : x >>= Except.ok = x := by
  cases x <;> rfl

/-- A broken piece behind which there is nothing. -/
theorem LoopReads.last (length : Nat) :
    LoopReads code charset mode start [.bad length] fun decoder =>
      recoverInvalid runtime slots charset mode decoder start (start + length) := by
  have hreads := @LoopReads.bad σ runtime slots charset mode code start [] .ok length .nil
  simp only [bind_return] at hreads
  exact hreads

section
variable {order : Utf16.Order} {a b c d : UInt8} {rest : List UInt8} {value : Nat}

theorem fromU32_of (h : value < 0xd800 ∨ 0xdfff < value ∧ value < 0x110000) :
    fromU32 value = some (Char.ofNat value) := if_pos h

/-- A unit that is not the first of a pair. -/
theorem unit_reads (hhigh : Utf16.isHigh (Utf16.readUnit order a b) = false)
    (hfound : Decodes (Utf16.encodeChar order) (Utf16.Lone order) rest found)
    (hrun : LoopReads (Utf16.encodeChar order) charset mode (start + 2) found run) :
    ∃ found', Decodes (Utf16.encodeChar order) (Utf16.Lone order) (a :: b :: rest) found' ∧
      LoopReads (Utf16.encodeChar order) charset mode start found' fun decoder =>
        pushOrRecover runtime slots charset mode decoder
          (if Utf16.isLow (Utf16.readUnit order a b) then none
            else fromU32 (Utf16.readUnit order a b)) start (start + 2) >>= run := by
  cases hlow : Utf16.isLow (Utf16.readUnit order a b) with
  | true => exact ⟨.bad 2 :: found, .bad (.low rest hlow) hfound, LoopReads.bad hrun⟩
  | false =>
    have hcode := Utf16.encodeChar_unit hhigh hlow
    have hvalid : Utf16.readUnit order a b < 0xd800 ∨
        0xdfff < Utf16.readUnit order a b ∧ Utf16.readUnit order a b < 0x110000 := by
      have hlt := Utf16.readUnit_lt order a b
      have hnotHigh := mt Utf16.isHigh_iff.mpr (Utf8.ne_true_of hhigh)
      have hnotLow := mt Utf16.isLow_iff.mpr (Utf8.ne_true_of hlow)
      omega
    rw [if_neg Bool.false_ne_true, fromU32_of hvalid]
    refine ⟨.good (Char.ofNat (Utf16.readUnit order a b)) :: found, ?_,
      LoopReads.good (congrArg List.length hcode) hrun⟩
    have hdecodes := Decodes.good (Char.ofNat (Utf16.readUnit order a b)) hfound
    rwa [hcode] at hdecodes

/-- A pair of surrogates. -/
theorem pair_reads (hhigh : Utf16.isHigh (Utf16.readUnit order a b) = true)
    (hlow : Utf16.isLow (Utf16.readUnit order c d) = true)
    (hfound : Decodes (Utf16.encodeChar order) (Utf16.Lone order) rest found)
    (hrun : LoopReads (Utf16.encodeChar order) charset mode (start + 4) found run) :
    ∃ found', Decodes (Utf16.encodeChar order) (Utf16.Lone order) (a :: b :: c :: d :: rest)
        found' ∧
      LoopReads (Utf16.encodeChar order) charset mode start found' fun decoder =>
        pushOrRecover runtime slots charset mode decoder
          (fromU32 (Utf16.scalar (Utf16.readUnit order a b) (Utf16.readUnit order c d))) start
          (start + 4) >>= run := by
  have hcode := Utf16.encodeChar_pair hhigh hlow
  rw [fromU32_of (Or.inr (Utf16.scalar_bounds hhigh hlow))]
  refine ⟨.good (Char.ofNat (Utf16.scalar (Utf16.readUnit order a b)
    (Utf16.readUnit order c d))) :: found, ?_, LoopReads.good (congrArg List.length hcode) hrun⟩
  have hdecodes := Decodes.good
    (Char.ofNat (Utf16.scalar (Utf16.readUnit order a b) (Utf16.readUnit order c d))) hfound
  rwa [hcode] at hdecodes

end

/-- A turn of the loop that has two units before it. -/
theorem utf16Loop_four (runtime : Runtime σ) (slots : Slots) (order : Utf16.Order)
    (charset : Charset) (base : Nat) (mode : TextDecodingMode) (offset : Nat)
    (a b c d : UInt8) (rest : List UInt8) :
    utf16Loop runtime slots order charset base mode offset (a :: b :: c :: d :: rest) =
      fun decoder => checkpoint runtime offset decoder >>= fun decoder =>
        if Utf16.isHigh (Utf16.readUnit order a b) then
          if Utf16.isLow (Utf16.readUnit order c d) then
            pushOrRecover runtime slots charset mode decoder
              (fromU32 (Utf16.scalar (Utf16.readUnit order a b) (Utf16.readUnit order c d)))
              (base + offset) (base + offset + 4) >>=
              utf16Loop runtime slots order charset base mode (offset + 4) rest
          else
            recoverInvalid runtime slots charset mode decoder (base + offset)
              (base + offset + 2) >>=
              utf16Loop runtime slots order charset base mode (offset + 2) (c :: d :: rest)
        else
          pushOrRecover runtime slots charset mode decoder
            (if Utf16.isLow (Utf16.readUnit order a b) then none
              else fromU32 (Utf16.readUnit order a b)) (base + offset) (base + offset + 2) >>=
            utf16Loop runtime slots order charset base mode (offset + 2) (c :: d :: rest) := rfl

/-- The last turns of the loop. -/
theorem utf16Loop_two (runtime : Runtime σ) (slots : Slots) (order : Utf16.Order)
    (charset : Charset) (base : Nat) (mode : TextDecodingMode) (offset : Nat)
    (a b : UInt8) {more : List UInt8} (hmore : more.length < 2) :
    utf16Loop runtime slots order charset base mode offset (a :: b :: more) =
      fun decoder => checkpoint runtime offset decoder >>= fun decoder =>
        if Utf16.isHigh (Utf16.readUnit order a b) then
          recoverInvalid runtime slots charset mode decoder (base + offset)
            (base + offset + (2 + more.length))
        else
          pushOrRecover runtime slots charset mode decoder
            (if Utf16.isLow (Utf16.readUnit order a b) then none
              else fromU32 (Utf16.readUnit order a b)) (base + offset) (base + offset + 2) >>=
            utf16Loop runtime slots order charset base mode (offset + 2) more := by
  rcases more with _ | ⟨c, _ | ⟨d, more⟩⟩
  · rfl
  · rfl
  · simp only [List.length_cons] at hmore
    omega

/-- The last turns read what is before them, when the loop reads what is behind a unit. -/
theorem utf16Loop_two_reads {runtime : Runtime σ} {slots : Slots} {order : Utf16.Order}
    {charset : Charset} {base : Nat} {mode : TextDecodingMode} {offset : Nat} {a b : UInt8}
    {more : List UInt8} (hmore : more.length < 2)
    (hfound : Decodes (Utf16.encodeChar order) (Utf16.Lone order) more found)
    (hrun : LoopReads (Utf16.encodeChar order) charset mode (base + offset + 2) found
      (utf16Loop runtime slots order charset base mode (offset + 2) more)) :
    ∃ found', Decodes (Utf16.encodeChar order) (Utf16.Lone order) (a :: b :: more) found' ∧
      LoopReads (Utf16.encodeChar order) charset mode (base + offset) found'
        (utf16Loop runtime slots order charset base mode offset (a :: b :: more)) := by
  rw [utf16Loop_two runtime slots order charset base mode offset a b hmore]
  cases hhigh : Utf16.isHigh (Utf16.readUnit order a b) with
  | true =>
    simp only [if_true]
    refine ⟨[.bad (2 + more.length)], ?_, (LoopReads.last _).checkpoint offset⟩
    have hdecodes := @Decodes.bad _ _ (Utf16.encodeChar order) _ _ _ _
      (Utf16.Lone.cut hhigh hmore) .nil
    have hwidth : 2 + more.length = (a :: b :: more).length := by
      simp only [List.length_cons]
      omega
    rw [List.append_nil] at hdecodes
    rwa [hwidth]
  | false =>
    simp only [if_neg Bool.false_ne_true]
    obtain ⟨found', hfound', hreads'⟩ := unit_reads hhigh hfound hrun
    exact ⟨found', hfound', hreads'.checkpoint offset⟩

theorem utf16Loop_reads (runtime : Runtime σ) (slots : Slots) (order : Utf16.Order)
    (charset : Charset) (base : Nat) (mode : TextDecodingMode) (offset : Nat)
    (rest : List UInt8) :
    ∃ found, Decodes (Utf16.encodeChar order) (Utf16.Lone order) rest found ∧
      LoopReads (Utf16.encodeChar order) charset mode (base + offset) found
        (utf16Loop runtime slots order charset base mode offset rest) := by
  induction hlength : rest.length using Nat.strong_induction_on generalizing offset rest with
  | h length ih =>
    -- The loop itself reads what is behind a unit or two.
    have hbehind (width : Nat) {more : List UInt8} (hlt : more.length < length) :
        ∃ found, Decodes (Utf16.encodeChar order) (Utf16.Lone order) more found ∧
          LoopReads (Utf16.encodeChar order) charset mode (base + offset + width) found
            (utf16Loop runtime slots order charset base mode (offset + width) more) := by
      obtain ⟨found, hfound, hreads⟩ := ih more.length hlt (offset + width) more rfl
      rw [← Nat.add_assoc] at hreads
      exact ⟨found, hfound, hreads⟩
    rcases rest with _ | ⟨a, _ | ⟨b, _ | ⟨c, _ | ⟨d, rest⟩⟩⟩⟩
    · exact ⟨[], .nil, LoopReads.nil⟩
    · exact ⟨[.bad 1], Decodes.bad (Utf16.Lone.byte a) .nil,
        (LoopReads.last 1).checkpoint offset⟩
    · obtain ⟨found, hfound, hreads⟩ := @hbehind 2 [] (by simp at hlength ⊢; omega)
      exact utf16Loop_two_reads Nat.zero_lt_two hfound hreads
    · obtain ⟨found, hfound, hreads⟩ := @hbehind 2 [c] (by simp at hlength ⊢; omega)
      exact utf16Loop_two_reads Nat.one_lt_two hfound hreads
    · simp only [List.length_cons] at hlength
      obtain ⟨found, hfound, hreads⟩ := @hbehind 2 (c :: d :: rest)
        (by simp only [List.length_cons]; omega)
      rw [utf16Loop_four]
      cases hhigh : Utf16.isHigh (Utf16.readUnit order a b) with
      | true =>
        simp only [if_true]
        cases hlow : Utf16.isLow (Utf16.readUnit order c d) with
        | true =>
          obtain ⟨found, hfound, hreads⟩ := @hbehind 4 rest (by omega)
          simp only [if_true]
          obtain ⟨found', hfound', hreads'⟩ := pair_reads hhigh hlow hfound hreads
          exact ⟨found', hfound', hreads'.checkpoint offset⟩
        | false =>
          simp only [if_neg Bool.false_ne_true]
          exact ⟨.bad 2 :: found, Decodes.bad (Utf16.Lone.high rest hhigh hlow) hfound,
            (LoopReads.bad hreads).checkpoint offset⟩
      | false =>
        simp only [if_neg Bool.false_ne_true]
        obtain ⟨found', hfound', hreads'⟩ := unit_reads hhigh hfound hreads
        exact ⟨found', hfound', hreads'.checkpoint offset⟩

end

end IntoMarkdown.Decoding
