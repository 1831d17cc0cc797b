import IntoMarkdown.Decoding.SourceMap

/-! # Ranges of the source

The runs answer for each place of the text what the pieces would: a search finds the run, and a
division the piece. -/

namespace IntoMarkdown.Decoding
open Lib Lib.Strings Converters

/-- The run that a spot of the text is in, and the piece of it. -/
structure Hit (runs : List MapRun) (spot : Nat) (piece : Piece) (before : List MapRun)
    (run : MapRun) (after : List MapRun) : Prop where
  runs : runs = before ++ run :: after
  before : ∀ other ∈ before, other.decodedEnd ≤ spot
  le : run.decodedStart ≤ spot
  lt : spot < run.decodedEnd
  after : ∀ other ∈ after, spot < other.decodedStart
  positive : 0 < run.decodedWidth
  start : piece.start =
    run.sourceStart + (spot - run.decodedStart) / run.decodedWidth * run.sourceWidth
  stop : piece.stop =
    run.sourceStart + ((spot - run.decodedStart) / run.decodedWidth + 1) * run.sourceWidth

section
variable {place spot : Nat} {run : MapRun} {runs before after : List MapRun}
  {pieces : List Piece} {piece : Piece}

theorem Mapped.start_le (h : Mapped place runs pieces) : ∀ run ∈ runs, place ≤ run.decodedStart := by
  induction h with
  | nil place => exact List.forall_mem_nil _
  | @cons place run runs front back hrun hruns ih =>
    have hle : place ≤ run.decodedEnd := by
      rw [← hrun.totalWidth]
      exact Nat.le_add_right _ _
    exact List.forall_mem_cons.mpr ⟨Nat.le_of_eq hrun.start.symm,
      fun other hother => Nat.le_trans hle (ih other hother)⟩

theorem MapRun.Stands.itemAt (h : run.Stands place pieces) (hle : place ≤ spot)
    (hlt : spot < run.decodedEnd) :
    ∃ piece, Lib.itemAt Piece.width pieces (spot - place) = some piece ∧
      piece.start =
        run.sourceStart + (spot - run.decodedStart) / run.decodedWidth * run.sourceWidth ∧
      piece.stop =
        run.sourceStart + ((spot - run.decodedStart) / run.decodedWidth + 1) * run.sourceWidth := by
  rw [← h.totalWidth] at hlt
  obtain ⟨piece, hat⟩ := @exists_itemAt Piece Piece.width pieces (spot - place) (by omega)
  have hindex := hat
  rw [itemAt_of_same h.positive h.width] at hindex
  rw [h.start]
  exact ⟨piece, hat, h.source _ piece hindex⟩

/-- Every spot of the text is in one run. What follows that run is mapped as it was. -/
theorem Mapped.hit (h : Mapped place runs pieces) (hle : place ≤ spot)
    (hlt : spot < place + totalWidth Piece.width pieces) :
    ∃ piece before run after, itemAt Piece.width pieces (spot - place) = some piece ∧
      Hit runs spot piece before run after ∧
      ∃ place' pieces', Mapped place' (run :: after) pieces' ∧ place' ≤ spot ∧
        place' + totalWidth Piece.width pieces' = place + totalWidth Piece.width pieces ∧
        ∀ later, spot ≤ later → itemAt Piece.width pieces' (later - place') =
          itemAt Piece.width pieces (later - place) := by
  induction h with
  | nil place =>
    rw [totalWidth_nil] at hlt
    omega
  | @cons place run runs front back hrun hruns ih =>
    rw [totalWidth_append, ← Nat.add_assoc, hrun.totalWidth] at hlt
    by_cases hin : spot < run.decodedEnd
    · obtain ⟨piece, hat, hstart, hstop⟩ := hrun.itemAt hle hin
      have hfront : spot - place < totalWidth Piece.width front := by
        rw [← hrun.totalWidth] at hin
        omega
      refine ⟨piece, [], run, runs, ?_, ⟨rfl, List.forall_mem_nil _, ?_, hin, ?_, hrun.positive,
        hstart, hstop⟩, place, front ++ back, .cons hrun hruns, hle, rfl, fun _ _ => rfl⟩
      · rw [itemAt_append_left hfront, hat]
      · exact hrun.start.symm ▸ hle
      · exact fun other hother => Nat.lt_of_lt_of_le hin (hruns.start_le other hother)
    · obtain ⟨piece, before, other, after, hat, hhit, place', pieces', hmapped, hle', htotal,
        hsame⟩ := ih (Nat.not_lt.mp hin) hlt
      have hskip (later : Nat) (hlater : run.decodedEnd ≤ later) :
          itemAt Piece.width (front ++ back) (later - place) =
            itemAt Piece.width back (later - run.decodedEnd) := by
        rw [← hrun.totalWidth] at hlater ⊢
        rw [itemAt_append_right (by omega), Nat.sub_add_eq]
      refine ⟨piece, run :: before, other, after, ?_, ⟨?_, ?_, hhit.le, hhit.lt, hhit.after,
        hhit.positive, hhit.start, hhit.stop⟩, place', pieces', hmapped, hle', ?_, ?_⟩
      · rw [hskip spot (Nat.not_lt.mp hin), hat]
      · rw [hhit.runs]
        rfl
      · exact List.forall_mem_cons.mpr ⟨Nat.not_lt.mp hin, hhit.before⟩
      · rw [htotal, totalWidth_append, ← Nat.add_assoc, hrun.totalWidth]
      · intro later hlater
        rw [hsame later hlater, hskip later (Nat.le_trans (Nat.not_lt.mp hin) hlater)]

/-! ## Lookups -/

theorem Hit.lookup {σ : Type} {decoded : DecodedText σ}
    (h : Hit decoded.runs.items spot piece before run after) {passes : MapRun → Bool}
    (hpasses : ∀ other, passes other = true ↔ other.decodedStart ≤ spot) :
    decoded.runBefore (decoded.lookup passes).1 = some run ∧
      (decoded.lookup passes).1 = before.length + 1 := by
  have hborder : (decoded.lookup passes).1 = before.length + 1 := by
    refine searchBorder_eq (fun place _ hplace => ?_) (Nat.zero_le _) ?_ 0
    · rw [h.runs]
      rcases Nat.lt_trichotomy place before.length with hlt | rfl | hgt
      · rw [List.getElem?_append_left hlt, List.getElem?_eq_getElem hlt, Option.any_some, hpasses]
        have hend := h.before _ (List.getElem_mem hlt)
        rw [MapRun.decodedEnd] at hend
        exact iff_of_true (by omega) (by omega)
      · rw [List.getElem?_append_right (Nat.le_refl _), Nat.sub_self, List.getElem?_cons_zero,
          Option.any_some, hpasses]
        exact iff_of_true h.le (Nat.lt_succ_self _)
      · obtain ⟨k, rfl⟩ := Nat.exists_eq_add_of_lt hgt
        rw [List.getElem?_append_right (by omega),
          show before.length + k + 1 - before.length = k + 1 by omega, List.getElem?_cons_succ]
        refine iff_of_false (fun hany => ?_) (by omega)
        obtain ⟨other, hother, hpass⟩ := (Option.any_eq_true _ _).mp hany
        have hafter := h.after other (List.mem_of_getElem? hother)
        exact Nat.not_le.mpr hafter ((hpasses other).mp hpass)
    · rw [h.runs, List.length_append, List.length_cons]
      omega
  refine ⟨?_, hborder⟩
  rw [DecodedText.runBefore, hborder, Nat.add_sub_cancel, h.runs,
    List.getElem?_append_right (Nat.le_refl _), Nat.sub_self]
  rfl

variable {σ : Type} {decoded : DecodedText σ}

theorem Hit.runs_ne (h : Hit runs spot piece before run after) : runs ≠ [] := by
  rw [h.runs]
  exact List.append_ne_nil_of_right_ne_nil _ (List.cons_ne_nil _ _)

theorem Hit.unit_lt (h : Hit runs spot piece before run after) :
    (spot - run.decodedStart) / run.decodedWidth < run.units := by
  have hlt := h.lt
  have hle := h.le
  rw [MapRun.decodedEnd] at hlt
  exact (Nat.div_lt_iff_lt_mul h.positive).mpr (by omega)

theorem Hit.sourceStart (h : Hit decoded.runs.items spot piece before run after) :
    (decoded.sourceStartForOverlap spot).1 = piece.start := by
  rw [DecodedText.sourceStartForOverlap, if_neg h.runs_ne]
  dsimp only
  rw [(h.lookup fun _ => decide_eq_true_iff).1, Option.elim_some, h.start]
  have hunit := Nat.le_sub_one_of_lt h.unit_lt
  have hdiv : min (spot - run.decodedStart) ((run.units - 1) * run.decodedWidth) /
      run.decodedWidth = (spot - run.decodedStart) / run.decodedWidth := by
    rcases Nat.le_total (spot - run.decodedStart) ((run.units - 1) * run.decodedWidth) with hle | hle
    · rw [Nat.min_eq_left hle]
    · rw [Nat.min_eq_right hle, Nat.mul_div_cancel _ h.positive]
      exact Nat.le_antisymm ((Nat.le_div_iff_mul_le h.positive).mpr hle) hunit
  rw [hdiv]

theorem Hit.sourceBoundary (h : Hit decoded.runs.items spot piece before run after) :
    (decoded.sourceBoundary spot).1 = piece.start := by
  obtain ⟨hfound, hborder⟩ := h.lookup fun _ => decide_eq_true_iff
  have hwithin : spot - run.decodedStart ≤ run.units * run.decodedWidth := by
    have hlt := h.lt
    rw [MapRun.decodedEnd] at hlt
    omega
  rw [DecodedText.sourceBoundary, if_neg h.runs_ne]
  dsimp only
  rw [if_neg (by rw [hborder]; exact Nat.succ_ne_zero _)]
  dsimp only
  rw [hfound, Option.elim_some, h.start, Nat.min_eq_left hwithin]

/-- The end is rounded up to that of the piece which holds the byte before it. -/
theorem Hit.sourceEnd (h : Hit decoded.runs.items spot piece before run after) :
    (decoded.sourceEndForOverlap (spot + 1)).1 = piece.stop := by
  have hlt := h.lt
  have hle := h.le
  rw [MapRun.decodedEnd] at hlt
  rw [DecodedText.sourceEndForOverlap, if_neg h.runs_ne]
  dsimp only
  rw [(h.lookup fun _ => decide_eq_true_iff.trans Nat.lt_succ_iff).1, Option.elim_some, h.stop,
    Nat.min_eq_left (by omega)]
  have hround : spot + 1 - run.decodedStart + (run.decodedWidth - 1) =
      spot - run.decodedStart + run.decodedWidth := by
    have hpos := h.positive
    omega
  rw [hround, Nat.add_div_right _ h.positive]

theorem Mapped.runs_eq_nil (h : Mapped place runs pieces) : runs = [] ↔ pieces = [] := by
  cases h with
  | nil => exact iff_of_true rfl rfl
  | cons hrun hruns =>
    exact iff_of_false (List.cons_ne_nil _ _) (List.append_ne_nil_of_left_ne_nil hrun.nonempty _)

/-- The runs are no more than the pieces. -/
theorem Mapped.length_le (h : Mapped place runs pieces) : runs.length ≤ pieces.length := by
  induction h with
  | nil => exact Nat.le_refl 0
  | cons hrun hruns ih =>
    have hpos := List.length_pos_iff.mpr hrun.nonempty
    rw [List.length_cons, List.length_append]
    omega

theorem Mapped.end_le (h : Mapped place runs pieces) :
    ∀ run ∈ runs, run.decodedEnd ≤ place + totalWidth Piece.width pieces := by
  induction h with
  | nil place => exact List.forall_mem_nil _
  | @cons place run runs front back hrun hruns ih =>
    rw [totalWidth_append, ← Nat.add_assoc, hrun.totalWidth]
    exact List.forall_mem_cons.mpr ⟨Nat.le_add_right _ _, ih⟩

theorem MapRun.Stands.sourceEnd (h : run.Stands place pieces) :
    pieces.getLast?.map Piece.stop = some run.sourceEnd := by
  rcases List.eq_nil_or_concat' pieces with rfl | ⟨front, last, rfl⟩
  · exact absurd rfl h.nonempty
  · have hlast := (h.source front.length last List.getElem?_concat_length).2
    rw [List.getLast?_concat, Option.map_some, hlast, MapRun.sourceEnd, h.units,
      List.length_append, List.length_singleton]

/-- Behind the text is the end of the last piece. -/
theorem Mapped.sourceBoundary_end (h : Mapped 0 decoded.runs.items pieces)
    (hle : totalWidth Piece.width pieces ≤ spot) :
    (decoded.sourceBoundary spot).1 = (pieces.getLast?.map Piece.stop).getD decoded.initialSource := by
  rw [DecodedText.sourceBoundary]
  rcases List.eq_nil_or_concat' decoded.runs.items with hnil | ⟨before, run, hruns⟩
  · rw [if_pos hnil, h.runs_eq_nil.mp hnil]
    rfl
  · have hall := h.end_le
    rw [hruns] at h
    obtain ⟨front, back, rfl, hfront, hback⟩ := h.split
    have hrun := hback.singleton
    have htotal : totalWidth Piece.width (front ++ back) = run.decodedEnd := by
      rw [totalWidth_append, ← hrun.totalWidth, Nat.zero_add]
    rw [htotal] at hle hall
    have hborder : (decoded.lookup fun run => run.decodedStart ≤ spot).1 = before.length + 1 := by
      refine searchBorder_eq (fun place _ hplace => ?_) (Nat.zero_le _) ?_ 0
      · refine iff_of_true ?_ (by rwa [hruns, List.length_append, List.length_singleton] at hplace)
        rw [List.getElem?_eq_getElem hplace, Option.any_some, decide_eq_true_iff]
        have hend := hall _ (List.getElem_mem hplace)
        rw [Nat.zero_add, MapRun.decodedEnd] at hend
        omega
      · rw [hruns, List.length_append, List.length_singleton]
    have hfound : decoded.runBefore (before.length + 1) = some run := by
      rw [DecodedText.runBefore, Nat.add_sub_cancel, hruns, List.getElem?_concat_length]
    have hwithin : run.units * run.decodedWidth ≤ spot - run.decodedStart := by
      rw [MapRun.decodedEnd] at hle
      omega
    rw [if_neg (by rw [hruns]; exact List.append_ne_nil_of_right_ne_nil _ (List.cons_ne_nil _ _))]
    dsimp only
    rw [hborder, if_neg (Nat.succ_ne_zero _)]
    dsimp only
    rw [hfound, Option.elim_some, Nat.min_eq_right hwithin, Nat.mul_div_cancel _ hrun.positive,
      List.getLast?_append_of_ne_nil _ hrun.nonempty, hrun.sourceEnd]
    rfl

/-! ## Every text that is pushed -/

/-- Pieces whose ranges of the source are in order. -/
structure InOrder (pieces : List Piece) : Prop where
  proper : ∀ piece ∈ pieces, piece.Proper
  ordered : pieces.Pairwise fun earlier later => earlier.stop ≤ later.start

/-- The source boundary before a piece, or behind the last. -/
def boundaryOf (initialSource : Nat) (pieces : List Piece) (spot : Nat) : Nat :=
  match itemAt Piece.width pieces spot with
  | some piece => piece.start
  | none => (pieces.getLast?.map Piece.stop).getD initialSource

/-- The text and the ranges of pieces, as if each piece were kept. -/
structure Exact (initialSource : Nat) (pieces : List Piece) (decoded : DecodedText σ) : Prop where
  text : decoded.text.items = pieces.flatMap Piece.value
  range : ∀ start stop, start < stop → stop ≤ byteLength decoded.text.items →
    ∃ first last, itemAt Piece.width pieces start = some first ∧
      itemAt Piece.width pieces (stop - 1) = some last ∧
        decoded.sourceRange start stop = (first.start, last.stop)
  empty : ∀ start stop, stop ≤ start → decoded.sourceRange start stop =
    (boundaryOf initialSource pieces start, boundaryOf initialSource pieces start)
  lookups : ∀ start stop digits, pieces.length < 2 ^ digits →
    decoded.sourceRangeLookupCount start stop ≤ 2 * digits

theorem Mapped.lookups (h : Mapped 0 decoded.runs.items pieces) {digits : Nat}
    (hdigits : pieces.length < 2 ^ digits) (passes : MapRun → Bool) :
    (decoded.lookup passes).2 ≤ digits := by
  have hlength : decoded.runs.items.length - 0 < 2 ^ digits :=
    Nat.lt_of_le_of_lt h.length_le hdigits
  have hasked := searchBorder_asked (fun middle => decoded.runs.items[middle]?.any passes) hlength 0
  rwa [Nat.zero_add] at hasked

theorem Mapped.sourceRange (h : Mapped 0 decoded.runs.items pieces) (hpieces : InOrder pieces)
    {start stop : Nat} (hlt : start < stop) (hle : stop ≤ totalWidth Piece.width pieces) :
    ∃ first last, itemAt Piece.width pieces start = some first ∧
      itemAt Piece.width pieces (stop - 1) = some last ∧
        decoded.sourceRange start stop = (first.start, last.stop) := by
  obtain ⟨first, _, _, _, hfirst, hfirstHit, -⟩ :=
    h.hit (Nat.zero_le start) (by omega)
  obtain ⟨last, _, _, _, hlast, hlastHit, -⟩ := h.hit (Nat.zero_le (stop - 1)) (by omega)
  have hend := hlastHit.sourceEnd
  rw [Nat.sub_add_cancel (by omega)] at hend
  refine ⟨first, last, hfirst, hlast, ?_⟩
  rw [DecodedText.sourceRange, if_neg (Nat.not_le.mpr hlt)]
  dsimp only
  rw [hfirstHit.sourceStart, hend, Nat.max_eq_left]
  have hfirstLe := (hpieces.proper first (mem_of_itemAt hfirst)).le
  have hlastLe := (hpieces.proper last (mem_of_itemAt hlast)).le
  rcases itemAt_pairwise hpieces.ordered (by omega) hfirst hlast with rfl | hbetween
  · exact hfirstLe
  · exact (hfirstLe.trans hbetween).trans hlastLe

theorem Mapped.sourceBoundary (h : Mapped 0 decoded.runs.items pieces) (spot : Nat) :
    (decoded.sourceBoundary spot).1 = boundaryOf decoded.initialSource pieces spot := by
  rw [boundaryOf]
  by_cases hlt : spot < totalWidth Piece.width pieces
  · obtain ⟨piece, _, _, _, hat, hhit, -⟩ := h.hit (Nat.zero_le spot) (by omega)
    rw [Nat.sub_zero] at hat
    rw [hat, hhit.sourceBoundary]
  · have hnone : itemAt Piece.width pieces spot = none := itemAt_eq_none (Nat.not_lt.mp hlt)
    rw [hnone, h.sourceBoundary_end (Nat.not_lt.mp hlt)]

theorem Mapped.lookupCount (h : Mapped 0 decoded.runs.items pieces) {digits : Nat}
    (hdigits : pieces.length < 2 ^ digits) (start stop : Nat) :
    decoded.sourceRangeLookupCount start stop ≤ 2 * digits := by
  have hboundary : (decoded.sourceBoundary start).2 ≤ digits := by
    unfold DecodedText.sourceBoundary
    dsimp only
    split_ifs
    · exact Nat.zero_le _
    · exact h.lookups hdigits _
    · exact h.lookups hdigits _
  have hstart : (decoded.sourceStartForOverlap start).2 ≤ digits := by
    unfold DecodedText.sourceStartForOverlap
    split_ifs
    · exact Nat.zero_le _
    · exact h.lookups hdigits _
  have hstop : (decoded.sourceEndForOverlap stop).2 ≤ digits := by
    unfold DecodedText.sourceEndForOverlap
    split_ifs
    · exact Nat.zero_le _
    · exact h.lookups hdigits _
  unfold DecodedText.sourceRangeLookupCount
  split_ifs <;> omega

theorem DecodedText.Holds.exact (h : decoded.Holds pieces) (hpieces : InOrder pieces) :
    Exact decoded.initialSource pieces decoded where
  text := h.text
  range start stop hlt hle := h.runs.sourceRange hpieces hlt (h.byteLength_text ▸ hle)
  empty start stop hle := by
    rw [DecodedText.sourceRange, if_pos hle, h.runs.sourceBoundary]
  lookups start stop _ hdigits := h.runs.lookupCount hdigits start stop

/-! ## Pushes -/

def DecodedText.pushAll (runtime : Runtime σ) (slots : Slots) (decoded : DecodedText σ)
    (pieces : List Piece) : Except ConversionError (DecodedText σ) :=
  pieces.foldlM
    (fun decoded piece => decoded.pushSequence runtime slots piece.value piece.start piece.stop)
    decoded

theorem DecodedText.Holds.pushAll (runtime : Runtime σ) (slots : Slots) (h : decoded.Holds pieces)
    {more : List Piece} (hmore : ∀ piece ∈ more, piece.Proper) :
    Yields (fun pushed => pushed.Holds (pieces ++ more) ∧
      pushed.initialSource = decoded.initialSource) (decoded.pushAll runtime slots more) := by
  induction more generalizing decoded pieces with
  | nil => exact .ok ⟨(List.append_nil pieces).symm ▸ h, rfl⟩
  | cons piece more ih =>
    obtain ⟨hpiece, hrest⟩ := List.forall_mem_cons.mp hmore
    rw [DecodedText.pushAll, List.foldlM_cons]
    refine (h.push runtime slots hpiece).bind fun pushed hpushed => ?_
    refine (ih hpushed.1 hrest).mono fun final hfinal => ?_
    rw [List.append_assoc] at hfinal
    exact ⟨hfinal.1, hfinal.2.trans hpushed.2⟩

/-- **Source ranges.** However pieces with ranges in order are pushed, the compressed map answers
for every range of the text what the pieces themselves would, and is searched in a number of steps
that grows with the digits of their number. -/
theorem sourceRange_exact (runtime : Runtime σ) (slots : Slots) (initialSource : Nat)
    (memory : LogicalMemory σ) (hpieces : InOrder pieces) :
    Yields (Exact initialSource pieces)
      ((DecodedText.new initialSource memory).pushAll runtime slots pieces) := by
  refine ((DecodedText.holds_new initialSource memory).pushAll runtime slots hpieces.proper).mono ?_
  rintro decoded ⟨hholds, hsource⟩
  rw [List.nil_append] at hholds
  have hexact := hholds.exact hpieces
  rwa [hsource] at hexact

end

/-- A run of two pieces, a replaced byte, and a character of two bytes. -/
def samplePieces : List Piece :=
  [⟨['a'], 3, 4⟩, ⟨['b'], 4, 5⟩, ⟨[Char.ofNat 0xfffd], 5, 6⟩, ⟨[Char.ofNat 0xe9], 6, 8⟩]

theorem sourceRange_exact_sample : ∃ decoded,
    (DecodedText.new 3 ⟨(), true, 0, none⟩).pushAll openRuntime ⟨32, 24, 1, 64, 1, 1⟩
      samplePieces = .ok decoded ∧ decoded.sourceRange 1 5 = (4, 6) := by
  obtain ⟨decoded, hdecoded⟩ := isOk_iff.mp (show ((DecodedText.new 3 ⟨(), true, 0, none⟩).pushAll
    openRuntime ⟨32, 24, 1, 64, 1, 1⟩ samplePieces).isOk = true by decide +kernel)
  have hexact := (sourceRange_exact openRuntime ⟨32, 24, 1, 64, 1, 1⟩ 3 ⟨(), true, 0, none⟩
    ⟨by decide, by decide⟩).of_ok hdecoded
  refine ⟨decoded, hdecoded, ?_⟩
  obtain ⟨first, last, hfirst, hlast, hrange⟩ :=
    hexact.range 1 5 (by decide) (by rw [hexact.text]; decide +kernel)
  obtain rfl := Option.some.inj (hfirst.symm.trans (show _ = some ⟨['b'], 4, 5⟩ by decide))
  obtain rfl := Option.some.inj
    (hlast.symm.trans (show _ = some ⟨[Char.ofNat 0xfffd], 5, 6⟩ by decide))
  exact hrange

end IntoMarkdown.Decoding
