import IntoMarkdown.Converters.LogicalMemory
import IntoMarkdown.Lib.Widths

/-! # The map of a decoded text

A text is decoded piece by piece, each with its range of the source. Pieces of one width that
follow each other are kept as a run; the pieces themselves are not. A `usize` has 64 bits, and a
text is shorter than `2 ^ 64` bytes, so that no sum here overflows. -/

namespace IntoMarkdown.Decoding
open Lib Lib.Strings Converters

structure MapRun where
  decodedStart : Nat
  sourceStart : Nat
  units : Nat
  decodedWidth : Nat
  sourceWidth : Nat
  deriving DecidableEq, Repr

namespace MapRun

def decodedEnd (run : MapRun) : Nat := run.decodedStart + run.units * run.decodedWidth

def sourceEnd (run : MapRun) : Nat := run.sourceStart + run.units * run.sourceWidth

/-- A piece goes on with the run. -/
def merges (run : MapRun) (decodedStart sourceStart decodedWidth sourceWidth : Nat) : Bool :=
  run.decodedEnd = decodedStart && run.sourceEnd = sourceStart &&
    run.decodedWidth = decodedWidth && run.sourceWidth = sourceWidth && run.units < 2 ^ 32 - 1

def oneMore (run : MapRun) : MapRun := { run with units := run.units + 1 }

end MapRun

/-- The sizes in memory of what is kept in vectors. -/
structure Slots where
  mapRun : Nat
  recoverySpan : Nat
  diagnostic : Nat
  line : Nat
  inline : Nat
  blockNode : Nat

/-- Nothing is refused, and the allocator gives what is asked for. -/
def openRuntime : Runtime Unit where
  checkpoint := .ok
  grow := fun world _ => .ok world
  shrink := fun world _ => .ok world
  allocate := fun world target => .ok (target, world)

structure DecodedText (σ : Type) where
  text : Vec Char
  runs : Vec MapRun
  initialSource : Nat
  memory : LogicalMemory σ

/-- `u32::try_from`. -/
def toU32 (n : Nat) : Option Nat := if n < 2 ^ 32 then some n else none

namespace DecodedText
variable {σ : Type}

def new (initialSource : Nat) (memory : LogicalMemory σ) : DecodedText σ :=
  ⟨{}, {}, initialSource, memory⟩

section
variable (runtime : Runtime σ) (slots : Slots)

def pushSequence (decoded : DecodedText σ) (value : Text) (start stop : Nat) :
    Except ConversionError (DecodedText σ) :=
  if value = [] then .ok decoded
  else do
    let decodedStart := byteLength decoded.text.items
    let decodedWidth ← okOr (toU32 (byteLength value))
      (memoryLimit "decoded scalar width cannot be represented as u32")
    let sourceWidth ← okOr (toU32 (stop - start))
      (.core (.resourceLimit "max_input_bytes" "source scalar width cannot be represented as u32"))
    let reserved ← decoded.memory.reserveString runtime decoded.text (byteLength value)
    let text := { reserved.1 with items := reserved.1.items ++ value }
    if decoded.runs.items.getLast?.any
        fun run => run.merges decodedStart start decodedWidth sourceWidth then
      .ok { decoded with
        text
        runs := { decoded.runs with items := decoded.runs.items.modifyLast MapRun.oneMore }
        memory := reserved.2 }
    else do
      let grown ← reserved.2.reserveVec runtime slots.mapRun decoded.runs 1
      .ok { decoded with
        text
        runs := grown.1.push ⟨decodedStart, start, 1, decodedWidth, sourceWidth⟩
        memory := grown.2 }

end

/-! ## Ranges -/

section
variable (decoded : DecodedText σ)

/-- The number of runs that pass, if they are the first ones. -/
def lookup (passes : MapRun → Bool) : Nat × Nat :=
  searchBorder (fun middle => decoded.runs.items[middle]?.any passes) 0
    decoded.runs.items.length 0

/-- The run before a border. There is none before the first. -/
def runBefore (border : Nat) : Option MapRun := decoded.runs.items[border - 1]?

def sourceBoundary (place : Nat) : Nat × Nat :=
  if decoded.runs.items = [] then (decoded.initialSource, 0)
  else
    let found := decoded.lookup fun run => run.decodedStart ≤ place
    if found.1 = 0 then (decoded.initialSource, found.2)
    else
      ((decoded.runBefore found.1).elim decoded.initialSource fun run =>
        let within := min (place - run.decodedStart) (run.units * run.decodedWidth)
        run.sourceStart + within / run.decodedWidth * run.sourceWidth, found.2)

def sourceStartForOverlap (place : Nat) : Nat × Nat :=
  if decoded.runs.items = [] then (decoded.initialSource, 0)
  else
    let found := decoded.lookup fun run => run.decodedStart ≤ place
    ((decoded.runBefore found.1).elim decoded.initialSource fun run =>
      let within := min (place - run.decodedStart) ((run.units - 1) * run.decodedWidth)
      run.sourceStart + within / run.decodedWidth * run.sourceWidth, found.2)

def sourceEndForOverlap (decodedEnd : Nat) : Nat × Nat :=
  if decoded.runs.items = [] then (decoded.initialSource, 0)
  else
    let found := decoded.lookup fun run => run.decodedStart < decodedEnd
    ((decoded.runBefore found.1).elim decoded.initialSource fun run =>
      let within := min (decodedEnd - run.decodedStart) (run.units * run.decodedWidth)
      let units := (within + (run.decodedWidth - 1)) / run.decodedWidth
      run.sourceStart + units * run.sourceWidth, found.2)

/-- The bytes of the source that bytes of the text come from. -/
def sourceRange (start stop : Nat) : Nat × Nat :=
  if stop ≤ start then
    let source := (decoded.sourceBoundary start).1
    (source, source)
  else
    let startSource := (decoded.sourceStartForOverlap start).1
    (startSource, max (decoded.sourceEndForOverlap stop).1 startSource)

def sourceRangeLookupCount (start stop : Nat) : Nat :=
  if stop ≤ start then (decoded.sourceBoundary start).2
  else (decoded.sourceStartForOverlap start).2 + (decoded.sourceEndForOverlap stop).2

end

end DecodedText

/-! ## Pieces -/

/-- A piece of a text, with its range of the source. -/
structure Piece where
  value : Text
  start : Nat
  stop : Nat
  deriving DecidableEq, Repr

namespace Piece

def width (piece : Piece) : Nat := byteLength piece.value

structure Proper (piece : Piece) : Prop where
  nonempty : piece.value ≠ []
  le : piece.start ≤ piece.stop

instance (piece : Piece) : Decidable piece.Proper :=
  decidable_of_iff (piece.value ≠ [] ∧ piece.start ≤ piece.stop)
    ⟨fun h => ⟨h.1, h.2⟩, fun h => ⟨h.nonempty, h.le⟩⟩

theorem Proper.width_pos {piece : Piece} (h : piece.Proper) : 0 < piece.width := by
  obtain ⟨c, rest, hvalue⟩ := List.exists_cons_of_ne_nil h.nonempty
  rw [width, hvalue, byteLength_cons]
  exact Nat.add_pos_left c.utf8Size_pos _

end Piece

/-- A run stands for pieces that begin at a place of the text. -/
structure MapRun.Stands (run : MapRun) (place : Nat) (pieces : List Piece) : Prop where
  start : run.decodedStart = place
  units : run.units = pieces.length
  nonempty : pieces ≠ []
  positive : 0 < run.decodedWidth
  width : ∀ piece ∈ pieces, piece.width = run.decodedWidth
  source : ∀ k piece, pieces[k]? = some piece →
    piece.start = run.sourceStart + k * run.sourceWidth ∧
      piece.stop = run.sourceStart + (k + 1) * run.sourceWidth

/-- Runs stand for pieces, one run after the other. -/
inductive Mapped : Nat → List MapRun → List Piece → Prop where
  | nil (place : Nat) : Mapped place [] []
  | cons {place : Nat} {run : MapRun} {runs : List MapRun} {front back : List Piece}
      (hrun : run.Stands place front) (hruns : Mapped run.decodedEnd runs back) :
      Mapped place (run :: runs) (front ++ back)

section
variable {place : Nat} {run : MapRun} {runs runs' : List MapRun} {pieces front back : List Piece}
  {piece : Piece}

theorem MapRun.Stands.totalWidth (h : run.Stands place pieces) :
    place + totalWidth Piece.width pieces = run.decodedEnd := by
  rw [totalWidth_of_same h.width, MapRun.decodedEnd, h.start, h.units]

theorem stands_new (h : piece.Proper) (place : Nat) :
    MapRun.Stands ⟨place, piece.start, 1, piece.width, piece.stop - piece.start⟩ place [piece] where
  start := rfl
  units := rfl
  nonempty := List.cons_ne_nil _ _
  positive := h.width_pos
  width := List.forall_mem_singleton.mpr rfl
  source k other hother := by
    have hle := h.le
    cases k with
    | zero =>
      obtain rfl : piece = other := Option.some.inj hother
      dsimp only
      exact ⟨by omega, by omega⟩
    | succ k => cases hother

/-- A piece that goes on with a run is one more of it. -/
theorem MapRun.Stands.oneMore (h : run.Stands place pieces) (hpiece : piece.Proper)
    (hmerges : run.merges (place + Lib.totalWidth Piece.width pieces) piece.start piece.width
      (piece.stop - piece.start) = true) :
    run.oneMore.Stands place (pieces ++ [piece]) := by
  simp only [MapRun.merges, Bool.and_eq_true, decide_eq_true_eq] at hmerges
  obtain ⟨⟨⟨⟨-, hsource⟩, hwidth⟩, hsize⟩, -⟩ := hmerges
  refine ⟨h.start, ?_, List.append_ne_nil_of_left_ne_nil h.nonempty _, h.positive, ?_, ?_⟩
  · rw [MapRun.oneMore, List.length_append, ← h.units]
    rfl
  · exact List.forall_mem_append.mpr ⟨h.width, List.forall_mem_singleton.mpr hwidth.symm⟩
  · intro k other hother
    by_cases hlt : k < pieces.length
    · rw [List.getElem?_append_left hlt] at hother
      exact h.source k other hother
    · have hle := hpiece.le
      have hk : k = pieces.length := by
        have := (List.getElem?_eq_some_iff.mp hother).1
        rw [List.length_append, List.length_singleton] at this
        omega
      subst hk
      rw [List.getElem?_concat_length] at hother
      obtain rfl := Option.some.inj hother
      rw [MapRun.sourceEnd, h.units] at hsource
      refine ⟨hsource.symm, ?_⟩
      have hstop : (pieces.length + 1) * run.sourceWidth =
          pieces.length * run.sourceWidth + run.sourceWidth := Nat.succ_mul _ _
      change piece.stop = run.sourceStart + (pieces.length + 1) * run.sourceWidth
      omega

theorem Mapped.append (h : Mapped place runs front)
    (h' : Mapped (place + totalWidth Piece.width front) runs' back) :
    Mapped place (runs ++ runs') (front ++ back) := by
  induction h with
  | nil place => exact h'
  | @cons place run runs first rest hrun hruns ih =>
    rw [totalWidth_append, ← Nat.add_assoc, hrun.totalWidth] at h'
    rw [List.cons_append, List.append_assoc]
    exact .cons hrun (ih h')

theorem Mapped.split (h : Mapped place (runs ++ runs') pieces) :
    ∃ front back, pieces = front ++ back ∧ Mapped place runs front ∧
      Mapped (place + totalWidth Piece.width front) runs' back := by
  induction runs generalizing place pieces with
  | nil => exact ⟨[], pieces, rfl, .nil place, h⟩
  | cons run runs ih =>
    cases h with
    | @cons _ _ _ first rest hrun hruns =>
      obtain ⟨front, back, rfl, hfront, hback⟩ := ih hruns
      refine ⟨first ++ front, back, (List.append_assoc _ _ _).symm, .cons hrun hfront, ?_⟩
      rw [totalWidth_append, ← Nat.add_assoc, hrun.totalWidth]
      exact hback

theorem mapped_singleton (h : run.Stands place pieces) : Mapped place [run] pieces := by
  have hcons := Mapped.cons h (.nil _)
  rwa [List.append_nil] at hcons

theorem Mapped.singleton (h : Mapped place [run] pieces) : run.Stands place pieces := by
  cases h with
  | cons hrun hruns =>
    cases hruns
    rwa [List.append_nil]

/-- The runs after a piece is pushed. -/
def pushRun (runs : List MapRun) (place : Nat) (piece : Piece) : List MapRun :=
  if runs.getLast?.any fun run =>
      run.merges place piece.start piece.width (piece.stop - piece.start) then
    runs.modifyLast MapRun.oneMore
  else runs ++ [⟨place, piece.start, 1, piece.width, piece.stop - piece.start⟩]

theorem Mapped.push (h : Mapped place runs pieces) (hpiece : piece.Proper) :
    Mapped place (pushRun runs (place + totalWidth Piece.width pieces) piece)
      (pieces ++ [piece]) := by
  unfold pushRun
  split
  · next hmerges =>
    rcases List.eq_nil_or_concat' runs with rfl | ⟨before, run, rfl⟩
    · cases hmerges
    · rw [List.getLast?_concat, Option.any_some] at hmerges
      rw [List.modifyLast_concat]
      obtain ⟨front, back, rfl, hfront, hback⟩ := h.split
      rw [totalWidth_append, ← Nat.add_assoc] at hmerges
      rw [List.append_assoc]
      exact hfront.append (mapped_singleton (hback.singleton.oneMore hpiece hmerges))
  · exact h.append (mapped_singleton (stands_new hpiece _))

end

/-! ## Pushed pieces -/

namespace DecodedText
variable {σ : Type} {decoded : DecodedText σ} {pieces : List Piece} {piece : Piece}

/-- A text that was pushed piece by piece. -/
structure Holds (decoded : DecodedText σ) (pieces : List Piece) : Prop where
  text : decoded.text.items = pieces.flatMap Piece.value
  runs : Mapped 0 decoded.runs.items pieces
  proper : ∀ piece ∈ pieces, piece.Proper

theorem byteLength_pieces (pieces : List Piece) :
    byteLength (pieces.flatMap Piece.value) = totalWidth Piece.width pieces := by
  induction pieces with
  | nil => rfl
  | cons piece pieces ih =>
    rw [List.flatMap_cons, byteLength_append, ih, totalWidth_cons]
    rfl

theorem Holds.byteLength_text (h : decoded.Holds pieces) :
    byteLength decoded.text.items = totalWidth Piece.width pieces := by
  rw [h.text, byteLength_pieces]

theorem holds_new (initialSource : Nat) (memory : LogicalMemory σ) :
    (new initialSource memory).Holds [] := ⟨rfl, .nil 0, List.forall_mem_nil _⟩

theorem okOr_toU32 (n : Nat) (error : Core.ConversionError) :
    Yields (· = n) (okOr (toU32 n) (.core error)) := by
  unfold toU32
  split
  · exact .ok rfl
  · exact .core error

/-- A push is refused by a limit, or the piece is one more. -/
theorem Holds.push (h : decoded.Holds pieces) (runtime : Runtime σ) (slots : Slots)
    (hpiece : piece.Proper) :
    Yields (fun pushed =>
        pushed.Holds (pieces ++ [piece]) ∧ pushed.initialSource = decoded.initialSource)
      (decoded.pushSequence runtime slots piece.value piece.start piece.stop) := by
  have hproper : ∀ other ∈ pieces ++ [piece], other.Proper :=
    List.forall_mem_append.mpr ⟨h.proper, List.forall_mem_singleton.mpr hpiece⟩
  have htext : decoded.text.items ++ piece.value = (pieces ++ [piece]).flatMap Piece.value := by
    rw [List.flatMap_append, ← h.text, List.flatMap_singleton]
  have hruns := h.runs.push hpiece
  rw [← h.byteLength_text, Nat.zero_add, pushRun, Piece.width] at hruns
  unfold pushSequence
  rw [if_neg hpiece.nonempty]
  refine (okOr_toU32 (byteLength piece.value) _).bind fun _ hdecoded => ?_
  refine (okOr_toU32 (piece.stop - piece.start) _).bind fun _ hsource => ?_
  subst hdecoded hsource
  refine (LogicalMemory.reserveString_yields runtime _ _ _).bind fun reserved hreserved => ?_
  split
  · next hmerges =>
    rw [if_pos hmerges] at hruns
    exact .ok ⟨⟨hreserved.symm ▸ htext, hruns, hproper⟩, rfl⟩
  · next hmerges =>
    rw [if_neg hmerges] at hruns
    refine (LogicalMemory.reserveVec_yields runtime _ _ _ _).bind fun grown hgrown => ?_
    refine .ok ⟨⟨hreserved.symm ▸ htext, ?_, hproper⟩, rfl⟩
    rw [Vec.push_items, hgrown]
    exact hruns

end DecodedText

end IntoMarkdown.Decoding
