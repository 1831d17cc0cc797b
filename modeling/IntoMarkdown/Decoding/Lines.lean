import IntoMarkdown.Decoding.Reading
import IntoMarkdown.Lib.LineEnds

/-! # Lines of a decoded text

The text is read once more, character by character, next to its runs: the range of each character
is the one of its piece, and each line has the range from its first character to its last. -/

namespace IntoMarkdown.Decoding
open Lib Lib.Strings Converters

structure Line where
  text : Vec Char := {}
  start : Option Nat := none
  stop : Option Nat := none
  deriving DecidableEq, Repr

structure DecodedLines (σ : Type) where
  lines : Vec Line := {}
  current : Line := {}
  pendingCr : Bool := false
  memory : LogicalMemory σ

namespace DecodedLines
variable {σ : Type} (runtime : Runtime σ) (slots : Slots)

def new (memory : LogicalMemory σ) : DecodedLines σ := { memory }

def finishLine (lines : DecodedLines σ) : Except ConversionError (DecodedLines σ) := do
  let grown ← lines.memory.reserveVec runtime slots.line lines.lines 1
  .ok { lines with lines := grown.1.push lines.current, current := {}, memory := grown.2 }

/-- A character when no carriage return is pending. -/
def pushPlain (lines : DecodedLines σ) (value : Char) (start stop : Nat) :
    Except ConversionError (DecodedLines σ) :=
  if value = '\r' then .ok { lines with pendingCr := true }
  else if value = '\n' then lines.finishLine runtime slots
  else do
    let reserved ← lines.memory.reserveString runtime lines.current.text value.utf8Size
    .ok { lines with
      current :=
        { text := { reserved.1 with items := reserved.1.items ++ [value] }
          start := some (lines.current.start.getD start)
          stop := some stop }
      memory := reserved.2 }

def pushChar (lines : DecodedLines σ) (value : Char) (start stop : Nat) :
    Except ConversionError (DecodedLines σ) :=
  if lines.pendingCr then do
    let lines ← lines.finishLine runtime slots
    let lines := { lines with pendingCr := false }
    if value = '\n' then .ok lines else lines.pushPlain runtime slots value start stop
  else lines.pushPlain runtime slots value start stop

def pushSequence (lines : DecodedLines σ) (value : Text) (start stop : Nat) :
    Except ConversionError (DecodedLines σ) :=
  value.foldlM (fun lines c => lines.pushChar runtime slots c start stop) lines

def finish (lines : DecodedLines σ) : Except ConversionError (Vec Line × LogicalMemory σ) := do
  let lines ← if lines.pendingCr then lines.finishLine runtime slots else .ok lines
  let lines ← lines.finishLine runtime slots
  .ok (lines.lines, lines.memory)

def checkpoint (place : Nat) (lines : DecodedLines σ) : Except ConversionError (DecodedLines σ) :=
  if place % 4096 = 0 then
    ((runtime.checkpoint lines.memory.world).mapError .core).map fun world =>
      { lines with memory.world := world }
  else .ok lines

end DecodedLines

section
variable {σ : Type} (runtime : Runtime σ) (slots : Slots)

/-- The loop of `into_lines` over the text from a place on, with the runs from `run_index` on. -/
def intoLinesFrom (runs : List MapRun) (place : Nat) :
    Text → DecodedLines σ → Except ConversionError (DecodedLines σ)
  | [], lines => .ok lines
  | value :: text, lines => do
    let lines ← lines.checkpoint runtime place
    let left := runs.dropWhile fun run => run.decodedEnd ≤ place
    let run ← okOr left.head?
      (.core (.internal "decoded text mapping ended before its text"))
    let unit := (place - run.decodedStart) / run.decodedWidth
    let sourceStart := run.sourceStart + unit * run.sourceWidth
    let lines ← lines.pushSequence runtime slots [value] sourceStart (sourceStart + run.sourceWidth)
    intoLinesFrom left (place + value.utf8Size) text lines

def DecodedText.intoLines (decoded : DecodedText σ) :
    Except ConversionError (Vec Line × LogicalMemory σ) := do
  let lines ← intoLinesFrom runtime slots decoded.runs.items 0 decoded.text.items
    (.new decoded.memory)
  lines.finish runtime slots

end

/-! ## Characters with their ranges -/

/-- A character with its range of the source. -/
structure Spot where
  value : Char
  start : Nat
  stop : Nat
  deriving DecidableEq, Repr

def Piece.spots (piece : Piece) : List Spot := piece.value.map (⟨·, piece.start, piece.stop⟩)

def spotsOf (pieces : List Piece) : List Spot := pieces.flatMap Piece.spots

/-- The characters of a text that begins at a place, each with the range that its place has. -/
inductive Marks (located : Nat → Option Piece) : Nat → Text → List Spot → Prop where
  | nil (place : Nat) : Marks located place [] []
  | cons {place : Nat} {c : Char} {text : Text} {piece : Piece} {spots : List Spot}
      (hpiece : located place = some piece)
      (hrest : Marks located (place + c.utf8Size) text spots) :
      Marks located place (c :: text) (⟨c, piece.start, piece.stop⟩ :: spots)

section
variable {located : Nat → Option Piece} {place : Nat} {text text' : Text}
  {spots spots' : List Spot} {piece : Piece} {pieces : List Piece}

theorem Marks.append (h : Marks located place text spots)
    (h' : Marks located (place + byteLength text) text' spots') :
    Marks located place (text ++ text') (spots ++ spots') := by
  induction h with
  | nil place => exact h'
  | @cons place c text piece spots hpiece hrest ih =>
    refine .cons hpiece (ih ?_)
    rwa [byteLength_cons, ← Nat.add_assoc] at h'

/-- A piece gives all its characters its range. -/
theorem marks_piece (text : Text) (place : Nat)
    (h : ∀ k < byteLength text, located (place + k) = some piece) :
    Marks located place text (text.map (⟨·, piece.start, piece.stop⟩)) := by
  induction text generalizing place with
  | nil => exact .nil place
  | cons c text ih =>
    rw [byteLength_cons] at h
    have hpos := c.utf8Size_pos
    refine .cons (h 0 (by omega)) (ih _ fun k hk => ?_)
    rw [Nat.add_assoc]
    exact h _ (by omega)

/-- The pieces give the text its ranges. -/
theorem marks_pieces (before pieces : List Piece) :
    Marks (itemAt Piece.width (before ++ pieces)) (totalWidth Piece.width before)
      (pieces.flatMap Piece.value) (spotsOf pieces) := by
  induction pieces generalizing before with
  | nil => exact .nil _
  | cons piece pieces ih =>
    have hrest := ih (before ++ [piece])
    rw [totalWidth_append, totalWidth_cons, totalWidth_nil, Nat.add_zero, List.append_assoc]
      at hrest
    rw [List.flatMap_cons, spotsOf, List.flatMap_cons]
    refine (marks_piece piece.value _ fun k hk => ?_).append hrest
    rw [itemAt_append_right (Nat.le_add_right _ _), Nat.add_sub_cancel_left]
    exact if_pos hk

end

/-! ## The runs next to the text -/

section
variable {σ : Type} (runtime : Runtime σ) (slots : Slots)

/-- The loop when the characters come with their ranges. -/
def pushSpots (place : Nat) : List Spot → DecodedLines σ → Except ConversionError (DecodedLines σ)
  | [], lines => .ok lines
  | spot :: spots, lines => do
    let lines ← lines.checkpoint runtime place
    let lines ← lines.pushSequence runtime slots [spot.value] spot.start spot.stop
    pushSpots (place + spot.value.utf8Size) spots lines

variable {spot place : Nat} {run : MapRun} {runs before after : List MapRun} {piece : Piece}
  {text : Text} {spots : List Spot} {pieces : List Piece}

theorem Hit.dropWhile (h : Hit runs spot piece before run after) :
    runs.dropWhile (fun run => run.decodedEnd ≤ spot) = run :: after := by
  have hlt : ¬ decide (run.decodedEnd ≤ spot) = true := by
    rw [decide_eq_true_iff]
    exact Nat.not_le.mpr h.lt
  rw [h.runs, List.dropWhile_append_of_pos fun other hother =>
    decide_eq_true (h.before other hother), List.dropWhile_cons, if_neg hlt]

/-- Runs that were passed are passed later on. -/
theorem dropWhile_passed (runs : List MapRun) {place later : Nat} (h : place ≤ later) :
    (runs.dropWhile fun run => run.decodedEnd ≤ place).dropWhile
      (fun run => run.decodedEnd ≤ later) = runs.dropWhile fun run => run.decodedEnd ≤ later := by
  induction runs with
  | nil => rfl
  | cons run runs ih =>
    rw [List.dropWhile_cons]
    split
    · next hpassed =>
      have hlater : decide (run.decodedEnd ≤ later) = true :=
        decide_eq_true (Nat.le_trans (of_decide_eq_true hpassed) h)
      rw [ih, List.dropWhile_cons, if_pos hlater]
    · rfl

/-- The run that is looked at is always the one of the place. -/
theorem intoLinesFrom_eq (hmapped : Mapped 0 runs pieces)
    (hmarks : Marks (itemAt Piece.width pieces) place text spots) {left : List MapRun}
    (hleft : left.dropWhile (fun run => run.decodedEnd ≤ place) =
      runs.dropWhile fun run => run.decodedEnd ≤ place) :
    intoLinesFrom runtime slots left place text = pushSpots runtime slots place spots := by
  induction hmarks generalizing left with
  | nil place => rfl
  | @cons place c text piece spots hpiece hrest ih =>
    have hlt : place < totalWidth Piece.width pieces := by
      by_contra hge
      rw [itemAt_eq_none (Nat.not_lt.mp hge)] at hpiece
      cases hpiece
    obtain ⟨other, before, run, after, hother, hhit, -⟩ :=
      hmapped.hit (Nat.zero_le place) (by rwa [Nat.zero_add])
    rw [Nat.sub_zero, hpiece] at hother
    obtain rfl := Option.some.inj hother
    rw [hhit.dropWhile] at hleft
    have hnext := @ih (run :: after) (by
      rw [← hhit.dropWhile, dropWhile_passed runs (Nat.le_add_right _ _)])
    have hstop : run.sourceStart + (place - run.decodedStart) / run.decodedWidth * run.sourceWidth +
        run.sourceWidth = piece.stop := by
      rw [hhit.stop, Nat.succ_mul, Nat.add_assoc]
    funext lines
    rw [intoLinesFrom, pushSpots, hleft]
    congr 1
    funext lines
    change (lines.pushSequence runtime slots [c]
      (run.sourceStart + (place - run.decodedStart) / run.decodedWidth * run.sourceWidth)
      (run.sourceStart + (place - run.decodedStart) / run.decodedWidth * run.sourceWidth +
        run.sourceWidth) >>= fun lines =>
          intoLinesFrom runtime slots (run :: after) (place + c.utf8Size) text lines) = _
    rw [hstop, ← hhit.start, hnext]

end

/-! ## Lines -/

/-- What is kept of a line. -/
structure LineText where
  text : Text
  start : Option Nat
  stop : Option Nat
  deriving DecidableEq, Repr

def Line.content (line : Line) : LineText := ⟨line.text.items, line.start, line.stop⟩

/-- A line from its characters. -/
def lineOf (spots : List Spot) : LineText :=
  ⟨spots.map Spot.value, spots.head?.map Spot.start, spots.getLast?.map Spot.stop⟩

theorem lineOf_concat (spots : List Spot) (spot : Spot) :
    lineOf (spots ++ [spot]) = ⟨(lineOf spots).text ++ [spot.value],
      some ((lineOf spots).start.getD spot.start), some spot.stop⟩ := by
  have hstart : (spots ++ [spot]).head?.map Spot.start =
      some ((spots.head?.map Spot.start).getD spot.start) := by
    cases spots <;> rfl
  rw [lineOf, List.map_append, List.getLast?_concat, hstart]
  rfl

namespace DecodedLines
variable {σ : Type}

/-- The lines that were pushed so far. -/
structure Tracks (lines : DecodedLines σ) (state : LineState Spot) : Prop where
  current : lines.current.content = lineOf state.current
  pending : lines.pendingCr = state.pending
  lines : lines.lines.items.map Line.content = state.lines.map lineOf

variable {runtime : Runtime σ} {slots : Slots} {lines : DecodedLines σ} {state : LineState Spot}
  {spot : Spot}

theorem tracks_new (memory : LogicalMemory σ) : (new memory).Tracks {} := ⟨rfl, rfl, rfl⟩

/-- The line is finished, and what is pending stays as it is. -/
theorem finishLine_yields (h : lines.Tracks state) :
    Yields (fun next => next.Tracks { state.finishLine with pending := state.pending })
      (lines.finishLine runtime slots) := by
  refine (LogicalMemory.reserveVec_yields runtime _ _ _ _).bind fun grown hgrown => ?_
  refine .ok ⟨rfl, h.pending, ?_⟩
  change (grown.1.push lines.current).items.map _ = (state.lines ++ [state.current]).map lineOf
  rw [Vec.push_items, hgrown, List.map_append, List.map_append, h.lines, List.map_singleton,
    List.map_singleton, h.current]

theorem finishLine_plain (hpending : state.pending = false) :
    { state.finishLine with pending := state.pending } = state.finishLine := by
  rw [hpending]
  rfl

theorem pushPlain_yields (h : lines.Tracks state) (hpending : state.pending = false) :
    Yields (fun next => next.Tracks (state.take Spot.value spot))
      (lines.pushPlain runtime slots spot.value spot.start spot.stop) := by
  unfold pushPlain LineState.take
  split
  · exact .ok ⟨h.current, rfl, h.lines⟩
  split
  · have hfinish := @finishLine_yields σ runtime slots lines state h
    rwa [finishLine_plain hpending] at hfinish
  · refine (LogicalMemory.reserveString_yields runtime _ _ _).bind fun reserved hreserved => ?_
    refine .ok ⟨?_, h.pending, h.lines⟩
    change LineText.mk _ _ _ = _
    have htext : lines.current.text.items = (lineOf state.current).text :=
      congrArg LineText.text h.current
    have hstart : lines.current.start = (lineOf state.current).start :=
      congrArg LineText.start h.current
    rw [lineOf_concat, hreserved, htext, hstart]

theorem pushSequence_singleton (lines : DecodedLines σ) (c : Char) (start stop : Nat) :
    lines.pushSequence runtime slots [c] start stop =
      lines.pushChar runtime slots c start stop := by
  rw [pushSequence, List.foldlM_cons]
  exact bind_return _

/-- A character is a step of the state. -/
theorem pushChar_yields (h : lines.Tracks state) :
    Yields (fun next => next.Tracks (state.push Spot.value spot))
      (lines.pushChar runtime slots spot.value spot.start spot.stop) := by
  unfold pushChar LineState.push
  cases hpending : state.pending with
  | false =>
    rw [h.pending, hpending]
    exact pushPlain_yields h hpending
  | true =>
    rw [h.pending, hpending]
    simp only [if_true]
    refine (finishLine_yields h).bind fun next hnext => ?_
    have hplain : DecodedLines.Tracks { next with pendingCr := false } state.finishLine :=
      ⟨hnext.current, rfl, hnext.lines⟩
    split
    · exact .ok hplain
    · exact pushPlain_yields hplain rfl

theorem checkpoint_yields (h : lines.Tracks state) (place : Nat) :
    Yields (fun next => next.Tracks state) (lines.checkpoint runtime place) := by
  unfold checkpoint
  split
  · refine Yields.map (.of_coreOnly (CoreOnly.mapError _) fun _ _ => trivial) fun world _ => ?_
    exact ⟨h.current, h.pending, h.lines⟩
  · exact .ok h

theorem pushSpots_yields (h : lines.Tracks state) (spots : List Spot) (place : Nat) :
    Yields (fun next => next.Tracks (spots.foldl (LineState.push Spot.value) state))
      (pushSpots runtime slots place spots lines) := by
  induction spots generalizing lines state place with
  | nil => exact .ok h
  | cons spot spots ih =>
    rw [List.foldl_cons, pushSpots]
    refine (checkpoint_yields h place).bind fun next hnext => ?_
    rw [pushSequence_singleton]
    refine (pushChar_yields hnext).bind fun pushed hpushed => ?_
    exact ih hpushed _

theorem finish_yields (h : lines.Tracks state) :
    Yields (fun done => done.1.items.map Line.content = state.finish.map lineOf)
      (lines.finish runtime slots) := by
  have hlast {lines : DecodedLines σ} {state : LineState Spot} (h : lines.Tracks state) :
      Yields (fun done => done.1.items.map Line.content = state.finishLine.lines.map lineOf)
        (lines.finishLine runtime slots >>= fun lines => .ok (lines.lines, lines.memory)) :=
    (finishLine_yields h).bind fun _ hnext => .ok hnext.lines
  unfold finish LineState.finish
  rw [h.pending]
  split
  · exact (finishLine_yields h).bind fun next hnext =>
      @hlast _ { state.finishLine with pending := state.pending } hnext
  · exact hlast h

end DecodedLines

/-- The lines of a decoded text are those of its characters. -/
theorem intoLines_yields {σ : Type} {runtime : Runtime σ} {slots : Slots} {decoded : DecodedText σ}
    {pieces : List Piece} (h : decoded.Holds pieces) :
    Yields (fun done =>
        done.1.items.map Line.content = (breakLines Spot.value (spotsOf pieces)).map lineOf)
      (decoded.intoLines runtime slots) := by
  have hmarks := marks_pieces [] pieces
  rw [List.nil_append, totalWidth_nil, ← h.text] at hmarks
  rw [DecodedText.intoLines, intoLinesFrom_eq runtime slots h.runs hmarks rfl, ← finish_foldl]
  exact (DecodedLines.pushSpots_yields (DecodedLines.tracks_new _) _ 0).bind
    fun lines hlines => DecodedLines.finish_yields hlines

end IntoMarkdown.Decoding
