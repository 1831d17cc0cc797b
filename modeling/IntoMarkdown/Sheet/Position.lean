import IntoMarkdown.Sheet.Metadata

/-! # Places in a worksheet

What rows and cells say about their places, and what follows from those before them, counted
without bounds. -/

namespace IntoMarkdown.Sheet
open Lib Strings

/-- Inside the grid of a worksheet. -/
def InGrid (coordinate : CellCoordinate) : Prop :=
  coordinate.1 < maxExcelRows ∧ coordinate.2 < maxExcelColumns

instance (coordinate : CellCoordinate) : Decidable (InGrid coordinate) :=
  inferInstanceAs (Decidable (_ ∧ _))

theorem before_trans {a b c : CellCoordinate} (hab : before a b) (hbc : before b c) :
    before a c := by
  simp only [before] at *
  omega

/-- The first number after a last one. -/
def following (last : Option Nat) : Nat := last.elim 0 (· + 1)

@[simp] theorem following_none : following none = 0 := rfl

@[simp] theorem following_some (n : Nat) : following (some n) = n + 1 := rfl

/-- The tag of the worksheet's own namespace that an event starts, and whether it ends there. -/
def tagOf (depth : Nat) : Event → Option (Element × Bool)
  | .start element => if depth = 0 ∧ element.core then some (element, false) else none
  | .empty element => if depth = 0 ∧ element.core then some (element, true) else none
  | _ => none

/-- The last closed row, and the open row with the column of its last cell. -/
structure Position where
  opaqueDepth : Nat := 0
  closed : Option Nat := none
  current : Option (Nat × Option Nat) := none

section
variable (part : String)

/-- A place that is said, or else implied. -/
def placeOf {α : Type} (f : Text → Except ConversionError α) (implied : α)
    (given : Except ConversionError (Option Text)) : Option α :=
  match given with
  | .error _ => none
  | .ok none => some implied
  | .ok (some value) => (f value).toOption

/-- The row that a tag stands for: the one that it says, or the next one. -/
def rowOf (element : Element) (last : Option Nat) : Option Nat :=
  placeOf (rowIndex part) (following last) (attributeOf part element "r")

/-- The coordinate that a tag stands for: the one that it says, or the next one of the row. -/
def cellOf (element : Element) (row : Nat) (last : Option Nat) : Option CellCoordinate :=
  placeOf parseCellRef (row, following last) (attributeOf part element "r")

namespace Position

def tag (element : Element) (empty : Bool) (position : Position) : Position :=
  match element.name with
  | "row" =>
    if empty then { position with closed := rowOf part element position.closed }
    else { position with current := (rowOf part element position.closed).map (·, none) }
  | "c" =>
    { position with current := position.current.map fun current =>
        (current.1, (cellOf part element current.1 current.2).map Prod.snd) }
  | _ => position

def next (position : Position) : Event → Position
  | .start element =>
    if 0 < position.opaqueDepth ∨ element.core = false then
      { position with opaqueDepth := position.opaqueDepth + 1 }
    else position.tag part element false
  | .empty element =>
    if 0 < position.opaqueDepth ∨ element.core = false then position
    else position.tag part element true
  | .close name core =>
    if 0 < position.opaqueDepth then { position with opaqueDepth := position.opaqueDepth - 1 }
    else if core = true ∧ name = "row" then
      { position with closed := position.current.map Prod.fst, current := none }
    else position
  | _ => position

/-- The row that an event begins. -/
def rowAt (position : Position) (event : Event) : Option Nat :=
  (tagOf position.opaqueDepth event).bind fun tag =>
    if tag.1.name = "row" then rowOf part tag.1 position.closed else none

/-- The coordinate of the cell that an event begins. -/
def cellAt (position : Position) (event : Event) : Option CellCoordinate :=
  (tagOf position.opaqueDepth event).bind fun tag =>
    if tag.1.name = "c" then
      position.current.bind fun current => cellOf part tag.1 current.1 current.2
    else none

/-- What begins here is inside the grid. -/
def Inside (position : Position) (event : Event) : Prop :=
  (∀ row ∈ position.rowAt part event, row < maxExcelRows) ∧
    ∀ coordinate ∈ position.cellAt part event, InGrid coordinate

/-- What begins here has a place inside the grid, after what is before it. -/
def Advances (position : Position) (event : Event) : Prop :=
  ∀ element empty, tagOf position.opaqueDepth event = some (element, empty) →
    (element.name = "row" → ∃ row, rowOf part element position.closed = some row ∧
      row < maxExcelRows ∧ ∀ last ∈ position.closed, last < row) ∧
    (element.name = "c" → ∀ row last, position.current = some (row, last) →
      ∃ column, cellOf part element row last = some (row, column) ∧
        InGrid (row, column) ∧ ∀ earlier ∈ last, earlier < column)

end Position

/-- Where a stream stands after some events. -/
def positionAfter (events : List Event) : Position := events.foldl (Position.next part) {}

@[simp] theorem positionAfter_nil : positionAfter part [] = {} := rfl

theorem positionAfter_snoc (events : List Event) (event : Event) :
    positionAfter part (events ++ [event]) = (positionAfter part events).next part event :=
  List.foldl_concat ..

/-- Every row and every cell of a stream is inside the grid. -/
def InsideGrid (events : List Event) : Prop :=
  ∀ front event, front ++ [event] <+: events → (positionAfter part front).Inside part event

/-- Rows and cells of a stream are in increasing order inside the grid. -/
def Increasing (events : List Event) : Prop :=
  ∀ front event, front ++ [event] <+: events → (positionAfter part front).Advances part event

variable {part}

theorem Position.Advances.inside {position : Position} {event : Event}
    (h : position.Advances part event) : position.Inside part event := by
  constructor
  · intro row hrow
    obtain ⟨⟨element, empty⟩, htag, hrow⟩ := Option.bind_eq_some_iff.mp hrow
    split at hrow
    · rename_i hname
      obtain ⟨row', hrow', hlt, -⟩ := (h element empty htag).1 hname
      obtain rfl := Option.some.inj (hrow'.symm.trans hrow)
      exact hlt
    · cases hrow
  · intro coordinate hcell
    obtain ⟨⟨element, empty⟩, htag, hcell⟩ := Option.bind_eq_some_iff.mp hcell
    split at hcell
    · rename_i hname
      obtain ⟨⟨row, last⟩, hcurrent, hcell⟩ := Option.bind_eq_some_iff.mp hcell
      obtain ⟨column, hcell', hin, -⟩ := (h element empty htag).2 hname row last hcurrent
      obtain rfl := Option.some.inj (hcell'.symm.trans hcell)
      exact hin
    · cases hcell

theorem Increasing.insideGrid {events : List Event} (h : Increasing part events) :
    InsideGrid part events :=
  fun front event hprefix => (h front event hprefix).inside

theorem parseCellRef_inGrid {value : Text} {coordinate : CellCoordinate}
    (h : parseCellRef value = .ok coordinate) : InGrid coordinate := by
  rw [parseCellRef] at h
  obtain ⟨-, h⟩ := refuse_bind_ok.mp h
  obtain ⟨-, h⟩ := refuse_bind_ok.mp h
  obtain ⟨column, -, h⟩ := ok_bind h
  split at h
  · cases h
  · obtain ⟨hrange, h⟩ := refuse_bind_ok.mp h
    obtain rfl := Except.ok.inj h
    simp only [InGrid]
    omega

end

end IntoMarkdown.Sheet
