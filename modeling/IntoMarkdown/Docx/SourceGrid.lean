import IntoMarkdown.Docx.Tables
import IntoMarkdown.Ir.Table

/-! # The grid that a table declares

Which source cell a slot belongs to: the one that covers it, or for a continuation that was
removed, the cell above in which the merge began. -/

namespace IntoMarkdown.Docx
open Lib Lib.Tiling Ir

section
variable {β : Type}

def Cell.width (cell : Cell β) : Nat := cell.columnSpan.toNat

/-- Cell `i` of row `r`, which begins at column `c`. -/
def Stands (rows : List (TableRow β)) (r i c : Nat) (cell : Cell β) : Prop :=
  ∃ before after, rows[r]? = some ⟨before ++ cell :: after⟩ ∧ before.length = i ∧
    (before.map Cell.width).sum = c

def declared (declarations : List (List VerticalMerge)) (r i : Nat) : VerticalMerge :=
  (declarations.getD r []).getD i .none

variable (visible : List β → Bool) (rows : List (TableRow β))
  (declarations : List (List VerticalMerge))

/-- The cell begins a merge, or continues without visible content the one of the cell above it
in the same columns; and the cell in which this merge began. -/
inductive Merges : Nat → Nat → Nat × Nat → Prop where
  | start {r i c : Nat} {cell : Cell β} (hcell : Stands rows r i c cell)
      (hrestart : declared declarations r i = .restart) : Merges r i (r, i)
  | next {r i j c : Nat} {cell above : Cell β} {key : Nat × Nat}
      (hcell : Stands rows (r + 1) i c cell)
      (hcontinues : declared declarations (r + 1) i = .continuation)
      (hblank : visible cell.blocks = false) (habove : Stands rows r j c above)
      (hwidth : above.columnSpan = cell.columnSpan) (hmerges : Merges r j key) :
      Merges (r + 1) i key

/-- A continuation that is not kept. -/
def Removed (r i : Nat) : Prop :=
  declared declarations r i = .continuation ∧ ∃ key, Merges visible rows declarations r i key

def Owner (r i : Nat) (key : Nat × Nat) : Prop :=
  (declared declarations r i = .continuation ∧ Merges visible rows declarations r i key) ∨
    (¬ Removed visible rows declarations r i ∧ key = (r, i))

/-- A cell of the result: which source cell it is, and the slots that it covers. -/
structure Piece (β : Type) where
  key : Nat × Nat
  rect : Rect
  source : Cell β

/-- Only the row span of the source cell is changed. -/
def Piece.cell (p : Piece β) : Cell β :=
  { p.source with rowSpan := UInt32.ofNat p.rect.height }

/-- The result read as a tiling of a grid of this width. -/
structure SourceGrid (out : List (TableRow β)) (W : Nat) (pieces : List (Piece β)) : Prop where
  cells : out.flatMap TableRow.cells = pieces.map Piece.cell
  placed : Places [] (itemsFrom 0 (extents out)) (pieces.map Piece.rect)
  tiles : Tiles rows.length W (pieces.map Piece.rect)
  sources : ∀ p ∈ pieces, Stands rows p.key.1 p.key.2 p.rect.column p.source
  owners : ∀ r i c cell, Stands rows r i c cell →
    ∃ p ∈ pieces, Owner visible rows declarations r i p.key ∧
      ∀ c', c ≤ c' → c' < c + Cell.width cell → p.rect.covers r c' = true
  kept : ∀ r i c cell, Stands rows r i c cell → visible cell.blocks = true →
    ∃ p ∈ pieces, p.key = (r, i)

end

end IntoMarkdown.Docx
