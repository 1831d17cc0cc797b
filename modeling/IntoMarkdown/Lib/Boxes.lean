import Mathlib

/-! # Boxes of rows and columns

Two boxes meet where they share a slot. The hull of two is the least box around them. -/

namespace IntoMarkdown.Lib

structure Box where
  firstRow : Nat
  lastRow : Nat
  firstColumn : Nat
  lastColumn : Nat
  deriving DecidableEq, Repr

namespace Box

structure Proper (a : Box) : Prop where
  rows : a.firstRow ≤ a.lastRow
  columns : a.firstColumn ≤ a.lastColumn

def Meets (a b : Box) : Prop :=
  a.firstRow ≤ b.lastRow ∧ b.firstRow ≤ a.lastRow ∧ a.firstColumn ≤ b.lastColumn ∧
    b.firstColumn ≤ a.lastColumn

instance (a b : Box) : Decidable (a.Meets b) := inferInstanceAs (Decidable (_ ∧ _))

structure Within (a b : Box) : Prop where
  firstRow : b.firstRow ≤ a.firstRow
  lastRow : a.lastRow ≤ b.lastRow
  firstColumn : b.firstColumn ≤ a.firstColumn
  lastColumn : a.lastColumn ≤ b.lastColumn

instance (a b : Box) : Decidable (a.Within b) :=
  decidable_of_iff (b.firstRow ≤ a.firstRow ∧ a.lastRow ≤ b.lastRow ∧
    b.firstColumn ≤ a.firstColumn ∧ a.lastColumn ≤ b.lastColumn)
    ⟨fun h => ⟨h.1, h.2.1, h.2.2.1, h.2.2.2⟩, fun h => ⟨h.1, h.2, h.3, h.4⟩⟩

def hull (a b : Box) : Box where
  firstRow := min a.firstRow b.firstRow
  lastRow := max a.lastRow b.lastRow
  firstColumn := min a.firstColumn b.firstColumn
  lastColumn := max a.lastColumn b.lastColumn

/-- How many slots there are in a proper box. -/
def slots (a : Box) : Nat := (a.lastRow - a.firstRow + 1) * (a.lastColumn - a.firstColumn + 1)

variable {a b c d : Box}

theorem Meets.symm (h : a.Meets b) : b.Meets a := ⟨h.2.1, h.1, h.2.2.2, h.2.2.1⟩

@[refl] theorem Within.refl (a : Box) : a.Within a :=
  ⟨Nat.le_refl _, Nat.le_refl _, Nat.le_refl _, Nat.le_refl _⟩

theorem Within.trans (h : a.Within b) (h' : b.Within c) : a.Within c :=
  ⟨h'.1.trans h.1, h.2.trans h'.2, h'.3.trans h.3, h.4.trans h'.4⟩

theorem within_hull_left (a b : Box) : a.Within (a.hull b) :=
  ⟨Nat.min_le_left _ _, Nat.le_max_left _ _, Nat.min_le_left _ _, Nat.le_max_left _ _⟩

theorem within_hull_right (a b : Box) : b.Within (a.hull b) :=
  ⟨Nat.min_le_right _ _, Nat.le_max_right _ _, Nat.min_le_right _ _, Nat.le_max_right _ _⟩

theorem Proper.hull (ha : a.Proper) (_hb : b.Proper) : (a.hull b).Proper :=
  ⟨(Nat.min_le_left _ _).trans (ha.rows.trans (Nat.le_max_left _ _)),
    (Nat.min_le_left _ _).trans (ha.columns.trans (Nat.le_max_left _ _))⟩

theorem Meets.within (h : a.Meets b) (ha : a.Within c) (hb : b.Within d) : c.Meets d :=
  ⟨ha.1.trans (h.1.trans hb.2), hb.1.trans (h.2.1.trans ha.2), ha.3.trans (h.2.2.1.trans hb.4),
    hb.3.trans (h.2.2.2.trans ha.4)⟩

/-- Two boxes around a proper one meet. -/
theorem Proper.meets (h : a.Proper) (hb : a.Within b) (hc : a.Within c) : b.Meets c :=
  Meets.within (a := a) (b := a) ⟨h.rows, h.rows, h.columns, h.columns⟩ hb hc

/-- In boxes that are apart, what is in one is in no other. -/
theorem countP_within {boxes : List Box} (hproper : a.Proper)
    (hapart : boxes.Pairwise fun b c => ¬ b.Meets c) (h : ∃ b ∈ boxes, a.Within b) :
    boxes.countP (fun b => decide (a.Within b)) = 1 := by
  induction boxes with
  | nil =>
    obtain ⟨b, hb, -⟩ := h
    cases hb
  | cons b boxes ih =>
    obtain ⟨hhead, htail⟩ := List.pairwise_cons.mp hapart
    by_cases hb : a.Within b
    · have hnone : boxes.countP (fun b => decide (a.Within b)) = 0 := by
        rw [List.countP_eq_zero]
        intro c hc hwithin
        exact hhead c hc (hproper.meets hb (of_decide_eq_true hwithin))
      rw [List.countP_cons, hnone, if_pos (decide_eq_true hb)]
    · rw [List.countP_cons, if_neg (by simpa using hb)]
      refine ih htail ?_
      obtain ⟨c, hc, hwithin⟩ := h
      rcases List.mem_cons.mp hc with rfl | hc
      · exact absurd hwithin hb
      · exact ⟨c, hc, hwithin⟩

end Box

end IntoMarkdown.Lib
