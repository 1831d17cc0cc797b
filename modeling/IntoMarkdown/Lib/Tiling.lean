import Mathlib

/-! # Rectangles on a grid

Rectangles placed one after the other, each at the first free column of its row. A
sweep knows for every column how many rows from the current one are still taken. -/

namespace IntoMarkdown.Lib.Tiling

structure Rect where
  row : Nat
  column : Nat
  height : Nat
  width : Nat
  deriving DecidableEq, Repr

def Rect.covers (p : Rect) (r c : Nat) : Bool :=
  p.row ≤ r && r < p.row + p.height && p.column ≤ c && c < p.column + p.width

/-- How often a slot is covered. -/
def coverage (placed : List Rect) (r c : Nat) : Nat := placed.countP fun p => p.covers r c

/-- The first column of the row that nothing covers. -/
structure FirstFree (placed : List Rect) (r c : Nat) : Prop where
  free : coverage placed r c = 0
  least : ∀ c' < c, coverage placed r c' ≠ 0

/-- What is to be placed: a row, a height and a width. -/
structure Item where
  row : Nat
  height : Nat
  width : Nat

/-- Placing items in order, each at the first free column of its row. -/
inductive Places : List Rect → List Item → List Rect → Prop where
  | done (placed : List Rect) : Places placed [] placed
  | next {placed final : List Rect} {item : Item} {items : List Item} {c : Nat}
      (h : FirstFree placed item.row c)
      (hrest : Places (placed ++ [⟨item.row, c, item.height, item.width⟩]) items final) :
      Places placed (item :: items) final

/-- Every slot of the grid is covered once, and nothing leaves the grid. -/
structure Tiles (rows width : Nat) (placed : List Rect) : Prop where
  once : ∀ r < rows, ∀ c < width, coverage placed r c = 1
  within : ∀ p ∈ placed, p.row + p.height ≤ rows ∧ p.column + p.width ≤ width

theorem FirstFree.unique {placed : List Rect} {r c c' : Nat} (h : FirstFree placed r c)
    (h' : FirstFree placed r c') : c = c' := by
  rcases Nat.lt_trichotomy c c' with hlt | heq | hlt
  · exact absurd h.free (h'.least c hlt)
  · exact heq
  · exact absurd h'.free (h.least c' hlt)

theorem Places.append {placed middle final : List Rect} {items more : List Item}
    (h : Places placed items middle) (h' : Places middle more final) :
    Places placed (items ++ more) final := by
  induction h with
  | done placed => exact h'
  | next hfree _ ih => exact .next hfree (ih h')

theorem Places.prefixed {placed final : List Rect} {items : List Item}
    (h : Places placed items final) : placed <+: final := by
  induction h with
  | done placed => exact List.prefix_rfl
  | next hfree _ ih => exact (List.prefix_append ..).trans ih

theorem coverage_append (placed more : List Rect) (r c : Nat) :
    coverage (placed ++ more) r c = coverage placed r c + coverage more r c :=
  List.countP_append

theorem coverage_le {placed final : List Rect} (h : placed <+: final) (r c : Nat) :
    coverage placed r c ≤ coverage final r c := by
  obtain ⟨more, rfl⟩ := h
  rw [coverage_append]
  exact Nat.le_add_right _ _

theorem coverage_singleton (p : Rect) (r c : Nat) :
    coverage [p] r c = if p.covers r c then 1 else 0 := by
  by_cases h : p.covers r c
  · simp [coverage, h]
  · simp [coverage, h]

theorem coverage_cons (p : Rect) (placed : List Rect) (r c : Nat) :
    coverage (p :: placed) r c = (if p.covers r c then 1 else 0) + coverage placed r c := by
  rw [← coverage_singleton, ← coverage_append, List.singleton_append]

theorem covers_iff {p : Rect} {r c : Nat} :
    p.covers r c ↔
      p.row ≤ r ∧ r < p.row + p.height ∧ p.column ≤ c ∧ c < p.column + p.width := by
  simp [Rect.covers, and_assoc]

/-! ## Counters -/

/-- `fill` of the columns from `start` on, after the list was made long enough. -/
def fill (counters : List Nat) (start width value : Nat) : List Nat :=
  let long := counters ++ List.replicate (start + width - counters.length) 0
  long.take start ++ List.replicate width value ++ long.drop (start + width)

/-- The column that a search from `column` on ends at. -/
def skip (counters : List Nat) (column : Nat) : Nat :=
  column + ((counters.drop column).takeWhile (0 < ·)).length

theorem getD_fill (counters : List Nat) (start width value c : Nat) :
    (fill counters start width value).getD c 0 =
      if start ≤ c ∧ c < start + width then value else counters.getD c 0 := by
  have hlong : ∀ k, (counters ++ List.replicate (start + width - counters.length) 0).getD k 0 =
      counters.getD k 0 := by
    intro k
    rcases Nat.lt_or_ge k counters.length with hk | hk
    · rw [List.getD_append _ _ _ _ hk]
    · rw [List.getD_append_right _ _ _ _ hk, List.getD_eq_default counters 0 hk,
        List.getD_eq_getElem?_getD, List.getElem?_replicate]
      split <;> rfl
  have hlength : start + width ≤
      (counters ++ List.replicate (start + width - counters.length) 0).length := by
    rw [List.length_append, List.length_replicate]
    omega
  unfold fill
  revert hlong hlength
  generalize counters ++ List.replicate (start + width - counters.length) 0 = long
  intro hlong hlength
  have htake : (long.take start).length = start := List.length_take_of_le (by omega)
  have hfront : (long.take start ++ List.replicate width value).length = start + width := by
    rw [List.length_append, htake, List.length_replicate]
  rw [← hlong c]
  dsimp only
  rcases Nat.lt_or_ge c start with hc | hc
  · rw [if_neg (by omega), List.append_assoc, List.getD_append _ _ _ _ (by omega)]
    simp [List.getD_eq_getElem?_getD, hc]
  · rcases Nat.lt_or_ge c (start + width) with hend | hend
    · rw [if_pos ⟨hc, hend⟩, List.getD_append _ _ _ _ (by omega),
        List.getD_append_right _ _ _ _ (by omega), htake]
      simp [List.getD_eq_getElem?_getD, show c - start < width by omega]
    · rw [if_neg (by omega), List.getD_append_right _ _ _ _ (by omega), hfront]
      simp [List.getD_eq_getElem?_getD, List.getElem?_drop,
        show start + width + (c - (start + width)) = c by omega]

theorem length_fill (counters : List Nat) (start width value : Nat) :
    (fill counters start width value).length = max counters.length (start + width) := by
  simp only [fill, List.length_append, List.length_take, List.length_replicate,
    List.length_drop]
  omega

theorem skip_free (counters : List Nat) (column : Nat) :
    counters.getD (skip counters column) 0 = 0 := by
  have hdrop : ∀ l : List Nat, l.getD (l.takeWhile (0 < ·)).length 0 = 0 := by
    intro l
    induction l with
    | nil => rfl
    | cons n l ih =>
      by_cases hn : 0 < n
      · simpa [hn] using ih
      · simp [hn]
        omega
  have h := hdrop (counters.drop column)
  rwa [List.getD_eq_getElem?_getD, List.getElem?_drop, ← List.getD_eq_getElem?_getD] at h

theorem skip_taken (counters : List Nat) {column c : Nat} (h : column ≤ c)
    (hc : c < skip counters column) : 0 < counters.getD c 0 := by
  have hdrop : ∀ (l : List Nat) (k : Nat), k < (l.takeWhile (0 < ·)).length →
      0 < l.getD k 0 := by
    intro l k hk
    induction l generalizing k with
    | nil => cases hk
    | cons n l ih =>
      by_cases hn : 0 < n
      · cases k with
        | zero => simpa using hn
        | succ k =>
          simp [hn] at hk
          simpa using ih k hk
      · simp [hn] at hk
  unfold skip at hc
  have h' := hdrop (counters.drop column) (c - column) (by omega)
  rwa [List.getD_eq_getElem?_getD, List.getElem?_drop, ← List.getD_eq_getElem?_getD,
    Nat.add_sub_cancel' h] at h'

/-! ## Sweeps -/

structure Sweep where
  counters : List Nat
  column : Nat

namespace Sweep

def start (s : Sweep) : Nat := skip s.counters s.column

def place (s : Sweep) (height width : Nat) : Sweep :=
  ⟨fill s.counters s.start width height, s.start + width⟩

def nextRow (s : Sweep) : Sweep := ⟨s.counters.map (· - 1), 0⟩

/-- The counters tell what is covered from row `r` on, and every column passed in
this row is taken. -/
structure Knows (placed : List Rect) (r : Nat) (s : Sweep) : Prop where
  ahead : ∀ r' ≥ r, ∀ c, coverage placed r' c = if r' < r + s.counters.getD c 0 then 1 else 0
  passed : ∀ c < s.column, 0 < s.counters.getD c 0

theorem knows_start : Knows [] 0 ⟨[], 0⟩ where
  ahead r' _ c := by simp [coverage]
  passed c hc := absurd hc (Nat.not_lt_zero c)

section
variable {placed : List Rect} {r : Nat} {s : Sweep}

theorem Knows.firstFree (h : Knows placed r s) : FirstFree placed r s.start where
  free := by
    rw [h.ahead r le_rfl, if_neg]
    rw [start, skip_free]
    omega
  least c hc := by
    have htaken : 0 < s.counters.getD c 0 := by
      rcases Nat.lt_or_ge c s.column with hlt | hge
      · exact h.passed c hlt
      · exact skip_taken _ hge hc
    rw [h.ahead r le_rfl, if_pos (by omega)]
    exact Nat.one_ne_zero

theorem Knows.place (h : Knows placed r s) {height width : Nat} (hheight : 0 < height)
    (hfree : ∀ c, s.start ≤ c → c < s.start + width → s.counters.getD c 0 = 0) :
    Knows (placed ++ [⟨r, s.start, height, width⟩]) r (s.place height width) where
  ahead r' hr' c := by
    rw [coverage_append, coverage_singleton, h.ahead r' hr']
    simp only [Sweep.place, getD_fill, covers_iff]
    by_cases hc : s.start ≤ c ∧ c < s.start + width
    · rw [if_pos hc, hfree c hc.1 hc.2, if_neg (by omega)]
      by_cases hrow : r' < r + height
      · rw [if_pos ⟨hr', hrow, hc⟩, if_pos hrow]
      · rw [if_neg (fun hall => hrow hall.2.1), if_neg hrow]
    · rw [if_neg (c := _ ∧ _) (fun hall => hc hall.2.2), if_neg hc, Nat.add_zero]
  passed c hc := by
    simp only [Sweep.place, getD_fill] at hc ⊢
    by_cases hin : s.start ≤ c ∧ c < s.start + width
    · rw [if_pos hin]
      exact hheight
    · rw [if_neg hin]
      rcases Nat.lt_or_ge c s.column with hlt | hge
      · exact h.passed c hlt
      · exact skip_taken _ hge (by unfold start at *; omega)

theorem getD_map_pred (l : List Nat) (c : Nat) : (l.map (· - 1)).getD c 0 = l.getD c 0 - 1 := by
  simp only [List.getD_eq_getElem?_getD, List.getElem?_map]
  cases l[c]? <;> rfl

theorem Knows.nextRow (h : Knows placed r s) : Knows placed (r + 1) s.nextRow where
  ahead r' hr' c := by
    rw [h.ahead r' (by omega)]
    simp only [Sweep.nextRow, getD_map_pred]
    congr 1
    exact propext (by omega)
  passed c hc := absurd hc (Nat.not_lt_zero c)

theorem Knows.free_iff (h : Knows placed r s) (c : Nat) :
    coverage placed r c = 0 ↔ s.counters.getD c 0 = 0 := by
  rw [h.ahead r le_rfl]
  split <;> omega

end

end Sweep

/-! ## Runs over whole rows -/

structure Extent where
  height : Nat
  width : Nat
  deriving DecidableEq, Repr

def rowItems (r : Nat) (row : List Extent) : List Item :=
  row.map fun e => ⟨r, e.height, e.width⟩

def itemsFrom : Nat → List (List Extent) → List Item
  | _, [] => []
  | r, row :: rows => rowItems r row ++ itemsFrom (r + 1) rows

/-- The cells of row `r`, each put where the sweep stands, on free columns only. -/
inductive CellsRun (W r : Nat) :
    List Rect → Sweep → List Extent → List Rect → Sweep → Prop where
  | done (placed : List Rect) (s : Sweep) : CellsRun W r placed s [] placed s
  | next {placed middle : List Rect} {s s' : Sweep} {e : Extent} {row : List Extent}
      (hheight : 0 < e.height) (hwidth : 0 < e.width) (hin : s.start + e.width ≤ W)
      (hfree : ∀ c, s.start ≤ c → c < s.start + e.width → s.counters.getD c 0 = 0)
      (hrest : CellsRun W r (placed ++ [⟨r, s.start, e.height, e.width⟩])
        (s.place e.height e.width) row middle s') :
      CellsRun W r placed s (e :: row) middle s'

/-- Row after row, each full at its end, and nothing left over at the last. -/
inductive RowsRun (W : Nat) : Nat → List Rect → List Nat → List (List Extent) →
    List Rect → Prop where
  | done {r : Nat} {placed : List Rect} {counters : List Nat}
      (hover : ∀ c, counters.getD c 0 = 0) : RowsRun W r placed counters [] placed
  | next {r : Nat} {placed middle final : List Rect} {counters : List Nat} {s : Sweep}
      {row : List Extent} {rows : List (List Extent)}
      (hcells : CellsRun W r placed ⟨counters, 0⟩ row middle s)
      (hlength : s.counters.length = W) (hfull : 0 ∉ s.counters)
      (hrest : RowsRun W (r + 1) middle s.nextRow.counters rows final) :
      RowsRun W r placed counters (row :: rows) final

section
variable {W r : Nat} {placed middle final : List Rect} {s s' : Sweep} {row : List Extent}
  {rows : List (List Extent)} {counters : List Nat}

theorem CellsRun.knows (h : CellsRun W r placed s row middle s')
    (hknows : Sweep.Knows placed r s) : Sweep.Knows middle r s' := by
  induction h with
  | done placed s => exact hknows
  | next hheight _ _ hfree _ ih => exact ih (hknows.place hheight hfree)

theorem CellsRun.places (h : CellsRun W r placed s row middle s')
    (hknows : Sweep.Knows placed r s) : Places placed (rowItems r row) middle := by
  induction h with
  | done placed s => exact .done placed
  | next hheight _ _ hfree _ ih =>
    exact .next hknows.firstFree (ih (hknows.place hheight hfree))

theorem CellsRun.positive (h : CellsRun W r placed s row middle s') :
    ∀ e ∈ row, 0 < e.height ∧ 0 < e.width := by
  induction h with
  | done placed s => exact List.forall_mem_nil _
  | next hheight hwidth _ _ _ ih => exact List.forall_mem_cons.mpr ⟨⟨hheight, hwidth⟩, ih⟩

/-- What a row adds starts in that row and stays within the width. -/
theorem CellsRun.added (h : CellsRun W r placed s row middle s') :
    ∃ more, middle = placed ++ more ∧
      ∀ p ∈ more, p.row = r ∧ 0 < p.height ∧ 0 < p.width ∧ p.column + p.width ≤ W := by
  induction h with
  | done placed s => exact ⟨[], (List.append_nil _).symm, List.forall_mem_nil _⟩
  | next hheight hwidth hin _ _ ih =>
    obtain ⟨more, rfl, hmore⟩ := ih
    exact ⟨_ :: more, List.append_assoc .., List.forall_mem_cons.mpr
      ⟨⟨rfl, hheight, hwidth, hin⟩, hmore⟩⟩

theorem CellsRun.length_le (h : CellsRun W r placed s row middle s')
    (hlength : s.counters.length ≤ W) : s'.counters.length ≤ W := by
  induction h with
  | done placed s => exact hlength
  | next _ _ hin _ _ ih =>
    refine ih ?_
    rw [Sweep.place, length_fill]
    exact max_le hlength hin

theorem coverage_later {more : List Rect} {r : Nat} (h : ∀ p ∈ more, r < p.row) (c : Nat) :
    coverage more r c = 0 := by
  refine List.countP_eq_zero.mpr fun p hp => ?_
  have hlater := h p hp
  rw [covers_iff]
  omega

theorem coverage_pos {p : Rect} (h : p ∈ placed) {r c : Nat} (hcovers : p.covers r c) :
    0 < coverage placed r c :=
  List.countP_pos_iff.mpr ⟨p, h, hcovers⟩

theorem pos_of_full (hfull : 0 ∉ counters) {c : Nat} (hc : c < counters.length) :
    0 < counters.getD c 0 := by
  rw [List.getD_eq_getElem _ _ hc]
  exact Nat.pos_of_ne_zero fun hzero => hfull (hzero ▸ List.getElem_mem hc)

theorem full_of_pos (h : ∀ c < counters.length, 0 < counters.getD c 0) : 0 ∉ counters := by
  intro hmem
  obtain ⟨c, hc, hzero⟩ := List.getElem_of_mem hmem
  have hpos := h c hc
  rw [List.getD_eq_getElem _ _ hc, hzero] at hpos
  exact Nat.lt_irrefl 0 hpos

/-- What a run places: in row order, every row covered once, nothing below the last. -/
structure Placed (W r n : Nat) (placed final : List Rect) : Prop where
  added : ∃ more, final = placed ++ more ∧
    ∀ p ∈ more, r ≤ p.row ∧ 0 < p.height ∧ 0 < p.width ∧ p.column + p.width ≤ W
  once : ∀ r', r ≤ r' → r' < r + n → ∀ c < W, coverage final r' c = 1
  below : ∀ r' ≥ r + n, ∀ c, coverage final r' c = 0

theorem RowsRun.isPlaced (h : RowsRun W r placed counters rows final)
    (hknows : Sweep.Knows placed r ⟨counters, 0⟩) : Placed W r rows.length placed final := by
  induction h with
  | @done r placed counters hover =>
    refine ⟨⟨[], (List.append_nil _).symm, List.forall_mem_nil _⟩, ?_, fun r' hr' c => ?_⟩
    · intro r' hr' hlt
      exact absurd hlt (Nat.not_lt.mpr hr')
    · rw [hknows.ahead r' hr', hover c]
      exact if_neg (Nat.not_lt.mpr hr')
  | @next r placed middle final counters s row rows hcells hlength hfull _ ih =>
    have hmiddle := hcells.knows hknows
    obtain ⟨⟨more', rfl, hmore'⟩, honce, hover⟩ := ih hmiddle.nextRow
    obtain ⟨more, rfl, hmore⟩ := hcells.added
    rw [List.length_cons]
    refine ⟨⟨more ++ more', List.append_assoc .., ?_⟩, fun r' hr' hlt c hc => ?_,
      fun r' hr' => hover r' (by omega)⟩
    · intro p hp
      rcases List.mem_append.mp hp with hp | hp
      · obtain ⟨hrow, hrest⟩ := hmore p hp
        exact ⟨hrow.ge, hrest⟩
      · obtain ⟨hrow, hrest⟩ := hmore' p hp
        exact ⟨by omega, hrest⟩
    · rcases Nat.eq_or_lt_of_le hr' with rfl | hlater
      · have hrow : ∀ p ∈ more', r < p.row := fun p hp => (hmore' p hp).1
        have hpos := pos_of_full hfull (hlength ▸ hc)
        rw [coverage_append, coverage_later hrow, hmiddle.ahead r le_rfl, if_pos (by omega)]
      · exact honce r' hlater (by omega) c hc

theorem RowsRun.places (h : RowsRun W r placed counters rows final)
    (hknows : Sweep.Knows placed r ⟨counters, 0⟩) :
    Places placed (itemsFrom r rows) final := by
  induction h with
  | done hover => exact .done _
  | next hcells _ _ _ ih =>
    exact (hcells.places hknows).append (ih (hcells.knows hknows).nextRow)

theorem RowsRun.positive (h : RowsRun W r placed counters rows final) :
    ∀ row ∈ rows, ∀ e ∈ row, 0 < e.height ∧ 0 < e.width := by
  induction h with
  | done hover => exact List.forall_mem_nil _
  | next hcells _ _ _ ih => exact List.forall_mem_cons.mpr ⟨hcells.positive, ih⟩

theorem Placed.tiles {n : Nat} (h : Placed W 0 n [] final) : Tiles n W final where
  once r hr := h.once r (Nat.zero_le r) (by omega)
  within p hp := by
    obtain ⟨more, hfinal, hmore⟩ := h.added
    rw [List.nil_append] at hfinal
    obtain ⟨-, hheight, hwidth, hin⟩ := hmore p (hfinal ▸ hp)
    refine ⟨?_, hin⟩
    by_contra hbelow
    -- a slot of the last row that the rectangle covers
    have hcovers : p.covers (p.row + p.height - 1) p.column := covers_iff.mpr (by omega)
    have hpos := coverage_pos hp hcovers
    rw [h.below _ (by omega)] at hpos
    exact Nat.lt_irrefl 0 hpos

theorem Places.split {items more : List Item} (h : Places placed (items ++ more) final) :
    ∃ middle, Places placed items middle ∧ Places middle more final := by
  induction items generalizing placed with
  | nil => exact ⟨placed, .done placed, h⟩
  | cons item items ih =>
    cases h with
    | next hfree hrest =>
      obtain ⟨middle, hitems, hmore⟩ := ih hrest
      exact ⟨middle, .next hfree hitems, hmore⟩

theorem Places.inRows {items : List Item} (h : Places placed items final) :
    ∃ more, final = placed ++ more ∧ ∀ p ∈ more, ∃ item ∈ items, p.row = item.row := by
  induction h with
  | done placed => exact ⟨[], (List.append_nil _).symm, List.forall_mem_nil _⟩
  | @next placed final item items c hfree _ ih =>
    obtain ⟨more, rfl, hmore⟩ := ih
    refine ⟨_ :: more, List.append_assoc .., List.forall_mem_cons.mpr ⟨?_, fun p hp => ?_⟩⟩
    · exact ⟨item, List.mem_cons_self, rfl⟩
    · obtain ⟨item', hmem, hrow⟩ := hmore p hp
      exact ⟨item', List.mem_cons_of_mem _ hmem, hrow⟩

theorem row_le_of_mem_itemsFrom {rows : List (List Extent)} {r : Nat} {item : Item}
    (h : item ∈ itemsFrom r rows) : r ≤ item.row := by
  induction rows generalizing r with
  | nil => cases h
  | cons row rows ih =>
    rcases List.mem_append.mp h with h | h
    · obtain ⟨e, -, rfl⟩ := List.mem_map.mp h
      exact le_rfl
    · exact Nat.le_of_succ_le (ih h)

theorem Places.cellsRun (h : Places placed (rowItems r row) middle)
    (hknows : Sweep.Knows placed r s) (hpos : ∀ e ∈ row, 0 < e.height ∧ 0 < e.width)
    (hwithin : ∀ p ∈ middle, p.column + p.width ≤ W)
    (honce : ∀ c < W, coverage middle r c ≤ 1) :
    ∃ s', CellsRun W r placed s row middle s' := by
  induction row generalizing placed s with
  | nil =>
    cases h
    exact ⟨s, .done _ s⟩
  | cons e row ih =>
    obtain ⟨⟨hheight, hwidth⟩, hpos⟩ := List.forall_mem_cons.mp hpos
    cases h with
    | next hfirst hrest =>
      obtain rfl := hfirst.unique hknows.firstFree
      have hin := hwithin _ (hrest.prefixed.subset (List.mem_append_right _ List.mem_cons_self))
      have hfree : ∀ c, s.start ≤ c → c < s.start + e.width → s.counters.getD c 0 = 0 := by
        intro c hstart hend
        have hcovers : (Rect.mk r s.start e.height e.width).covers r c :=
          covers_iff.mpr (by dsimp only; omega)
        have hle := (coverage_le hrest.prefixed r c).trans
          (honce c (Nat.lt_of_lt_of_le hend hin))
        rw [coverage_append, coverage_singleton, if_pos hcovers] at hle
        exact (hknows.free_iff c).mp (by omega)
      obtain ⟨s', hrun⟩ := ih hrest (hknows.place hheight hfree) hpos
      exact ⟨s', .next hheight hwidth hin hfree hrun⟩

theorem Places.rowsRun (h : Places placed (itemsFrom r rows) final)
    (hknows : Sweep.Knows placed r ⟨counters, 0⟩)
    (hpos : ∀ row ∈ rows, ∀ e ∈ row, 0 < e.height ∧ 0 < e.width)
    (hlength : counters.length ≤ W)
    (hwithin : ∀ p ∈ final, p.row + p.height ≤ r + rows.length ∧ p.column + p.width ≤ W)
    (honce : ∀ r', r ≤ r' → r' < r + rows.length → ∀ c < W, coverage final r' c = 1) :
    RowsRun W r placed counters rows final := by
  induction rows generalizing r placed counters with
  | nil =>
    cases h
    refine .done fun c => (hknows.free_iff c).mp (List.countP_eq_zero.mpr fun p hp => ?_)
    have hrows := (hwithin p hp).1
    rw [List.length_nil] at hrows
    rw [covers_iff]
    omega
  | cons row rows ih =>
    obtain ⟨hrow, hpos⟩ := List.forall_mem_cons.mp hpos
    obtain ⟨middle, hcells, hrest⟩ := h.split
    have hmiddle : ∀ c, coverage final r c = coverage middle r c := by
      intro c
      obtain ⟨more, rfl, hmore⟩ := hrest.inRows
      have hlater : ∀ p ∈ more, r < p.row := fun p hp => by
        obtain ⟨item, hitem, hsame⟩ := hmore p hp
        exact hsame ▸ row_le_of_mem_itemsFrom hitem
      rw [coverage_append, coverage_later hlater, Nat.add_zero]
    rw [List.length_cons] at hwithin honce
    have hthis : ∀ c < W, coverage middle r c = 1 := fun c hc =>
      (hmiddle c).symm.trans (honce r le_rfl (by omega) c hc)
    obtain ⟨s, hrun⟩ := hcells.cellsRun hknows hrow
      (fun p hp => (hwithin p (hrest.prefixed.subset hp)).2) (fun c hc => (hthis c hc).le)
    have hs := hrun.knows hknows
    have htaken : ∀ c < W, 0 < s.counters.getD c 0 := fun c hc =>
      Nat.pos_of_ne_zero fun hzero => by
        have hnone := (hs.free_iff c).mpr hzero
        rw [hthis c hc] at hnone
        cases hnone
    have hfull : s.counters.length = W := by
      refine le_antisymm (hrun.length_le hlength) (Nat.le_of_not_lt fun hlt => ?_)
      have hpast := htaken _ hlt
      rw [List.getD_eq_default _ _ le_rfl] at hpast
      exact Nat.lt_irrefl 0 hpast
    refine .next hrun hfull (full_of_pos fun c hc => htaken c (hfull ▸ hc)) ?_
    refine ih hrest hs.nextRow hpos ?_ (fun p hp => ?_) fun r' hr' hlt => ?_
    · rw [Sweep.nextRow, List.length_map, hfull]
    · obtain ⟨hrows, hcolumns⟩ := hwithin p hp
      exact ⟨by omega, hcolumns⟩
    · exact honce r' (by omega) (by omega)

theorem rowsRun_iff : RowsRun W 0 [] [] rows final ↔
    Places [] (itemsFrom 0 rows) final ∧ Tiles rows.length W final ∧
      ∀ row ∈ rows, ∀ e ∈ row, 0 < e.height ∧ 0 < e.width := by
  constructor
  · intro h
    exact ⟨h.places Sweep.knows_start, (h.isPlaced Sweep.knows_start).tiles, h.positive⟩
  · rintro ⟨hplaces, htiles, hpos⟩
    refine hplaces.rowsRun Sweep.knows_start hpos (Nat.zero_le W) (fun p hp => ?_) ?_
    · obtain ⟨hrows, hcolumns⟩ := htiles.within p hp
      exact ⟨by omega, hcolumns⟩
    · intro r' _ hlt
      exact htiles.once r' (by omega)

/-- A sweep that starts with a zero for every column of the width is no different. -/
theorem RowsRun.replicate (h : RowsRun W 0 [] [] rows final) :
    RowsRun W 0 [] (List.replicate W 0) rows final := by
  obtain ⟨hplaces, htiles, hpos⟩ := rowsRun_iff.mp h
  have hknows : Sweep.Knows [] 0 ⟨List.replicate W 0, 0⟩ :=
    ⟨fun r' _ c => by simp [coverage], fun c hc => absurd hc (Nat.not_lt_zero c)⟩
  refine hplaces.rowsRun hknows hpos (List.length_replicate ..).le (fun p hp => ?_) ?_
  · obtain ⟨hrows, hcolumns⟩ := htiles.within p hp
    exact ⟨by omega, hcolumns⟩
  · intro r' _ hlt
    exact htiles.once r' (by omega)

/-! ## Corners -/

/-- Rectangles that tile a grid have different corners. -/
theorem Tiles.corners_nodup {n : Nat} (h : Tiles n W placed)
    (hpos : ∀ p ∈ placed, 0 < p.height ∧ 0 < p.width) :
    (placed.map fun p => (p.row, p.column)).Nodup := by
  refine List.nodup_iff_sublist.mpr fun corner hsub => ?_
  obtain ⟨twice, htwice, hmap⟩ := List.sublist_map_iff.mp hsub
  have hcorner : ∀ p ∈ twice, p.covers corner.1 corner.2 := by
    intro p hp
    have hmem : (p.row, p.column) ∈ [corner, corner] :=
      hmap ▸ List.mem_map_of_mem (f := fun p => (p.row, p.column)) hp
    have hsame : (p.row, p.column) = corner := by simpa using hmem
    have hsize := hpos p (htwice.subset hp)
    rw [← hsame]
    exact covers_iff.mpr (by omega)
  have hlength : twice.length = 2 := by simpa using congrArg List.length hmap.symm
  have hcount : coverage twice corner.1 corner.2 = 2 :=
    (List.countP_eq_length.mpr hcorner).trans hlength
  have hle : 2 ≤ coverage placed corner.1 corner.2 := hcount ▸ htwice.countP_le
  obtain ⟨p, hp⟩ : ∃ p, p ∈ twice := List.exists_mem_of_length_pos (by omega)
  have hinside := h.within p (htwice.subset hp)
  have hcovers := covers_iff.mp (hcorner p hp)
  have honce := h.once corner.1 (by omega) corner.2 (by omega)
  omega

/-- A slot that is no corner belongs to a rectangle of several slots. -/
theorem Tiles.spanned {n c : Nat} (h : Tiles n W placed) (hr : r < n) (hc : c < W)
    (hcorner : ∀ p ∈ placed, ¬ (p.row = r ∧ p.column = c)) :
    ∃ p ∈ placed, p.covers r c ∧ (1 < p.height ∨ 1 < p.width) := by
  have hpos : 0 < coverage placed r c := by
    rw [h.once r hr c hc]
    exact Nat.one_pos
  obtain ⟨p, hp, hcovers⟩ := List.countP_pos_iff.mp hpos
  have hne := hcorner p hp
  have hin := covers_iff.mp hcovers
  exact ⟨p, hp, hcovers, by omega⟩

end

/-! ## Reading order -/

/-- Row by row, and in a row from left to right. -/
def Rect.Precedes (p q : Rect) : Prop := p.row < q.row ∨ (p.row = q.row ∧ p.column < q.column)

def Rect.item (p : Rect) : Item := ⟨p.row, p.height, p.width⟩

theorem coverage_eq_zero {placed : List Rect} {r c : Nat} :
    coverage placed r c = 0 ↔ ∀ p ∈ placed, ¬ p.covers r c := List.countP_eq_zero

/-- In a tiling, the next rectangle in reading order is at the first free column. -/
theorem Tiles.firstFree {n W : Nat} {placed rest : List Rect} {p : Rect}
    (h : Tiles n W (placed ++ p :: rest)) (hpos : 0 < p.height ∧ 0 < p.width)
    (horder : ∀ q ∈ rest, p.Precedes q) : FirstFree placed p.row p.column := by
  obtain ⟨hrow, hcolumn⟩ := h.within p (List.mem_append_right _ List.mem_cons_self)
  constructor
  · have honce := h.once p.row (by omega) p.column (by omega)
    have hself : p.covers p.row p.column := covers_iff.mpr (by omega)
    rw [List.append_cons, coverage_append, coverage_append, coverage_singleton, if_pos hself]
      at honce
    omega
  · intro c hc
    have honce := h.once p.row (by omega) c (by omega)
    have hlater : coverage (p :: rest) p.row c = 0 := by
      refine coverage_eq_zero.mpr (List.forall_mem_cons.mpr ⟨fun hcovers => ?_, ?_⟩)
      · have := covers_iff.mp hcovers
        omega
      · intro q hq hcovers
        have := covers_iff.mp hcovers
        rcases horder q hq with hlt | ⟨heq, hlt⟩ <;> omega
    rw [coverage_append, hlater] at honce
    omega

theorem Tiles.placesFrom {n W : Nat} {placed rest : List Rect} (h : Tiles n W (placed ++ rest))
    (hpos : ∀ p ∈ rest, 0 < p.height ∧ 0 < p.width) (horder : rest.Pairwise Rect.Precedes) :
    Places placed (rest.map Rect.item) (placed ++ rest) := by
  induction rest generalizing placed with
  | nil =>
    rw [List.append_nil]
    exact .done placed
  | cons p rest ih =>
    obtain ⟨hp, hrest⟩ := List.forall_mem_cons.mp hpos
    obtain ⟨hfirst, horder⟩ := List.pairwise_cons.mp horder
    refine .next (h.firstFree hp hfirst) ?_
    rw [List.append_cons] at h
    have hplaces := ih h hrest horder
    rwa [← List.append_cons] at hplaces

/-- Rectangles that tile a grid, in reading order, are placed as they stand. -/
theorem Tiles.places {n W : Nat} {placed : List Rect} (h : Tiles n W placed)
    (hpos : ∀ p ∈ placed, 0 < p.height ∧ 0 < p.width) (horder : placed.Pairwise Rect.Precedes) :
    Places [] (placed.map Rect.item) placed :=
  Tiles.placesFrom h hpos horder

end IntoMarkdown.Lib.Tiling
