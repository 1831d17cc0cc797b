import IntoMarkdown.Sheet.Position

/-! # The runs of a worksheet

Coordinates that come in increasing order are kept as the maximal runs of each row. -/

namespace IntoMarkdown.Sheet

def SheetRun.coordinates (run : SheetRun) : List CellCoordinate :=
  (List.range' run.firstColumn (run.lastColumn + 1 - run.firstColumn)).map (run.row, ·)

/-- What the runs cover, in their order. -/
def populated (runs : List SheetRun) : List CellCoordinate := runs.flatMap SheetRun.coordinates

/-- A run covers as many cells as it counts, and one at least. -/
def SheetRun.Counted (run : SheetRun) : Prop :=
  run.firstColumn ≤ run.lastColumn ∧ run.firstColumn + run.occupiedCells = run.lastColumn + 1

/-- The second run does not go on where the first one ends. -/
def Apart (a b : SheetRun) : Prop := ¬ (a.row = b.row ∧ a.lastColumn + 1 = b.firstColumn)

/-- These are the maximal runs of increasing coordinates inside the grid. -/
structure MaximalRuns (runs : List SheetRun) (coordinates : List CellCoordinate) : Prop where
  covered : populated runs = coordinates
  increasing : coordinates.Pairwise before
  inside : ∀ coordinate ∈ coordinates, InGrid coordinate
  counted : ∀ run ∈ runs, run.Counted
  apart : runs.IsChain Apart

/-! ## Runs -/

@[simp] theorem populated_nil : populated [] = [] := rfl

theorem populated_append (front back : List SheetRun) :
    populated (front ++ back) = populated front ++ populated back := List.flatMap_append

theorem populated_singleton (run : SheetRun) : populated [run] = run.coordinates := by
  simp [populated]

theorem coordinates_single (row column : Nat) :
    SheetRun.coordinates ⟨row, column, column, 1⟩ = [(row, column)] := by
  simp [SheetRun.coordinates]

theorem SheetRun.mem_coordinates {run : SheetRun} {coordinate : CellCoordinate} :
    coordinate ∈ run.coordinates ↔
      coordinate.1 = run.row ∧ run.firstColumn ≤ coordinate.2 ∧ coordinate.2 ≤ run.lastColumn := by
  obtain ⟨row, column⟩ := coordinate
  simp only [coordinates, List.mem_map, List.mem_range'_1, Prod.mk.injEq]
  constructor
  · rintro ⟨c, hc, rfl, rfl⟩
    exact ⟨rfl, by omega⟩
  · rintro ⟨rfl, hc⟩
    exact ⟨column, by omega, rfl, rfl⟩

theorem SheetRun.Counted.last_mem {run : SheetRun} (h : run.Counted) :
    (run.row, run.lastColumn) ∈ run.coordinates :=
  SheetRun.mem_coordinates.mpr ⟨rfl, h.1, Nat.le_refl _⟩

/-- One more column. -/
theorem SheetRun.Counted.extend {run : SheetRun} (h : run.Counted) (occupied : Nat) :
    SheetRun.coordinates { run with lastColumn := run.lastColumn + 1, occupiedCells := occupied } =
      run.coordinates ++ [(run.row, run.lastColumn + 1)] := by
  obtain ⟨hle, -⟩ := h
  have hlength : run.lastColumn + 1 + 1 - run.firstColumn =
      (run.lastColumn + 1 - run.firstColumn) + 1 := by omega
  have hlast : run.firstColumn + (run.lastColumn + 1 - run.firstColumn) =
      run.lastColumn + 1 := by omega
  simp only [coordinates]
  rw [hlength, List.range'_1_concat, List.map_append, hlast, List.map_singleton]

/-! ## One more coordinate -/

theorem addToRuns_nil (coordinate : CellCoordinate) :
    addToRuns [] coordinate = [⟨coordinate.1, coordinate.2, coordinate.2, 1⟩] := rfl

theorem addToRuns_concat (front : List SheetRun) (last : SheetRun) (coordinate : CellCoordinate) :
    addToRuns (front ++ [last]) coordinate =
      if last.row = coordinate.1 ∧ last.lastColumn + 1 < 2 ^ 32 ∧
          last.lastColumn + 1 = coordinate.2 then
        front ++ [{ last with
          lastColumn := coordinate.2, occupiedCells := saturatingAdd 64 last.occupiedCells 1 }]
      else front ++ [last] ++ [⟨coordinate.1, coordinate.2, coordinate.2, 1⟩] := by
  rw [addToRuns, List.getLast?_concat, List.dropLast_concat]

theorem counted_single (row column : Nat) : SheetRun.Counted ⟨row, column, column, 1⟩ :=
  ⟨Nat.le_refl _, rfl⟩

namespace MaximalRuns
variable {runs : List SheetRun} {coordinates : List CellCoordinate} {coordinate : CellCoordinate}

theorem empty : MaximalRuns [] [] :=
  ⟨rfl, List.Pairwise.nil, List.forall_mem_nil _, List.forall_mem_nil _, List.isChain_nil⟩

/-- A coordinate after all those before goes on with the last run or begins one. -/
theorem add (h : MaximalRuns runs coordinates) (hin : InGrid coordinate)
    (hafter : ∀ earlier ∈ coordinates, before earlier coordinate) :
    MaximalRuns (addToRuns runs coordinate) (coordinates ++ [coordinate]) := by
  have hincreasing : (coordinates ++ [coordinate]).Pairwise before :=
    List.pairwise_append.mpr ⟨h.increasing, List.pairwise_singleton _ _, fun earlier hearlier c hc =>
      List.mem_singleton.mp hc ▸ hafter earlier hearlier⟩
  have hinside : ∀ c ∈ coordinates ++ [coordinate], InGrid c := by
    intro c hc
    rcases List.mem_append.mp hc with hc | hc
    · exact h.inside c hc
    · exact List.mem_singleton.mp hc ▸ hin
  rcases List.eq_nil_or_concat' runs with rfl | ⟨front, last, rfl⟩
  · refine ⟨?_, hincreasing, hinside, ?_, List.isChain_singleton _⟩
    · rw [addToRuns_nil, populated_singleton, coordinates_single, ← h.covered]
      rfl
    · exact List.forall_mem_singleton.mpr (counted_single _ _)
  · obtain ⟨hfront, hlast⟩ := List.forall_mem_append.mp h.counted
    have hlast := List.forall_mem_singleton.mp hlast
    have hcovered := h.covered
    rw [populated_append, populated_singleton] at hcovered
    have hgrid : last.lastColumn < maxExcelColumns :=
      (h.inside _ (hcovered ▸ List.mem_append_right _ hlast.last_mem)).2
    rw [addToRuns_concat]
    by_cases hnext : last.row = coordinate.1 ∧ last.lastColumn + 1 < 2 ^ 32 ∧
        last.lastColumn + 1 = coordinate.2
    · rw [if_pos hnext]
      obtain ⟨hrow, -, hcolumn⟩ := hnext
      have hcoordinate : coordinate = (last.row, last.lastColumn + 1) := by
        rw [hrow, hcolumn]
      have hcounted : last.firstColumn ≤ last.lastColumn ∧
        last.firstColumn + last.occupiedCells = last.lastColumn + 1 := hlast
      refine ⟨?_, hincreasing, hinside, ?_, ?_⟩
      · rw [populated_append, populated_singleton, ← hcolumn, hlast.extend, ← List.append_assoc,
          hcovered, hcoordinate]
      · refine List.forall_mem_append.mpr ⟨hfront, List.forall_mem_singleton.mpr ?_⟩
        -- the count stays far from where it would saturate
        have hsum : saturatingAdd 64 last.occupiedCells 1 = last.occupiedCells + 1 :=
          Nat.min_eq_left (by simp only [maxExcelColumns] at hgrid; omega)
        refine ⟨?_, ?_⟩
        · show last.firstColumn ≤ coordinate.2
          omega
        · show last.firstColumn + saturatingAdd 64 last.occupiedCells 1 = coordinate.2 + 1
          omega
      · have happart := h.apart
        rw [List.isChain_append] at happart ⊢
        exact ⟨happart.1, List.isChain_singleton _, fun a ha b hb =>
          Option.some.inj hb ▸ happart.2.2 a ha last rfl⟩
    · rw [if_neg hnext]
      refine ⟨?_, hincreasing, hinside, ?_, ?_⟩
      · rw [populated_append, populated_append, populated_singleton, populated_singleton,
          coordinates_single, hcovered]
      · exact List.forall_mem_append.mpr
          ⟨h.counted, List.forall_mem_singleton.mpr (counted_single _ _)⟩
      · refine List.isChain_append.mpr ⟨h.apart, List.isChain_singleton _, fun a ha b hb => ?_⟩
        obtain rfl : last = a := Option.some.inj ((List.getLast?_concat ..).symm.trans ha)
        obtain rfl := Option.some.inj hb
        rintro ⟨hrow, hcolumn⟩
        refine hnext ⟨hrow, ?_, hcolumn⟩
        simp only [maxExcelColumns] at hgrid
        omega

end MaximalRuns

end IntoMarkdown.Sheet
