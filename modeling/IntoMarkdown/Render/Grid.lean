import IntoMarkdown.Render.Table

/-! # The passes over a table agree

The renderer sweeps over a validated table as the validator did: it finds the same width,
puts every cell where it was placed, and stays within its plan. -/

namespace IntoMarkdown.Render
open Ir Lib Lib.Tiling Lib.Strings

section
variable {β : Type} {W r : Nat} {placed middle final : List Rect} {s s' : Sweep}
  {cells : List (Cell β)} {rows : List (TableRow β)} {counters : List Nat}

/-! ## Shape -/

theorem shapeCells_run (h : CellsRun W r placed s (cells.map Cell.extent) middle s')
    (hW : W ≤ maxTableColumns.toNat) :
    shapeCells cells s s.counters.length = .ok (s', s'.counters.length) := by
  induction cells generalizing placed s with
  | nil =>
    cases h
    rfl
  | cons cell cells ih =>
    rw [List.map_cons] at h
    cases h with
    | next hheight hwidth hin hfree hrest =>
      have hspan : ¬ cell.columnSpan.toNat = 0 := Nat.pos_iff_ne_zero.mp hwidth
      have hstop : ¬ maxTableColumns.toNat < s.start + cell.columnSpan.toNat :=
        Nat.not_lt.mpr (hin.trans hW)
      have hnext := ih hrest
      rw [Sweep.place, length_fill] at hnext
      simp only [shapeCells, refuse_of_not hspan, refuse_of_not hstop]
      exact hnext

theorem sweepCells_run (h : CellsRun W r placed s (cells.map Cell.extent) middle s') :
    sweepCells cells s = s' := by
  induction cells generalizing placed s with
  | nil =>
    cases h
    rfl
  | cons cell cells ih =>
    rw [List.map_cons] at h
    cases h with
    | next _ _ _ _ hrest => exact ih hrest

theorem shapeRows_run (h : RowsRun W r placed counters (extents rows) final)
    (hW : W ≤ maxTableColumns.toNat) (hlength : counters.length = W ∨ rows ≠ []) :
    shapeRows rows counters counters.length = .ok W := by
  induction rows generalizing r placed counters with
  | nil =>
    rcases hlength with hlength | hne
    · exact congrArg Except.ok hlength
    · exact absurd rfl hne
  | cons row rows ih =>
    rw [extents, List.map_cons] at h
    cases h with
    | @next _ _ _ _ _ sweep _ _ hcells hfit _ hrest =>
      have hnext : sweep.nextRow.counters.length = W := (List.length_map _).trans hfit
      have hshape := ih hrest (.inl hnext)
      rw [hnext] at hshape
      have hrow : shapeCells row.cells ⟨counters, 0⟩ counters.length = .ok (sweep, W) :=
        hfit ▸ shapeCells_run hcells hW
      simp only [shapeRows, hrow]
      exact hshape

theorem requiresHtml_run (h : RowsRun W r placed counters (extents rows) final) :
    requiresHtml W rows counters = rows.any fun row => row.cells.any spans := by
  induction rows generalizing r placed counters with
  | nil => rfl
  | cons row rows ih =>
    rw [extents, List.map_cons] at h
    cases h with
    | @next _ _ _ _ _ sweep _ _ hcells hfit hfull hrest =>
      have hnone : (List.range W).any (fun column => sweep.counters.getD column 0 = 0) = false := by
        refine List.any_eq_false.mpr fun column hcolumn hzero => ?_
        have hpos := pos_of_full hfull (hfit ▸ List.mem_range.mp hcolumn)
        have hzero' : sweep.counters.getD column 0 = 0 := by simpa using hzero
        omega
      simp only [requiresHtml, sweepCells_run hcells, hnone, ih hrest, Bool.or_false,
        List.any_cons]

theorem tableShape_run (h : RowsRun W 0 [] [] (extents rows) final) (hrows : rows ≠ [])
    (hW : W ≤ maxTableColumns.toNat) :
    tableShape rows = .ok ⟨W, firstHasHeader rows, rows.any fun row => row.cells.any spans⟩ := by
  have hshape := shapeRows_run h hW (.inr hrows)
  rw [List.length_nil] at hshape
  simp only [tableShape, hshape, bind, Except.bind, pure, Except.pure, requiresHtml_run h]

/-! ## The grid -/

/-- The state after a cell. -/
def GridRow.put (state : GridRow) (cell : Cell β) (value : Text × Nat) : GridRow :=
  ⟨state.rendered.set state.sweep.start value.1,
    state.sweep.place cell.extent.height cell.extent.width,
    state.actual.addCell value.1 value.2⟩

theorem gridCells_cons {renderCell : CellRenderer β} {cell : Cell β} {state : GridRow}
    (hin : state.sweep.start + cell.extent.width ≤ W) :
    gridCells renderCell W (cell :: cells) state =
      renderCell cell >>= fun value => gridCells renderCell W cells (state.put cell value) := by
  have hstop : ¬ W < state.sweep.start + cell.columnSpan.toNat := Nat.not_lt.mpr hin
  simp only [gridCells, refuse_of_not hstop]
  rfl

theorem gridCells_error {renderCell : CellRenderer β} {state : GridRow} {e : RenderError}
    (h : CellsRun W r placed state.sweep (cells.map Cell.extent) middle s')
    (herror : gridCells renderCell W cells state = .error e) :
    ∃ cell ∈ cells, renderCell cell = .error e := by
  induction cells generalizing placed state with
  | nil => cases herror
  | cons cell cells ih =>
    rw [List.map_cons] at h
    cases h with
    | next hheight hwidth hin hfree hrest =>
      rw [gridCells_cons hin] at herror
      rcases error_bind herror with hcell | ⟨value, hcell, hmore⟩
      · exact ⟨cell, List.mem_cons_self, hcell⟩
      · obtain ⟨cell', hmem, hcell'⟩ := @ih _ (state.put cell value) hrest hmore
        exact ⟨cell', List.mem_cons_of_mem _ hmem, hcell'⟩

theorem gridCells_sweep {renderCell : CellRenderer β} {state state' : GridRow}
    (h : CellsRun W r placed state.sweep (cells.map Cell.extent) middle s')
    (hok : gridCells renderCell W cells state = .ok state') : state'.sweep = s' := by
  induction cells generalizing placed state with
  | nil =>
    cases h
    rw [← Except.ok.inj hok]
  | cons cell cells ih =>
    rw [List.map_cons] at h
    cases h with
    | next hheight hwidth hin hfree hrest =>
      rw [gridCells_cons hin] at hok
      obtain ⟨value, -, hmore⟩ := ok_bind hok
      exact @ih _ (state.put cell value) hrest hmore

theorem gridRows_error {renderCell : CellRenderer β} {actual : TablePlanOwners} {e : RenderError}
    (h : RowsRun W r placed counters (extents rows) final)
    (herror : gridRows renderCell W rows counters actual = .error e) :
    ∃ row ∈ rows, ∃ cell ∈ row.cells, renderCell cell = .error e := by
  induction rows generalizing r placed counters actual with
  | nil => cases herror
  | cons row rows ih =>
    rw [extents, List.map_cons] at h
    cases h with
    | next hcells _ _ hrest =>
      rcases error_bind herror with hrow | ⟨state, hrow, hmore⟩
      · exact ⟨row, List.mem_cons_self, gridCells_error hcells hrow⟩
      · rw [gridCells_sweep hcells hrow] at hmore
        rcases error_bind hmore with hmore | ⟨rest, -, hpure⟩
        · obtain ⟨row', hmem, hcell⟩ := ih hrest hmore
          exact ⟨row', List.mem_cons_of_mem _ hmem, hcell⟩
        · cases hpure

theorem start_ge (s : Sweep) : s.column ≤ s.start := Nat.le_add_right _ _

/-- Every cell is where its rectangle starts, and the other slots are as before. -/
theorem gridCells_slots {renderCell : CellRenderer β} {state state' : GridRow}
    (h : CellsRun W r placed state.sweep (cells.map Cell.extent) middle s')
    (hlength : state.rendered.length = W) (hok : gridCells renderCell W cells state = .ok state') :
    state'.rendered.length = W ∧ ∃ more, middle = placed ++ more ∧
      List.Forall₂ (fun p cell => p.row = r ∧ state.sweep.column ≤ p.column ∧
        (p.height = cell.rowSpan.toNat ∧ p.width = cell.columnSpan.toNat) ∧
          ∃ value, renderCell cell = .ok value ∧ state'.rendered[p.column]? = some value.1)
        more cells ∧
      ∀ c, (∀ p ∈ more, p.column ≠ c) → state'.rendered[c]? = state.rendered[c]? := by
  induction cells generalizing placed state with
  | nil =>
    cases h
    obtain rfl := Except.ok.inj hok
    exact ⟨hlength, [], (List.append_nil _).symm, .nil, fun _ _ => rfl⟩
  | cons cell cells ih =>
    rw [List.map_cons] at h
    cases h with
    | next hheight hwidth hin hfree hrest =>
      rw [gridCells_cons hin] at hok
      obtain ⟨value, hvalue, hmore⟩ := ok_bind hok
      have hput : (state.put cell value).rendered.length = W := by
        simpa [GridRow.put] using hlength
      obtain ⟨hlength', more, rfl, hcells, hothers⟩ :=
        @ih _ (state.put cell value) hrest hput hmore
      have hlater : ∀ p ∈ more, state.sweep.start < p.column := by
        intro p hp
        obtain ⟨cell', -, -, hcolumn, -⟩ := exists_of_forall₂ hcells p hp
        have hstop : (state.put cell value).sweep.column =
            state.sweep.start + cell.extent.width := rfl
        omega
      refine ⟨hlength', _ :: more, List.append_assoc .., .cons ⟨rfl, start_ge _,
        ⟨rfl, rfl⟩, value, hvalue, ?_⟩ (hcells.imp ?_), fun c hc => ?_⟩
      · rw [hothers _ fun p hp heq => (hlater p hp).ne heq.symm]
        simp only [GridRow.put]
        rw [List.getElem?_set_self (by omega)]
      · rintro p cell' ⟨hrow, hcolumn, hvalue'⟩
        have hstart := start_ge state.sweep
        have hstop : (state.put cell value).sweep.column =
            state.sweep.start + cell.extent.width := rfl
        exact ⟨hrow, by omega, hvalue'⟩
      · obtain ⟨hne, hc⟩ := List.forall_mem_cons.mp hc
        rw [hothers c hc]
        exact List.getElem?_set_ne hne

/-- The slot of a grid. -/
def slot (grid : List (List Text)) (r c : Nat) : Option Text :=
  grid[r]?.bind fun row => row[c]?

theorem gridRows_slots {renderCell : CellRenderer β} {actual actual' : TablePlanOwners}
    {grid : List (List Text)} (h : RowsRun W r placed counters (extents rows) final)
    (hok : gridRows renderCell W rows counters actual = .ok (grid, actual')) :
    grid.length = rows.length ∧ (∀ row ∈ grid, row.length = W) ∧ ∃ more, final = placed ++ more ∧
      List.Forall₂ (fun p cell => r ≤ p.row ∧
        (p.height = cell.rowSpan.toNat ∧ p.width = cell.columnSpan.toNat) ∧
          ∃ value, renderCell cell = .ok value ∧ slot grid (p.row - r) p.column = some value.1)
        more (rows.flatMap TableRow.cells) ∧
      ∀ k < rows.length, ∀ c < W, (∀ p ∈ more, p.row = r + k → p.column ≠ c) →
        slot grid k c = some [] := by
  induction rows generalizing r placed counters actual grid with
  | nil =>
    cases h
    cases hok
    exact ⟨rfl, List.forall_mem_nil _, [], (List.append_nil _).symm, .nil,
      fun k hk => absurd hk (Nat.not_lt_zero k)⟩
  | cons row rows ih =>
    rw [extents, List.map_cons] at h
    cases h with
    | next hcells _ _ hrest =>
      obtain ⟨state, hrow, hmore⟩ := ok_bind hok
      rw [gridCells_sweep hcells hrow] at hmore
      obtain ⟨⟨rest, last⟩, hrows, hpure⟩ := ok_bind hmore
      cases hpure
      obtain ⟨hlength, hwidths, later, rfl, hlater, hempty⟩ := ih hrest hrows
      obtain ⟨hwidth, here, rfl, hhere, hothers⟩ :=
        gridCells_slots hcells (List.length_replicate ..) hrow
      refine ⟨congrArg (· + 1) hlength, List.forall_mem_cons.mpr ⟨hwidth, hwidths⟩,
        here ++ later, List.append_assoc .., ?_, fun k hk c hc hnone => ?_⟩
      · rw [List.flatMap_cons]
        refine List.rel_append (hhere.imp ?_) (hlater.imp ?_)
        · rintro p cell ⟨hprow, -, hsize, value, hvalue, hslot⟩
          refine ⟨hprow.ge, hsize, value, hvalue, ?_⟩
          rw [hprow, Nat.sub_self]
          exact hslot
        · rintro p cell ⟨hprow, hsize, value, hvalue, hslot⟩
          refine ⟨Nat.le_of_succ_le hprow, hsize, value, hvalue, ?_⟩
          rw [show p.row - r = p.row - (r + 1) + 1 by omega]
          exact hslot
      · rw [List.forall_mem_append] at hnone
        cases k with
        | zero =>
          have hrow' : ∀ p ∈ here, p.row = r := fun p hp =>
            (exists_of_forall₂ hhere p hp).elim fun _ h => h.2.1
          have hsame := hothers c fun p hp => hnone.1 p hp (hrow' p hp)
          rw [List.getElem?_replicate, if_pos hc] at hsame
          exact hsame
        | succ k =>
          refine hempty k (Nat.lt_of_succ_lt_succ hk) c hc fun p hp hprow => ?_
          exact hnone.2 p hp (hprow.trans (by omega))

end

end IntoMarkdown.Render
