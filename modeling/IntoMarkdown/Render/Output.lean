import IntoMarkdown.Render.Grid

/-! # The plan of a table is kept

What the grid holds was counted cell by cell, every string is as long as it was measured
beforehand, and the whole stays below the plan. -/

namespace IntoMarkdown.Render
open Ir Lib Lib.Tiling Lib.Strings

/-! ## Strings of a known length -/

def cellsText (cells : List Text) : Text := cells.flatMap fun cell => ' ' :: cell ++ [' ', '|']

def rowText (cells : List Text) (newline : Bool) : Text :=
  '|' :: cellsText cells ++ if newline then ['\n'] else []

def rowsText : List (List Text) → Text
  | [] => []
  | row :: rows => rowText row (!rows.isEmpty) ++ rowsText rows

/-- The bytes of the strings of a row. -/
def rowBytes (cells : List Text) : Nat := (cells.map byteLength).sum

def gridBytes (grid : List (List Text)) : Nat := (grid.map rowBytes).sum

section
variable {cells : List Text} {rows : List (List Text)} {s : ExactString} {value : Text}
  {newline : Bool}

theorem byteLength_cellsText :
    byteLength (cellsText cells) = 3 * cells.length + rowBytes cells := by
  induction cells with
  | nil => rfl
  | cons cell cells ih =>
    have hcell : byteLength (' ' :: cell ++ [' ', '|']) = 3 + byteLength cell := by
      rw [List.cons_append, byteLength_cons, byteLength_append]
      exact (Nat.add_left_comm _ _ 2).trans (by rw [Nat.add_comm]; rfl)
    have hsum : rowBytes (cell :: cells) = byteLength cell + rowBytes cells := rfl
    rw [cellsText, List.flatMap_cons, byteLength_append, hcell, ← cellsText, ih, hsum,
      List.length_cons]
    omega

theorem tableRowLength_eq : tableRowLength cells = 2 + 3 * cells.length + rowBytes cells := by
  have hfrom : ∀ n, cells.foldl (fun length cell => length + 3 + byteLength cell) n =
      n + 3 * cells.length + rowBytes cells := by
    induction cells with
    | nil => exact fun n => rfl
    | cons cell cells ih =>
      intro n
      have hsum : rowBytes (cell :: cells) = byteLength cell + rowBytes cells := rfl
      rw [List.foldl_cons, ih, hsum, List.length_cons]
      omega
  exact hfrom 2

theorem rowText_eq : rowText cells newline =
    ['|'] ++ (cellsText cells ++ if newline then ['\n'] else []) := rfl

/-- A row that does not end its line is one byte short of its length. -/
theorem byteLength_rowText (cells : List Text) (newline : Bool) :
    byteLength (rowText cells newline) + (if newline then 0 else 1) = tableRowLength cells := by
  have hbar : byteLength ['|'] = 1 := rfl
  have hfeed : byteLength ['\n'] = 1 := rfl
  rw [tableRowLength_eq, rowText_eq, byteLength_append, byteLength_append, byteLength_cellsText,
    hbar]
  cases newline with
  | false =>
    simp only [Bool.false_eq_true, if_false, byteLength_nil]
    omega
  | true =>
    simp only [if_true, hfeed]
    omega

theorem byteLength_rowsText (rows : List (List Text)) :
    byteLength (rowsText rows) + (if rows = [] then 0 else 1) = (rows.map tableRowLength).sum := by
  induction rows with
  | nil => rfl
  | cons row rows ih =>
    have hrow : byteLength (rowText row (!rows.isEmpty)) + (if rows = [] then 1 else 0) =
        tableRowLength row := by
      rw [← byteLength_rowText row (!rows.isEmpty)]
      cases rows <;> rfl
    rw [rowsText, byteLength_append, List.map_cons, List.sum_cons, ← ih, ← hrow, if_neg (by simp)]
    split <;> omega

theorem pushStr_ok (h : byteLength s.text + byteLength value ≤ s.capacity) :
    s.pushStr value = .ok ⟨s.capacity, s.text ++ value⟩ := by
  rw [ExactString.pushStr, refuse_of_not (Nat.not_lt.mpr h)]
  rfl

theorem writeCells_ok (h : byteLength s.text + byteLength (cellsText cells) ≤ s.capacity) :
    writeCells cells s = .ok ⟨s.capacity, s.text ++ cellsText cells⟩ := by
  induction cells generalizing s with
  | nil => rw [writeCells, cellsText, List.flatMap_nil, List.append_nil]
  | cons cell cells ih =>
    have hsplit : cellsText (cell :: cells) = [' '] ++ (cell ++ ([' ', '|'] ++ cellsText cells)) := by
      simp [cellsText]
    rw [hsplit] at h ⊢
    simp only [byteLength_append] at h
    simp only [writeCells, bind, Except.bind]
    rw [pushStr_ok (by omega)]
    dsimp only
    rw [pushStr_ok (by dsimp only; rw [byteLength_append]; omega)]
    dsimp only
    rw [pushStr_ok (by dsimp only; simp only [byteLength_append]; omega)]
    dsimp only
    rw [ih (by dsimp only; simp only [byteLength_append]; omega)]
    simp only [List.append_assoc]

theorem writeExactTableRow_ok
    (h : byteLength s.text + byteLength (rowText cells newline) ≤ s.capacity) :
    writeExactTableRow s cells newline = .ok ⟨s.capacity, s.text ++ rowText cells newline⟩ := by
  rw [rowText_eq, byteLength_append, byteLength_append] at h
  rw [rowText_eq]
  simp only [writeExactTableRow, bind, Except.bind]
  rw [pushStr_ok (by omega)]
  dsimp only
  rw [writeCells_ok (by dsimp only; rw [byteLength_append]; omega)]
  cases newline with
  | false => simp only [Bool.false_eq_true, if_false, List.append_nil, List.append_assoc]
  | true =>
    simp only [if_true] at h ⊢
    rw [pushStr_ok (by dsimp only; simp only [byteLength_append]; omega)]
    simp only [List.append_assoc]

theorem writeRows_ok (h : byteLength s.text + byteLength (rowsText rows) ≤ s.capacity) :
    writeRows rows s = .ok ⟨s.capacity, s.text ++ rowsText rows⟩ := by
  induction rows generalizing s with
  | nil => rw [writeRows, rowsText, List.append_nil]
  | cons row rows ih =>
    rw [rowsText, byteLength_append] at h
    simp only [writeRows, bind, Except.bind]
    rw [writeExactTableRow_ok (by omega)]
    dsimp only
    rw [ih (by dsimp only; rw [byteLength_append]; omega)]
    simp only [rowsText, List.append_assoc]

end

/-! ## What was counted -/

/-- The owners without what cells add to. -/
def TablePlanOwners.fixed (owners : TablePlanOwners) : TablePlanOwners :=
  { owners with cellStrings := 0, cellBlockJoins := 0 }

theorem rowBytes_set (cells : List Text) (column : Nat) (value : Text) :
    rowBytes (cells.set column value) ≤ rowBytes cells + byteLength value := by
  induction cells generalizing column with
  | nil => exact Nat.zero_le _
  | cons cell cells ih =>
    cases column with
    | zero =>
      simp only [List.set_cons_zero, rowBytes, List.map_cons, List.sum_cons]
      omega
    | succ column =>
      have hrest := ih column
      simp only [List.set_cons_succ, rowBytes, List.map_cons, List.sum_cons] at hrest ⊢
      omega

theorem rowBytes_replicate (n : Nat) : rowBytes (List.replicate n []) = 0 := by
  simp [rowBytes]

section
variable {β : Type} {renderCell : CellRenderer β} {W : Nat} {cells : List (Cell β)}
  {rows : List (TableRow β)} {counters : List Nat} {actual actual' : TablePlanOwners}

theorem gridCells_counted {state state' : GridRow}
    (hok : gridCells renderCell W cells state = .ok state') :
    state'.actual.fixed = state.actual.fixed ∧
      rowBytes state'.rendered + state.actual.cellStrings ≤
        rowBytes state.rendered + state'.actual.cellStrings := by
  induction cells generalizing state with
  | nil =>
    obtain rfl := Except.ok.inj hok
    exact ⟨rfl, le_rfl⟩
  | cons cell cells ih =>
    obtain ⟨-, -, hok⟩ := ok_bind hok
    obtain ⟨value, -, hok⟩ := ok_bind hok
    obtain ⟨hfixed, hbytes⟩ := ih hok
    have hset := rowBytes_set state.rendered state.sweep.start value.1
    have hadd : (state.actual.addCell value.1 value.2).cellStrings =
        state.actual.cellStrings + byteLength value.1 := rfl
    refine ⟨hfixed, ?_⟩
    dsimp only at hbytes
    omega

theorem gridRows_counted {grid : List (List Text)}
    (hok : gridRows renderCell W rows counters actual = .ok (grid, actual')) :
    actual'.fixed = { actual.fixed with
        gridSlots := actual.gridSlots + rows.length * (W * stringBytes) } ∧
      gridBytes grid + actual.cellStrings ≤ actual'.cellStrings := by
  induction rows generalizing counters actual grid with
  | nil =>
    cases hok
    refine ⟨?_, (Nat.zero_add _).le⟩
    rw [List.length_nil, Nat.zero_mul, Nat.add_zero]
    rfl
  | cons row rows ih =>
    obtain ⟨state, hrow, hok⟩ := ok_bind hok
    obtain ⟨⟨rest, last⟩, hrows, hpure⟩ := ok_bind hok
    cases hpure
    obtain ⟨hfixed, hbytes⟩ := gridCells_counted hrow
    obtain ⟨hfixed', hbytes'⟩ := ih hrows
    have hslots : state.actual.gridSlots = actual.gridSlots + W * stringBytes :=
      congrArg TablePlanOwners.gridSlots hfixed
    have hsum : gridBytes (state.rendered :: rest) = rowBytes state.rendered + gridBytes rest := rfl
    rw [rowBytes_replicate] at hbytes
    dsimp only at hbytes hbytes' ⊢
    refine ⟨?_, by omega⟩
    rw [hfixed', hfixed, hslots, List.length_cons, Nat.succ_mul]
    simp only [TablePlanOwners.fixed, TablePlanOwners.mk.injEq, true_and, and_true]
    omega

theorem tableGrid_counted {grid : List (List Text)}
    (hok : tableGrid renderCell rows W = .ok (grid, actual)) :
    actual.occupancy = W * counterBytes ∧ actual.gridRows = rows.length * vecBytes ∧
      actual.gridSlots = rows.length * W * stringBytes ∧ gridBytes grid ≤ actual.cellStrings := by
  obtain ⟨hfixed, hbytes⟩ := gridRows_counted hok
  have hslots : actual.gridSlots = 0 + rows.length * (W * stringBytes) :=
    congrArg TablePlanOwners.gridSlots hfixed
  refine ⟨congrArg TablePlanOwners.occupancy hfixed, congrArg TablePlanOwners.gridRows hfixed, ?_,
    hbytes⟩
  rw [hslots, Nat.zero_add, Nat.mul_assoc]

end

/-! ## Within the plan -/

theorem verifyWithin_ok {actual planned : TablePlanOwners}
    (hoccupancy : actual.occupancy ≤ planned.occupancy)
    (hgridRows : actual.gridRows ≤ planned.gridRows)
    (hgridSlots : actual.gridSlots ≤ planned.gridSlots)
    (hfallback : actual.fallbackHeader ≤ planned.fallbackHeader)
    (hslots : actual.separatorSlots ≤ planned.separatorSlots)
    (hseparators : actual.separatorStrings ≤ planned.separatorStrings)
    (hstrings : actual.cellStrings ≤ planned.cellStrings)
    (hjoins : actual.cellBlockJoins ≤ planned.cellBlockJoins)
    (houtput : actual.output ≤ planned.output) : actual.verifyWithin planned = .ok () := by
  have hwithin : ∀ {owner : String} {n bound : Nat}, n ≤ bound →
      TablePlanOwners.within owner n bound = .ok () := fun h => refuse_of_not (Nat.not_lt.mpr h)
  simp only [TablePlanOwners.verifyWithin, hwithin hoccupancy, hwithin hgridRows,
    hwithin hgridSlots, hwithin hfallback, hwithin hslots, hwithin hseparators, hwithin hstrings,
    hwithin hjoins, hwithin houtput]
  rfl

section
variable {W : Nat} {alignments : List TableAlignment}

theorem byteLength_separatorText (alignment : TableAlignment) :
    byteLength (separatorText alignment) ≤ 5 := by
  cases alignment <;> decide

theorem length_exactSeparators : (exactSeparators W alignments).length = W := by
  simp [exactSeparators]

theorem rowBytes_exactSeparators (W : Nat) (alignments : List TableAlignment) :
    rowBytes (exactSeparators W alignments) ≤ W * 5 := by
  have hle := List.sum_le_card_nsmul ((exactSeparators W alignments).map byteLength) 5 fun n hn => by
    obtain ⟨separator, hseparator, rfl⟩ := List.mem_map.mp hn
    obtain ⟨column, -, rfl⟩ := List.mem_map.mp hseparator
    exact byteLength_separatorText _
  rwa [List.length_map, length_exactSeparators, smul_eq_mul] at hle

theorem tableRowLength_grid {grid : List (List Text)} (h : ∀ row ∈ grid, row.length = W) :
    (grid.map tableRowLength).sum = grid.length * (2 + 3 * W) + gridBytes grid := by
  induction grid with
  | nil => simp [gridBytes]
  | cons row grid ih =>
    obtain ⟨hrow, hgrid⟩ := List.forall_mem_cons.mp h
    have hsum : gridBytes (row :: grid) = rowBytes row + gridBytes grid := rfl
    have hmul : (grid.length + 1) * (2 + 3 * W) = grid.length * (2 + 3 * W) + (2 + 3 * W) :=
      Nat.succ_mul _ _
    rw [List.map_cons, List.sum_cons, ih hgrid, tableRowLength_eq, hrow, hsum, List.length_cons,
      hmul]
    omega

end

/-! ## The pipe table -/

def pipeText (header separators : List Text) (body : List (List Text)) : Text :=
  rowText header true ++ rowText separators (!body.isEmpty) ++ rowsText body

section
variable {header separators : List Text} {body : List (List Text)}

theorem byteLength_pipeText (header separators : List Text) (body : List (List Text)) :
    byteLength (pipeText header separators body) + 1 =
      tableRowLength header + tableRowLength separators + (body.map tableRowLength).sum := by
  have hheader : byteLength (rowText header true) = tableRowLength header :=
    byteLength_rowText header true
  have hbody := byteLength_rowsText body
  have hseparators := byteLength_rowText separators (!body.isEmpty)
  rw [pipeText, byteLength_append, byteLength_append]
  cases body with
  | nil =>
    simp only [List.isEmpty_nil, Bool.not_true, Bool.false_eq_true, if_false, if_true] at *
    omega
  | cons row body =>
    simp only [List.isEmpty_cons, Bool.not_false, if_true, reduceCtorEq, if_false] at *
    omega

theorem finish_ok {s : ExactString} (h : byteLength s.text = s.capacity) :
    s.finish = .ok s.text := by
  rw [ExactString.finish, refuse_of_not (not_not.mpr h)]
  rfl

theorem writePipe_ok {capacity : Nat}
    (h : byteLength (pipeText header separators body) = capacity) :
    (do
      let output ← writeExactTableRow ⟨capacity, []⟩ header true
      let output ← writeExactTableRow output separators (!body.isEmpty)
      let output ← writeRows body output
      output.finish) = .ok (pipeText header separators body) := by
  have hparts := h
  rw [pipeText, byteLength_append, byteLength_append] at hparts
  simp only [bind, Except.bind]
  rw [writeExactTableRow_ok (by dsimp only; rw [byteLength_nil]; omega)]
  dsimp only
  rw [writeExactTableRow_ok (by dsimp only; rw [List.nil_append]; omega)]
  dsimp only
  rw [writeRows_ok (by dsimp only; rw [List.nil_append, byteLength_append]; omega)]
  dsimp only
  rw [List.nil_append]
  exact finish_ok h

variable {β : Type} {renderCell : CellRenderer β} {W : Nat} {rows : List (TableRow β)}
  {alignments : List TableAlignment} {shape : Shape} {grid : List (List Text)}
  {actual : TablePlanOwners}

/-- The header and the body of a table. -/
def headerRow (shape : Shape) (grid : List (List Text)) : List Text :=
  if shape.firstHasHeader then grid.headD [] else List.replicate shape.width []

def bodyRows (shape : Shape) (grid : List (List Text)) : List (List Text) :=
  if shape.firstHasHeader then grid.tail else grid

theorem headerBody_length (hwidths : ∀ row ∈ grid, row.length = shape.width)
    (hheader : shape.firstHasHeader → grid ≠ []) :
    tableRowLength (headerRow shape grid) + ((bodyRows shape grid).map tableRowLength).sum ≤
      (grid.length + 1) * (2 + 3 * shape.width) + gridBytes grid := by
  have hgrid := tableRowLength_grid hwidths
  rw [Nat.succ_mul]
  cases hfirst : shape.firstHasHeader with
  | false =>
    simp only [headerRow, bodyRows, hfirst, Bool.false_eq_true, if_false]
    rw [tableRowLength_eq, List.length_replicate, rowBytes_replicate, hgrid]
    omega
  | true =>
    simp only [headerRow, bodyRows, hfirst, if_true]
    obtain ⟨row, grid, rfl⟩ := List.exists_cons_of_ne_nil (hheader hfirst)
    rw [List.map_cons, List.sum_cons] at hgrid
    rw [List.headD_cons, List.tail_cons, hgrid]
    omega

/-- The plan has room for two rows more than the table has. -/
theorem pipe_output_le {bytes strings joins : Nat} {firstHasHeader : Bool}
    (h : bytes ≤ (rows.length + 2) * (2 + 3 * W) + strings + W * 5) :
    bytes ≤ (tablePlanOwners rows W firstHasHeader strings joins).output := by
  have hmul : (rows.length + 2) * (2 + 3 * W) =
      (rows.length + 2) * 2 + 3 * ((rows.length + 2) * W) := by ring
  simp only [tablePlanOwners]
  omega

theorem pipeTable_ok (alignments : List TableAlignment)
    (hok : tableGrid renderCell rows shape.width = .ok (grid, actual))
    (hlength : grid.length = rows.length) (hwidths : ∀ row ∈ grid, row.length = shape.width)
    (hheader : shape.firstHasHeader → grid ≠ []) :
    (pipeTable renderCell rows alignments shape).map Prod.fst =
      .ok (pipeText (headerRow shape grid) (exactSeparators shape.width alignments)
        (bodyRows shape grid)) := by
  obtain ⟨hoccupancy, hgridRows, hslots, hbytes⟩ := tableGrid_counted hok
  have hpipe := byteLength_pipeText (headerRow shape grid)
    (exactSeparators shape.width alignments) (bodyRows shape grid)
  have hlengths := headerBody_length hwidths hheader
  have hseparators := rowBytes_exactSeparators shape.width alignments
  have hseparatorRow : tableRowLength (exactSeparators shape.width alignments) ≤
      2 + 3 * shape.width + shape.width * 5 := by
    rw [tableRowLength_eq, length_exactSeparators]
    omega
  have houtput : byteLength (pipeText (headerRow shape grid)
      (exactSeparators shape.width alignments) (bodyRows shape grid)) ≤
      (tablePlanOwners rows shape.width shape.firstHasHeader actual.cellStrings
        actual.cellBlockJoins).output := by
    refine pipe_output_le ?_
    have hmul : (rows.length + 2) * (2 + 3 * shape.width) =
        (rows.length + 1) * (2 + 3 * shape.width) + (2 + 3 * shape.width) := Nat.succ_mul _ _
    rw [hlength] at hlengths
    omega
  have hverify : TablePlanOwners.verifyWithin
      { actual with
        fallbackHeader := if shape.firstHasHeader then 0 else shape.width * stringBytes
        separatorSlots := shape.width * stringBytes
        separatorStrings := rowBytes (exactSeparators shape.width alignments)
        output := byteLength (pipeText (headerRow shape grid)
          (exactSeparators shape.width alignments) (bodyRows shape grid)) }
      (tablePlanOwners rows shape.width shape.firstHasHeader actual.cellStrings
        actual.cellBlockJoins) = .ok () :=
    verifyWithin_ok hoccupancy.le hgridRows.le hslots.le le_rfl le_rfl hseparators le_rfl le_rfl
      houtput
  obtain ⟨first, hfirst, hwrite⟩ := ok_bind (writePipe_ok (h := Nat.eq_sub_of_add_eq hpipe))
  obtain ⟨second, hsecond, hwrite⟩ := ok_bind hwrite
  obtain ⟨third, hthird, hfinish⟩ := ok_bind hwrite
  simp only [pipeTable, hok, bind, Except.bind]
  simp only [headerRow, bodyRows, rowBytes] at hfirst hsecond hthird hfinish hverify
  rw [hfirst]
  dsimp only
  rw [hsecond]
  dsimp only
  rw [hthird]
  dsimp only
  rw [hfinish]
  dsimp only
  rw [hverify]
  rfl

end

/-! ## The HTML table -/

section
variable {β : Type} {renderHtmlCell : CellRenderer β} {cell : Cell β} {cells : List (Cell β)}
  {rows : List (TableRow β)} {shape : Shape} {output rendered : Text}
  {actual actual' : TablePlanOwners}

theorem byteLength_natText (n : UInt32) : byteLength (natText n.toNat) ≤ 40 := by
  have hlength : (natText n.toNat).length ≤ 10 := by
    have hlt : n.toNat < 10 ^ 10 := n.toNat_lt.trans (by decide)
    rw [natText, Nat.toList_repr]
    exact Nat.toDigits_length 10 _ 10 (by decide) hlt
  have hsum := List.sum_le_card_nsmul ((natText n.toNat).map Char.utf8Size) 4 fun size hsize => by
    obtain ⟨c, -, rfl⟩ := List.mem_map.mp hsize
    exact c.utf8Size_le_four
  rw [List.length_map, smul_eq_mul] at hsum
  exact hsum.trans (Nat.mul_le_mul_right 4 hlength)

theorem byteLength_spanAttribute (name : String) (hname : byteLength name.toList = 7)
    (span : UInt32) : byteLength (spanAttribute name span) ≤ 51 := by
  have hspace : byteLength " ".toList = 1 := rfl
  have hequals : byteLength "=\"".toList = 2 := rfl
  have hquote : byteLength ['"'] = 1 := rfl
  have hdigits := byteLength_natText span
  rw [spanAttribute]
  split
  · simp only [byteLength_append, hname, hspace, hequals, hquote]
    omega
  · exact Nat.zero_le _

theorem byteLength_htmlCell (cell : Cell β) (rendered : Text) :
    byteLength (htmlCell cell rendered) ≤ 128 + byteLength rendered := by
  have hrow := byteLength_spanAttribute "rowspan" rfl cell.rowSpan
  have hcolumn := byteLength_spanAttribute "colspan" rfl cell.columnSpan
  have hopen : byteLength "    <".toList = 5 := rfl
  have hclose : byteLength "</".toList = 2 := rfl
  have hend : byteLength ">\n".toList = 2 := rfl
  have hangle : byteLength ['>'] = 1 := rfl
  have htag : byteLength (if cell.header then "th".toList else "td".toList) = 2 := by
    cases cell.header <;> rfl
  unfold htmlCell
  dsimp only
  simp only [byteLength_append]
  rw [hopen, hclose, hend, hangle, htag]
  omega

theorem htmlCells_error {e : RenderError}
    (h : htmlCells renderHtmlCell cells output actual = .error e) :
    ∃ cell ∈ cells, renderHtmlCell cell = .error e := by
  induction cells generalizing output actual with
  | nil => cases h
  | cons cell cells ih =>
    rcases error_bind h with hcell | ⟨value, -, h⟩
    · exact ⟨cell, List.mem_cons_self, hcell⟩
    · obtain ⟨cell', hmem, hcell⟩ := ih h
      exact ⟨cell', List.mem_cons_of_mem _ hmem, hcell⟩

theorem htmlCells_counted {output' : Text}
    (h : htmlCells renderHtmlCell cells output actual = .ok (output', actual')) :
    actual'.fixed = actual.fixed ∧
      byteLength output' + actual.cellStrings ≤
        byteLength output + actual'.cellStrings + cells.length * 128 := by
  induction cells generalizing output actual with
  | nil =>
    cases h
    exact ⟨rfl, Nat.le_add_right _ _⟩
  | cons cell cells ih =>
    obtain ⟨value, -, h⟩ := ok_bind h
    obtain ⟨hfixed, hbytes⟩ := ih h
    have hcell := byteLength_htmlCell cell value.1
    have hadd : (actual.addCell value.1 value.2).cellStrings =
        actual.cellStrings + byteLength value.1 := rfl
    refine ⟨hfixed, ?_⟩
    rw [byteLength_append] at hbytes
    rw [List.length_cons]
    omega

theorem htmlRows_error {e : RenderError}
    (h : htmlRows renderHtmlCell rows output actual = .error e) :
    ∃ row ∈ rows, ∃ cell ∈ row.cells, renderHtmlCell cell = .error e := by
  induction rows generalizing output actual with
  | nil => cases h
  | cons row rows ih =>
    rcases error_bind h with hrow | ⟨value, -, h⟩
    · exact ⟨row, List.mem_cons_self, htmlCells_error hrow⟩
    · obtain ⟨row', hmem, hcell⟩ := ih h
      exact ⟨row', List.mem_cons_of_mem _ hmem, hcell⟩

theorem htmlRows_counted {output' : Text}
    (h : htmlRows renderHtmlCell rows output actual = .ok (output', actual')) :
    actual'.fixed = actual.fixed ∧
      byteLength output' + actual.cellStrings ≤ byteLength output + actual'.cellStrings +
        (rows.map fun row => row.cells.length).sum * 128 + rows.length * 32 := by
  induction rows generalizing output actual with
  | nil =>
    cases h
    exact ⟨rfl, Nat.le_add_right _ _⟩
  | cons row rows ih =>
    obtain ⟨⟨text, counted⟩, hcells, h⟩ := ok_bind h
    obtain ⟨hfixed, hbytes⟩ := htmlCells_counted hcells
    obtain ⟨hfixed', hbytes'⟩ := ih h
    have hopen : byteLength "  <tr>\n".toList = 7 := rfl
    have hclose : byteLength "  </tr>\n".toList = 8 := rfl
    refine ⟨hfixed'.trans hfixed, ?_⟩
    rw [byteLength_append, hopen] at hbytes
    rw [byteLength_append, hclose] at hbytes'
    dsimp only at hbytes'
    rw [List.map_cons, List.sum_cons, List.length_cons]
    omega

theorem renderHtmlTable_error {e : RenderError}
    (h : renderHtmlTable renderHtmlCell rows shape = .error e) :
    ∃ row ∈ rows, ∃ cell ∈ row.cells, renderHtmlCell cell = .error e := by
  rcases error_bind h with hrows | ⟨⟨text, counted⟩, hrows, h⟩
  · exact htmlRows_error hrows
  obtain ⟨hfixed, hbytes⟩ := htmlRows_counted hrows
  have hopen : byteLength "<table>\n".toList = 8 := rfl
  have hclose : byteLength "</table>".toList = 8 := rfl
  have hstart : TablePlanOwners.default.cellStrings = 0 := rfl
  rw [hopen, hstart] at hbytes
  have hoccupancy : counted.occupancy = 0 := congrArg TablePlanOwners.occupancy hfixed
  have hgridRows : counted.gridRows = 0 := congrArg TablePlanOwners.gridRows hfixed
  have hgridSlots : counted.gridSlots = 0 := congrArg TablePlanOwners.gridSlots hfixed
  have hfallback : counted.fallbackHeader = 0 := congrArg TablePlanOwners.fallbackHeader hfixed
  have hslots : counted.separatorSlots = 0 := congrArg TablePlanOwners.separatorSlots hfixed
  have hseparators : counted.separatorStrings = 0 :=
    congrArg TablePlanOwners.separatorStrings hfixed
  have houtput : byteLength (text ++ "</table>".toList) ≤
      (tablePlanOwners rows shape.width shape.firstHasHeader counted.cellStrings
        counted.cellBlockJoins).output := by
    rw [byteLength_append, hclose]
    simp only [tablePlanOwners]
    omega
  have hverify : TablePlanOwners.verifyWithin
      { counted with output := byteLength (text ++ "</table>".toList) }
      (tablePlanOwners rows shape.width shape.firstHasHeader counted.cellStrings
        counted.cellBlockJoins) = .ok () :=
    verifyWithin_ok (hoccupancy.trans_le (Nat.zero_le _)) (hgridRows.trans_le (Nat.zero_le _))
      (hgridSlots.trans_le (Nat.zero_le _)) (hfallback.trans_le (Nat.zero_le _))
      (hslots.trans_le (Nat.zero_le _)) (hseparators.trans_le (Nat.zero_le _)) le_rfl le_rfl houtput
  rcases error_bind h with h | ⟨_, -, h⟩
  · rw [hverify] at h
    cases h
  · cases h

end

/-! ## A tiled table -/

section
variable {β : Type} {renderCell renderHtmlCell : CellRenderer β} {W : Nat}
  {rows : List (TableRow β)} {alignments : List TableAlignment} {final : List Rect}
  {grid : List (List Text)} {actual : TablePlanOwners} {spreadsheetml : Bool} {e : RenderError}

/-- Every cell is once in the grid, where its rectangle starts; the other slots are empty,
each under a cell that spans several. -/
structure HoldsCells (renderCell : CellRenderer β) (rows : List (TableRow β)) (W : Nat)
    (placed : List Rect) (grid : List (List Text)) : Prop where
  height : grid.length = rows.length
  width : ∀ row ∈ grid, row.length = W
  distinct : (placed.map fun p => (p.row, p.column)).Nodup
  corners : List.Forall₂ (fun p cell =>
    (p.height = cell.rowSpan.toNat ∧ p.width = cell.columnSpan.toNat) ∧
      ∃ value, renderCell cell = .ok value ∧ slot grid p.row p.column = some value.1)
    placed (rows.flatMap TableRow.cells)
  others : ∀ r < rows.length, ∀ c < W, (∀ p ∈ placed, ¬ (p.row = r ∧ p.column = c)) →
    slot grid r c = some [] ∧ ∃ p ∈ placed, p.covers r c ∧ (1 < p.height ∨ 1 < p.width)

theorem tableGrid_holds (h : RowsRun W 0 [] [] (extents rows) final)
    (hok : tableGrid renderCell rows W = .ok (grid, actual)) :
    HoldsCells renderCell rows W final grid := by
  obtain ⟨-, htiles, -⟩ := rowsRun_iff.mp h
  obtain ⟨⟨added, hadded, hsizes⟩, -⟩ := h.isPlaced Sweep.knows_start
  obtain ⟨hlength, hwidths, more, hmore, hcorners, hempty⟩ := gridRows_slots h.replicate hok
  rw [extents, List.length_map] at htiles
  rw [List.nil_append] at hadded hmore
  rw [← hadded] at hsizes
  rw [← hmore] at hcorners hempty
  have hpos : ∀ p ∈ final, 0 < p.height ∧ 0 < p.width := fun p hp =>
    ⟨(hsizes p hp).2.1, (hsizes p hp).2.2.1⟩
  refine ⟨hlength, hwidths, htiles.corners_nodup hpos, hcorners.imp ?_, fun r hr c hc hnone =>
    ⟨?_, htiles.spanned hr hc hnone⟩⟩
  · rintro p cell ⟨-, hsize, hvalue⟩
    exact ⟨hsize, hvalue⟩
  · refine hempty r hr c hc fun p hp hprow hcolumn => hnone p hp ⟨?_, hcolumn⟩
    rw [hprow, Nat.zero_add]

theorem tableGrid_error (h : RowsRun W 0 [] [] (extents rows) final)
    (herror : tableGrid renderCell rows W = .error e) :
    ∃ row ∈ rows, ∃ cell ∈ row.cells, renderCell cell = .error e :=
  gridRows_error h.replicate herror

theorem pipeTable_error {shape : Shape} (hwidth : shape.width = W)
    (hheader : shape.firstHasHeader → rows ≠ []) (h : RowsRun W 0 [] [] (extents rows) final)
    (herror : pipeTable renderCell rows alignments shape = .error e) :
    ∃ row ∈ rows, ∃ cell ∈ row.cells, renderCell cell = .error e := by
  subst hwidth
  rcases error_bind herror with hgrid | ⟨⟨grid, actual⟩, hgrid, -⟩
  · exact tableGrid_error h hgrid
  obtain ⟨hlength, hwidths, -⟩ := gridRows_slots h.replicate hgrid
  have hgridHeader : shape.firstHasHeader → grid ≠ [] := fun hfirst hnil =>
    hheader hfirst (List.length_eq_zero_iff.mp (hlength ▸ hnil ▸ rfl))
  have hok := pipeTable_ok alignments hgrid hlength hwidths hgridHeader
  rw [herror] at hok
  cases hok

/-- A table is written in HTML when it has spans and came from a spreadsheet. -/
def showsHtml (spreadsheetml : Bool) (rows : List (TableRow β)) : Bool :=
  (rows.any fun row => row.cells.any spans) && spreadsheetml

/-- The shape of a tiled table. -/
def tiledShape (W : Nat) (rows : List (TableRow β)) : Shape :=
  ⟨W, firstHasHeader rows, rows.any fun row => row.cells.any spans⟩

theorem renderTableMeasured_eq (h : RowsRun W 0 [] [] (extents rows) final) (hrows : rows ≠ [])
    (hW : W ≤ maxTableColumns.toNat) :
    renderTableMeasured spreadsheetml renderCell renderHtmlCell rows alignments =
      if showsHtml spreadsheetml rows then renderHtmlTable renderHtmlCell rows (tiledShape W rows)
      else pipeTable renderCell rows alignments (tiledShape W rows) := by
  rw [renderTableMeasured, tableShape_run h hrows hW]
  rfl

/-- A tiled table fails only where one of its cells does. -/
theorem renderTableMeasured_error (h : RowsRun W 0 [] [] (extents rows) final) (hrows : rows ≠ [])
    (hW : W ≤ maxTableColumns.toNat)
    (herror : renderTableMeasured spreadsheetml renderCell renderHtmlCell rows alignments =
      .error e) :
    ∃ row ∈ rows, ∃ cell ∈ row.cells,
      (if showsHtml spreadsheetml rows then renderHtmlCell cell else renderCell cell) =
        .error e := by
  rw [renderTableMeasured_eq h hrows hW] at herror
  cases hhtml : showsHtml spreadsheetml rows with
  | true =>
    rw [if_pos hhtml] at herror
    exact renderHtmlTable_error herror
  | false =>
    rw [if_neg (Bool.eq_false_iff.mp hhtml)] at herror
    exact pipeTable_error rfl (fun _ => hrows) h herror

theorem infix_htmlCell (cell : Cell β) (rendered : Text) : rendered <:+: htmlCell cell rendered := by
  unfold htmlCell
  dsimp only
  exact (List.suffix_append _ rendered).isInfix.trans ((List.prefix_append _ _).trans
    ((List.prefix_append _ _).trans (List.prefix_append _ _))).isInfix

theorem htmlCells_rendered {cells : List (Cell β)} {output : Text}
    {result : Text × TablePlanOwners}
    (hok : htmlCells renderHtmlCell cells output actual = .ok result) : output <+: result.1 ∧
      ∀ cell ∈ cells, ∃ value, renderHtmlCell cell = .ok value ∧ value.1 <:+: result.1 := by
  induction cells generalizing output actual with
  | nil =>
    obtain rfl := Except.ok.inj hok
    exact ⟨List.prefix_refl _, List.forall_mem_nil _⟩
  | cons cell cells ih =>
    obtain ⟨value, hvalue, hok⟩ := ok_bind hok
    obtain ⟨hstarts, hcells⟩ := ih hok
    refine ⟨(List.prefix_append _ _).trans hstarts, List.forall_mem_cons.mpr
      ⟨⟨value, hvalue, ?_⟩, hcells⟩⟩
    exact (infix_htmlCell cell value.1).trans
      ((List.suffix_append _ _).isInfix.trans hstarts.isInfix)

theorem htmlRows_rendered {output : Text} {result : Text × TablePlanOwners}
    (hok : htmlRows renderHtmlCell rows output actual = .ok result) : output <+: result.1 ∧
      ∀ row ∈ rows, ∀ cell ∈ row.cells, ∃ value, renderHtmlCell cell = .ok value ∧
        value.1 <:+: result.1 := by
  induction rows generalizing output actual with
  | nil =>
    obtain rfl := Except.ok.inj hok
    exact ⟨List.prefix_refl _, List.forall_mem_nil _⟩
  | cons row rows ih =>
    obtain ⟨r, hrow, hok⟩ := ok_bind hok
    obtain ⟨hstarts, hcells⟩ := htmlCells_rendered hrow
    obtain ⟨hstarts', hrows⟩ := ih hok
    have hmore := (List.prefix_append _ _).trans hstarts'
    refine ⟨((List.prefix_append _ _).trans hstarts).trans hmore, List.forall_mem_cons.mpr
      ⟨fun cell hcell => ?_, hrows⟩⟩
    obtain ⟨value, hvalue, hin⟩ := hcells cell hcell
    exact ⟨value, hvalue, hin.trans hmore.isInfix⟩

theorem infix_rowText {cell : Text} {cells : List Text} (h : cell ∈ cells) (newline : Bool) :
    cell <:+: rowText cells newline := by
  obtain ⟨front, back, rfl⟩ := List.append_of_mem h
  rw [rowText_eq, cellsText, List.flatMap_append, List.flatMap_cons]
  refine ⟨['|'] ++ front.flatMap (fun cell => ' ' :: cell ++ [' ', '|']) ++ [' '], [' ', '|'] ++
    back.flatMap (fun cell => ' ' :: cell ++ [' ', '|']) ++ (if newline then ['\n'] else []), ?_⟩
  simp only [List.append_assoc, List.cons_append, List.nil_append]

theorem infix_rowsText {cell : Text} {row : List Text} {rows : List (List Text)} (hrow : row ∈ rows)
    (hcell : cell ∈ row) : cell <:+: rowsText rows := by
  induction rows with
  | nil => cases hrow
  | cons first rows ih =>
    rw [rowsText]
    rcases List.mem_cons.mp hrow with rfl | hrow
    · exact (infix_rowText hcell _).trans (List.prefix_append _ _).isInfix
    · exact (ih hrow).trans (List.suffix_append _ _).isInfix

theorem infix_pipeText {cell : Text} {row : List Text} {shape : Shape} {separators : List Text}
    (hrow : row ∈ grid) (hcell : cell ∈ row) :
    cell <:+: pipeText (headerRow shape grid) separators (bodyRows shape grid) := by
  have hwhere : row = headerRow shape grid ∨ row ∈ bodyRows shape grid := by
    unfold headerRow bodyRows
    split
    · obtain ⟨first, rest, rfl⟩ := List.exists_cons_of_ne_nil (List.ne_nil_of_mem hrow)
      exact List.mem_cons.mp hrow
    · exact .inr hrow
  rw [pipeText]
  rcases hwhere with rfl | hrow
  · exact (infix_rowText hcell _).trans
      ((List.prefix_append _ _).trans (List.prefix_append _ _)).isInfix
  · exact (infix_rowsText hrow hcell).trans (List.suffix_append _ _).isInfix

theorem mem_of_slot {r c : Nat} {text : Text} (h : slot grid r c = some text) :
    ∃ row ∈ grid, text ∈ row := by
  obtain ⟨row, hrow, hcell⟩ := Option.bind_eq_some_iff.mp h
  exact ⟨row, List.mem_of_getElem? hrow, List.mem_of_getElem? hcell⟩

/-- A pipe table has all of its cells in it. -/
theorem pipeTable_rendered {shape : Shape} {result : Text × TablePlanOwners}
    (hwidth : shape.width = W) (hheader : shape.firstHasHeader → rows ≠ [])
    (h : RowsRun W 0 [] [] (extents rows) final)
    (hok : pipeTable renderCell rows alignments shape = .ok result) :
    ∀ row ∈ rows, ∀ cell ∈ row.cells, ∃ value, renderCell cell = .ok value ∧
      value.1 <:+: result.1 := by
  subst hwidth
  obtain ⟨⟨grid, actual⟩, hgrid, -⟩ := ok_bind hok
  obtain ⟨hlength, hwidths, -⟩ := gridRows_slots h.replicate hgrid
  have hgridHeader : shape.firstHasHeader → grid ≠ [] := fun hfirst hnil =>
    hheader hfirst (List.length_eq_zero_iff.mp (hlength ▸ hnil ▸ rfl))
  have htext := pipeTable_ok alignments hgrid hlength hwidths hgridHeader
  rw [hok] at htext
  have hresult : result.1 = _ := Except.ok.inj htext
  rw [hresult]
  intro row hrow cell hcell
  obtain ⟨p, -, -, value, hvalue, hslot⟩ := exists_of_forall₂ (tableGrid_holds h hgrid).corners.flip
    cell (List.mem_flatMap.mpr ⟨row, hrow, hcell⟩)
  obtain ⟨line, hline, hin⟩ := mem_of_slot hslot
  exact ⟨value, hvalue, infix_pipeText hline hin⟩

/-- A table that is rendered has rendered all of its cells. -/
theorem renderTableMeasured_rendered {result : Text × TablePlanOwners}
    (h : RowsRun W 0 [] [] (extents rows) final) (hrows : rows ≠ [])
    (hW : W ≤ maxTableColumns.toNat)
    (hok : renderTableMeasured spreadsheetml renderCell renderHtmlCell rows alignments =
      .ok result) :
    ∀ row ∈ rows, ∀ cell ∈ row.cells, ∃ value,
      (if showsHtml spreadsheetml rows then renderHtmlCell cell else renderCell cell) =
        .ok value ∧ value.1 <:+: result.1 := by
  rw [renderTableMeasured_eq h hrows hW] at hok
  cases hhtml : showsHtml spreadsheetml rows with
  | true =>
    rw [if_pos hhtml] at hok
    obtain ⟨r, hhtmlRows, hok⟩ := ok_bind hok
    obtain ⟨_, -, hok⟩ := ok_bind hok
    obtain rfl := Except.ok.inj hok
    intro row hrow cell hcell
    obtain ⟨value, hvalue, hin⟩ := (htmlRows_rendered hhtmlRows).2 row hrow cell hcell
    exact ⟨value, hvalue, hin.trans (List.prefix_append _ _).isInfix⟩
  | false =>
    rw [if_neg (Bool.eq_false_iff.mp hhtml)] at hok
    exact pipeTable_rendered rfl (fun _ => hrows) h hok

end

end IntoMarkdown.Render
