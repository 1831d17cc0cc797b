import IntoMarkdown.Docx.Merged

/-! # Normalised tables

Limits, padding and merges together: a table within the limits becomes the grid that its rows
declare, and that grid is valid. -/

namespace IntoMarkdown.Docx
open Lib Lib.Tiling Ir

section
variable {β : Type} {rows : List (TableRow β)} {row : TableRow β} {part : String}
  {options : ConversionOptions}

/-! ## Widths -/

theorem foldl_max_le {l : List Nat} {n bound : Nat} :
    l.foldl max n ≤ bound ↔ n ≤ bound ∧ ∀ x ∈ l, x ≤ bound := by
  induction l generalizing n with
  | nil => simp
  | cons x l ih =>
    rw [List.foldl_cons, ih, Nat.max_le, List.forall_mem_cons, and_assoc]

theorem tableWidth_le {bound : Nat} :
    tableWidth rows ≤ bound ↔ ∀ row ∈ rows, rowWidth row ≤ bound := by
  rw [tableWidth, foldl_max_le, List.forall_mem_map]
  exact and_iff_right (Nat.zero_le _)

theorem rowWidth_le (h : row ∈ rows) : rowWidth row ≤ tableWidth rows :=
  tableWidth_le.mp (Nat.le_refl _) row h

theorem rowWidth_padRow {width : Nat} (h : rowWidth row ≤ width) :
    rowWidth (padRow width row) = width := by
  have hone : (emptyCell : Cell β).columnSpan.toNat = 1 := rfl
  rw [rowWidth, padRow, List.map_append, List.sum_append, List.map_replicate, List.sum_replicate,
    hone]
  change rowWidth row + _ = width
  rw [smul_eq_mul]
  omega

theorem padRow_self {width : Nat} (h : rowWidth row = width) : padRow width row = row := by
  rw [padRow, h, Nat.sub_self, List.replicate_zero, List.append_nil]

/-- The rows that the merges are read from. -/
def padded (rows : List (TableRow β)) : List (TableRow β) := rows.map (padRow (tableWidth rows))

theorem padded_rectangular (hspans : ∀ row ∈ rows, ∀ cell ∈ row.cells,
      cell.rowSpan = 1 ∧ 0 < cell.columnSpan) (hbound : tableWidth rows < 2 ^ 64) :
    Rectangular (padded rows) (tableWidth rows) where
  width := by
    refine List.forall_mem_map.mpr fun row hrow => ?_
    exact rowWidth_padRow (rowWidth_le hrow)
  spans := by
    refine List.forall_mem_map.mpr fun row hrow => List.forall_mem_append.mpr ⟨hspans row hrow, ?_⟩
    intro cell hcell
    rw [List.eq_of_mem_replicate hcell]
    exact ⟨rfl, show (0 : UInt32) < 1 by decide⟩
  bounded := hbound

/-! ## Limits -/

theorem validateRowLimits_ok {scan next : LimitScan}
    (h : validateRowLimits part options scan row = .ok next) :
    row.cells ≠ [] ∧ rowWidth row ≤ Ir.maxTableColumns.toNat ∧
      next.expectedWidth = some (rowWidth row) ∧
      (next.ragged = false → scan.ragged = false ∧
        ∀ width ∈ scan.expectedWidth, width = rowWidth row) := by
  obtain ⟨hcells, h⟩ := refuse_bind_ok.mp h
  obtain ⟨-, h⟩ := refuse_bind_ok.mp h
  obtain ⟨width, hwidth, h⟩ := ok_bind h
  obtain ⟨-, hwidth⟩ := refuse_bind_ok.mp hwidth
  obtain rfl := Except.ok.inj hwidth
  obtain ⟨hbound, h⟩ := refuse_bind_ok.mp h
  obtain ⟨-, h⟩ := refuse_bind_ok.mp h
  obtain rfl := Except.ok.inj h
  refine ⟨fun hnil => hcells (List.isEmpty_iff.mpr hnil), ?_, rfl, fun hragged => ?_⟩
  · exact Nat.le_trans (Nat.not_lt.mp hbound) (Nat.min_le_right _ _)
  · obtain ⟨hscan, hdiffers⟩ := Bool.or_eq_false_iff.mp hragged
    refine ⟨hscan, fun width hwidth => ?_⟩
    rw [hwidth] at hdiffers
    simpa using hdiffers

theorem limitScan_ok {scan last : LimitScan}
    (h : rows.foldlM (validateRowLimits part options) scan = .ok last) :
    (∀ row ∈ rows, row.cells ≠ [] ∧ rowWidth row ≤ Ir.maxTableColumns.toNat) ∧
      (last.ragged = false → scan.ragged = false ∧
        ∀ width ∈ scan.expectedWidth, ∀ row ∈ rows, rowWidth row = width) := by
  induction rows generalizing scan with
  | nil =>
    obtain rfl := Except.ok.inj h
    exact ⟨by simp, fun hragged => ⟨hragged, by simp⟩⟩
  | cons row rows ih =>
    rw [List.foldlM_cons] at h
    obtain ⟨next, hnext, hrest⟩ := ok_bind h
    obtain ⟨hcells, hwidth, hexpected, hnow⟩ := validateRowLimits_ok hnext
    obtain ⟨hall, hlater⟩ := ih hrest
    refine ⟨List.forall_mem_cons.mpr ⟨⟨hcells, hwidth⟩, hall⟩, fun hragged => ?_⟩
    obtain ⟨hnextRagged, hsame⟩ := hlater hragged
    obtain ⟨hscan, hfirst⟩ := hnow hnextRagged
    refine ⟨hscan, fun width hw => List.forall_mem_cons.mpr ⟨(hfirst width hw).symm, ?_⟩⟩
    rw [hfirst width hw]
    exact hsame _ hexpected

structure WithinLimits (rows : List (TableRow β)) : Prop where
  nonempty : rows ≠ []
  cells : ∀ row ∈ rows, row.cells ≠ []
  width : tableWidth rows ≤ Ir.maxTableColumns.toNat

theorem validateTableLimits_ok {ragged : Bool}
    (h : validateTableLimits rows part options = .ok ragged) :
    WithinLimits rows ∧ (ragged = false → padded rows = rows) := by
  obtain ⟨hrows, h⟩ := refuse_bind_ok.mp h
  obtain ⟨-, h⟩ := refuse_bind_ok.mp h
  obtain ⟨scan, hscan, h⟩ := ok_bind h
  obtain ⟨-, h⟩ := refuse_bind_ok.mp h
  obtain rfl := Except.ok.inj h
  obtain ⟨hall, hsame⟩ := limitScan_ok hscan
  refine ⟨⟨fun hnil => hrows (List.isEmpty_iff.mpr hnil), fun row hrow => (hall row hrow).1,
    tableWidth_le.mpr fun row hrow => (hall row hrow).2⟩, fun hragged => ?_⟩
  cases rows with
  | nil => rfl
  | cons row rows =>
    rw [List.foldlM_cons] at hscan
    obtain ⟨next, hnext, hrest⟩ := ok_bind hscan
    have hwidths := ((limitScan_ok hrest).2 hragged).2 _ (validateRowLimits_ok hnext).2.2.1
    have hevery : ∀ other ∈ row :: rows, rowWidth other = rowWidth row :=
      List.forall_mem_cons.mpr ⟨rfl, hwidths⟩
    have htable : tableWidth (row :: rows) = rowWidth row :=
      Nat.le_antisymm (tableWidth_le.mpr fun other hother => (hevery other hother).le)
        (rowWidth_le List.mem_cons_self)
    rw [padded, htable]
    exact (List.map_congr_left fun other hother => padRow_self (hevery other hother)).trans
      (List.map_id _)

/-! ## The whole table -/

theorem cellCount_padded (rows : List (TableRow β)) :
    (rows.map fun row => tableWidth rows - rowWidth row).sum ≤ cellCount (padded rows) := by
  rw [cellCount, padded, List.map_map]
  refine List.sum_le_sum fun row _ => ?_
  simp [padRow]

theorem normalizeRaggedTable_eq (h : WithinLimits rows) :
    (normalizeRaggedTable rows options = .ok (padded rows)) ∨
      (∃ detail, normalizeRaggedTable rows options = .error (limit "max_table_cells" detail)) ∧
        options.maxTableCells.toNat < cellCount (padded rows) := by
  have hwidths : (rows.forM fun row => discard (checkedWidth row)) = .ok () := by
    have hall : ∀ row ∈ rows, rowWidth row ≤ Ir.maxTableColumns.toNat := tableWidth_le.mp h.width
    clear h
    induction rows with
    | nil => rfl
    | cons row rows ih =>
      obtain ⟨hrow, hrows⟩ := List.forall_mem_cons.mp hall
      have hsmall : ¬ 2 ^ 64 ≤ rowWidth row :=
        Nat.not_le.mpr (Nat.lt_of_le_of_lt hrow (by decide))
      rw [List.forM_eq_forM, List.forM_cons, checkedWidth, refuse_of_not hsmall]
      exact ih hrows
  have hcells := cellCount_padded rows
  have hword := options.maxTableCells.toNat_lt
  have hrows : rows.map (padRow (tableWidth rows)) = padded rows := rfl
  rw [normalizeRaggedTable, hwidths]
  simp only [hrows]
  by_cases hadded : 2 ^ 64 ≤ (rows.map fun row => tableWidth rows - rowWidth row).sum
  · simp only [refuse_of hadded]
    exact .inr ⟨⟨_, rfl⟩, by omega⟩
  · by_cases htotal : 2 ^ 64 ≤ cellCount (padded rows)
    · simp only [refuse_of_not hadded, refuse_of htotal]
      exact .inr ⟨⟨_, rfl⟩, by omega⟩
    · by_cases hover : options.maxTableCells.toNat < cellCount (padded rows)
      · simp only [refuse_of_not hadded, refuse_of_not htotal, refuse_of hover]
        exact .inr ⟨⟨_, rfl⟩, hover⟩
      · simp only [refuse_of_not hadded, refuse_of_not htotal, refuse_of_not hover]
        exact .inl rfl

variable {visible : List β → Bool} {declarations : List (List VerticalMerge)} {W : Nat}

theorem Between.tilesGrid {active : ActiveMerges} {top : Board β}
    (h : Between visible rows declarations W rows.length active top)
    (hrect : Rectangular rows W) : TilesGrid top.shown W := by
  have hgrid := h.sourceGrid hrect
  refine ⟨⟨_, hgrid.placed, ?_⟩, ?_⟩
  · rw [Board.shown, List.length_map, h.length]
    exact hgrid.tiles
  · refine List.forall_mem_map.mpr fun pieces hpieces => List.forall_mem_map.mpr fun p hp => ?_
    have hmem : p ∈ (top ++ [[]]).flatten := by
      rw [flatten_nil_last]
      exact List.mem_flatten_of_mem hpieces hp
    have hok := h.mid.ok p hmem
    refine ⟨?_, (hrect.stands hok.source).1⟩
    rw [UInt32.lt_iff_toNat_lt]
    exact (UInt32.toNat_ofNat_of_lt' hok.short).symm ▸ hok.height

theorem normalizeVerticalMerges_grid (hrect : Rectangular rows W)
    (hbest : options.errorPolicy = .bestEffort) (diagnostics : List Diagnostic) :
    (∃ out notices pieces,
      normalizeVerticalMerges visible rows declarations part options diagnostics =
        .ok (out, notices) ∧ SourceGrid visible rows declarations out W pieces ∧
      out.length = rows.length ∧ TilesGrid out W) ∨
      (normalizeVerticalMerges visible rows declarations part options diagnostics =
        .error spanOverflow ∧ 2 ^ 32 ≤ rows.length) := by
  have hpolicy : ¬ (options.errorPolicy = .strict ∧
      ¬ declarations.flatten.all (· = .none) = true) := by
    rw [hbest]
    rintro ⟨hstrict, -⟩
    cases hstrict
  have hstart : Between visible rows declarations W 0 .empty [] := between_start
  have hrun := mergeRows_between part hrect hstart (show rows.drop 0 = rows from rfl) diagnostics
  rw [Nat.zero_add, List.drop_zero] at hrun
  rw [normalizeVerticalMerges, refuse_of_not hpolicy]
  rcases hrun with ⟨⟨out, notices⟩, active, top, hok, rfl, hbetween⟩ | ⟨herror, hlong⟩
  · refine .inl ⟨_, notices, top.flatten, hok, hbetween.sourceGrid hrect, ?_,
      hbetween.tilesGrid hrect⟩
    rw [Board.shown, List.length_map, hbetween.length]
  · exact .inr ⟨herror, hlong⟩

/-- The rows pass the validator wherever the contents of their cells do. -/
def Valid (out : List (TableRow β)) : Prop :=
  ∀ (limits : ValidationLimits) (validateNodes : BlocksValidator β) (path : String)
    (state : ValidationState), Ir.maxTableColumns ≤ limits.maxTableColumns →
    ContentsValid limits validateNodes path out state →
    ∃ state', validateTable limits validateNodes out [] path state = .ok state'

theorem valid_of_tilesGrid {out : List (TableRow β)} (hlimits : WithinLimits rows)
    (hspans : ∀ row ∈ rows, ∀ cell ∈ row.cells, cell.rowSpan = 1 ∧ 0 < cell.columnSpan)
    (hlength : out.length = rows.length) (htiles : TilesGrid out (tableWidth rows)) :
    Valid out := by
  intro limits validateNodes path state hbound hcontents
  have hne : out ≠ [] := by
    intro hnil
    rw [hnil, List.length_nil] at hlength
    exact hlimits.nonempty (List.length_eq_zero_iff.mp hlength.symm)
  refine (table_accepted_iff hne hcontents).mpr ⟨tableWidth rows, ?_, ?_, htiles, .inl rfl⟩
  · obtain ⟨row, rest, hrows⟩ := List.exists_cons_of_ne_nil hlimits.nonempty
    have hrow : row ∈ rows := hrows ▸ List.mem_cons_self
    obtain ⟨cell, cells, hcells⟩ := List.exists_cons_of_ne_nil (hlimits.cells row hrow)
    have hcell := (hspans row hrow cell (hcells ▸ List.mem_cons_self)).2
    refine Nat.le_trans ?_ (rowWidth_le hrow)
    rw [rowWidth, hcells, List.map_cons, List.sum_cons]
    exact Nat.le_add_right_of_le hcell
  · exact Nat.le_trans hlimits.width (UInt64.le_iff_toNat_le.mp hbound)

end

/-- A table within the limits, in the lenient mode: its slots belong to the source cells that
its rows and merges declare, and it is valid. The only failures left are too many cells after
the padding, and a row span beyond its word. -/
theorem tables_normalized (rows : List (TableRow BlockNode))
    (declarations : List (List VerticalMerge)) (part : String) (options : ConversionOptions)
    (diagnostics : List Diagnostic) (ragged : Bool)
    (hbest : options.errorPolicy = .bestEffort)
    (hlimits : validateTableLimits rows part options = .ok ragged)
    (hspans : ∀ row ∈ rows, ∀ cell ∈ row.cells, cell.rowSpan = 1 ∧ 0 < cell.columnSpan) :
    (∃ out notices pieces,
      normalizeTable blocksHaveVisibleContent rows declarations part options diagnostics =
        .ok (out, notices) ∧
      SourceGrid blocksHaveVisibleContent (padded rows) declarations out (tableWidth rows)
        pieces ∧ Valid out) ∨
      ∃ name detail,
        normalizeTable blocksHaveVisibleContent rows declarations part options diagnostics =
          .error (limit name detail) ∧
        (options.maxTableCells.toNat < cellCount (padded rows) ∨ 2 ^ 32 ≤ rows.length) := by
  obtain ⟨hwithin, heven⟩ := validateTableLimits_ok hlimits
  have hrect := padded_rectangular hspans (Nat.lt_of_le_of_lt hwithin.width (by decide))
  have hlength : (padded rows).length = rows.length := List.length_map _
  have hmerged : ∀ notices,
      (∃ out notices' pieces, normalizeVerticalMerges blocksHaveVisibleContent (padded rows)
          declarations part options notices = .ok (out, notices') ∧
        SourceGrid blocksHaveVisibleContent (padded rows) declarations out (tableWidth rows)
          pieces ∧ Valid out) ∨
        (normalizeVerticalMerges blocksHaveVisibleContent (padded rows) declarations part options
          notices = .error spanOverflow ∧ 2 ^ 32 ≤ rows.length) := by
    intro notices
    rcases normalizeVerticalMerges_grid hrect hbest notices with
      ⟨out, notices', pieces, hok, hgrid, hout, htiles⟩ | ⟨herror, hlong⟩
    · exact .inl ⟨out, notices', pieces, hok, hgrid,
        valid_of_tilesGrid hwithin hspans (hout.trans hlength) htiles⟩
    · exact .inr ⟨herror, hlength ▸ hlong⟩
  rw [normalizeTable, hlimits]
  cases ragged with
  | false =>
    rw [heven rfl] at hmerged
    rcases hmerged diagnostics with ⟨out, notices, pieces, hok, hgood⟩ | ⟨herror, hlong⟩
    · rw [heven rfl]
      exact .inl ⟨out, notices, pieces, hok, hgood⟩
    · exact .inr ⟨_, _, herror, .inr hlong⟩
  | true =>
    have hragged : normalizeRaggedTable rows options = .ok (padded rows) ∨ _ :=
      normalizeRaggedTable_eq hwithin
    rcases hragged with hok | ⟨⟨detail, herror⟩, hmany⟩
    · simp only [hok]
      rcases hmerged (warning diagnostics normalized
          "ragged table rows were padded to a consistent logical width" part) with
        ⟨out, notices, pieces, hok, hgood⟩ | ⟨herror, hlong⟩
      · exact .inl ⟨out, notices, pieces, hok, hgood⟩
      · exact .inr ⟨_, _, herror, .inr hlong⟩
    · simp only [herror]
      exact .inr ⟨_, detail, rfl, .inl hmany⟩

/-- A cell of two columns that goes on into a wider row. -/
def mergedRows : List (TableRow BlockNode) :=
  let text : BlockNode := .mk ['n'] (.paragraph [.text ['a'] []]) ⟨['p'], none, []⟩
  [⟨[⟨1, 2, true, [text]⟩]⟩, ⟨[⟨1, 2, false, []⟩, ⟨1, 1, false, [text]⟩]⟩]

theorem tables_normalized_merged : ∃ out notices pieces,
    normalizeTable blocksHaveVisibleContent mergedRows [[.restart], [.continuation, .none]]
      "word/document.xml" ⟨.bestEffort, 10, 10, 10⟩ [] = .ok (out, notices) ∧
    SourceGrid blocksHaveVisibleContent (padded mergedRows)
      [[.restart], [.continuation, .none]] out (tableWidth mergedRows) pieces ∧ Valid out := by
  rcases tables_normalized mergedRows [[.restart], [.continuation, .none]] "word/document.xml"
      ⟨.bestEffort, 10, 10, 10⟩ [] true rfl (by rfl) (by decide) with
    h | ⟨name, detail, -, hmany | hlong⟩
  · exact h
  · exact absurd hmany (by decide)
  · exact absurd hlong (by decide)

/-- The first cell spans both rows, and the first row is padded. -/
example : (normalizeTable blocksHaveVisibleContent mergedRows [[.restart], [.continuation, .none]]
      "word/document.xml" ⟨.bestEffort, 10, 10, 10⟩ []).map (fun r => extents r.1) =
    .ok [[⟨2, 2⟩, ⟨1, 1⟩], [⟨1, 1⟩]] := by rfl

end IntoMarkdown.Docx
