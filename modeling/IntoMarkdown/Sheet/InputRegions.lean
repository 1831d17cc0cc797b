import IntoMarkdown.Sheet.Overlap
import IntoMarkdown.Sheet.Position

/-! # The regions to begin with

Every run, merged range and table of a worksheet is in a region before the sweep. -/

namespace IntoMarkdown.Sheet
open Lib

/-! ## The ranges of a worksheet -/

def runBox (run : SparseRun) : Box := ⟨run.row, run.row, run.firstColumn, run.lastColumn⟩

def tableBox (table : TableRange) : Box := ⟨table.1.1, table.2.1, table.1.2, table.2.2⟩

structure OnSheet (range : Box) : Prop where
  proper : range.Proper
  grid : InGrid (range.lastRow, range.lastColumn)

instance (range : Box) : Decidable (OnSheet range) :=
  decidable_of_iff ((range.firstRow ≤ range.lastRow ∧ range.firstColumn ≤ range.lastColumn) ∧
      InGrid (range.lastRow, range.lastColumn))
    ⟨fun h => ⟨⟨h.1.1, h.1.2⟩, h.2⟩, fun h => ⟨⟨h.proper.rows, h.proper.columns⟩, h.grid⟩⟩

theorem OnSheet.hull {a b : Box} (ha : OnSheet a) (hb : OnSheet b) : OnSheet (a.hull b) where
  proper := ha.proper.hull hb.proper
  grid := ⟨Nat.max_lt.mpr ⟨ha.grid.1, hb.grid.1⟩, Nat.max_lt.mpr ⟨ha.grid.2, hb.grid.2⟩⟩

def SparseRun.Precedes (a b : SparseRun) : Prop :=
  a.row < b.row ∨ a.row = b.row ∧ a.lastColumn < b.firstColumn

instance (a b : SparseRun) : Decidable (a.Precedes b) := inferInstanceAs (Decidable (_ ∨ _))

/-- What the parts of a workbook say of a worksheet. -/
structure SheetRanges (runs : List SparseRun) (merges : List MergeRange)
    (tables : List TableRange) : Prop where
  runsOn : ∀ run ∈ runs, OnSheet (runBox run)
  ordered : runs.Pairwise SparseRun.Precedes
  mergesOn : ∀ merge ∈ merges, OnSheet merge
  mergesApart : merges.Pairwise fun a b => ¬ a.Meets b
  tablesOn : ∀ table ∈ tables, OnSheet (tableBox table)
  tablesApart : tables.Pairwise fun a b => ¬ (tableBox a).Meets (tableBox b)

/-- All of a range is in one of the regions. -/
def Held (regions : List SparseRegion) (range : Box) : Prop :=
  ∃ region ∈ regions, range.Within region.toBox

def totalSlots (regions : List SparseRegion) : Nat := (regions.map fun r => r.toBox.slots).sum

def populatedCells (runs : List SparseRun) : Nat := (runs.map runWidth).sum

theorem totalSlots_append (regions more : List SparseRegion) :
    totalSlots (regions ++ more) = totalSlots regions + totalSlots more := by
  rw [totalSlots, List.map_append, List.sum_append]
  rfl

theorem totalSlots_singleton (region : SparseRegion) :
    totalSlots [region] = region.toBox.slots := Nat.add_zero _

/-! ## Runs -/

/-- What is known of the regions of the runs so far. -/
structure RunsIn (passed : List SparseRun) (state : List SparseRegion × Option SparseRun) :
    Prop where
  previous : state.2 = passed.getLast?
  onSheet : ∀ region ∈ state.1, OnSheet region.toBox
  held : ∀ run ∈ passed, Held state.1 (runBox run)
  plain : ∀ region ∈ state.1, region.firstRow = region.lastRow ∧
    region.occupiedCells = region.toBox.slots ∧ region.containsMerge = false
  slots : totalSlots state.1 = populatedCells passed

theorem runsIn_start : RunsIn [] ([], none) where
  previous := rfl
  onSheet := List.forall_mem_nil _
  held := List.forall_mem_nil _
  plain := List.forall_mem_nil _
  slots := rfl

section
variable {passed : List SparseRun} {run : SparseRun}
  {state : List SparseRegion × Option SparseRun}

theorem Held.append_left {regions : List SparseRegion} {range : Box} (h : Held regions range)
    (more : List SparseRegion) : Held (regions ++ more) range := by
  obtain ⟨region, hregion, hwithin⟩ := h
  exact ⟨region, List.mem_append_left _ hregion, hwithin⟩

theorem populatedCells_concat : populatedCells (passed ++ [run]) =
    populatedCells passed + runWidth run := by
  simp [populatedCells]

theorem slots_of_row {a : Box} (h : a.firstRow = a.lastRow) :
    a.slots = a.lastColumn - a.firstColumn + 1 := by
  rw [Box.slots, h, Nat.sub_self, Nat.zero_add, Nat.one_mul]

/-- What a region becomes that goes on over a run. -/
theorem extendRegion_of {region : SparseRegion} (hregion : OnSheet region.toBox)
    (hrun : OnSheet (runBox run)) (hplain : region.firstRow = region.lastRow)
    (hcontinues : continues run region = true) :
    OnSheet (extendRegion run region).toBox ∧
      region.toBox.Within (extendRegion run region).toBox ∧
      (runBox run).Within (extendRegion run region).toBox ∧
      (extendRegion run region).toBox.slots = region.toBox.slots + runWidth run := by
  simp only [continues, Bool.and_eq_true, decide_eq_true_eq] at hcontinues
  obtain ⟨⟨hrow, -⟩, hnext⟩ := hcontinues
  have hcolumns : run.firstColumn ≤ run.lastColumn := hrun.proper.columns
  have hregionColumns := hregion.proper.columns
  have hends : region.lastColumn ≤ run.lastColumn := by omega
  refine ⟨⟨⟨hregion.proper.rows, hregionColumns.trans hends⟩, hregion.grid.1, hrun.grid.2⟩,
    ⟨Nat.le_refl _, Nat.le_refl _, Nat.le_refl _, hends⟩,
    ⟨Nat.le_of_eq hrow, Nat.le_of_eq (hrow.symm.trans hplain), by
      show region.firstColumn ≤ run.firstColumn
      omega, Nat.le_refl _⟩, ?_⟩
  rw [slots_of_row (a := region.toBox) hplain,
    slots_of_row (a := (extendRegion run region).toBox) hplain, runWidth]
  show run.lastColumn - region.firstColumn + 1 = _
  omega

/-- **Run.** -/
theorem addRun_of (h : RunsIn passed state) (hrun : OnSheet (runBox run))
    (horder : ∀ prior ∈ passed, prior.Precedes run) :
    ∃ state', addRun state run = .ok state' ∧ RunsIn (passed ++ [run]) state' := by
  obtain ⟨regions, previous⟩ := state
  have hcolumns : run.firstColumn ≤ run.lastColumn := hrun.proper.columns
  have hordered : ¬ previous.any fun prior =>
      run.row < prior.row ∨ run.row = prior.row ∧ run.firstColumn ≤ prior.lastColumn := by
    cases hprevious : previous with
    | none => exact Bool.false_ne_true
    | some prior =>
      have hprior := horder prior (List.mem_of_getLast? (h.previous.symm.trans hprevious))
      simp only [SparseRun.Precedes] at hprior
      simp only [Option.any_some, decide_eq_true_eq]
      omega
  have hheld (regions' : List SparseRegion)
      (hbefore : ∀ range, Held regions range → Held regions' range)
      (hnew : Held regions' (runBox run)) : ∀ r ∈ passed ++ [run], Held regions' (runBox r) := by
    intro r hr
    rcases List.mem_append.mp hr with hr | hr
    · exact hbefore _ (h.held r hr)
    · rwa [List.mem_singleton.mp hr]
  unfold addRun
  rw [refuse_of_not (Nat.not_lt.mpr hcolumns), refuse_of_not hordered]
  cases hlast : (regions.getLast?).filter (continues run) with
  | none =>
    refine ⟨(regions ++ [regionOfRun run], some run), rfl, ?_⟩
    have hslots : (regionOfRun run).toBox.slots = runWidth run := slots_of_row rfl
    exact {
      previous := by simp
      onSheet := List.forall_mem_append.mpr ⟨h.onSheet, List.forall_mem_singleton.mpr hrun⟩
      held := hheld _ (fun range hrange => hrange.append_left _)
        ⟨regionOfRun run, by simp, Box.Within.refl _⟩
      plain := List.forall_mem_append.mpr ⟨h.plain, List.forall_mem_singleton.mpr
        ⟨rfl, hslots.symm, rfl⟩⟩
      slots := by
        rw [totalSlots_append, totalSlots_singleton, h.slots, hslots, populatedCells_concat] }
  | some region =>
    obtain ⟨hregion, hcontinues⟩ := Option.filter_eq_some_iff.mp hlast
    obtain ⟨front, rfl⟩ := List.getLast?_eq_some_iff.mp hregion
    have hmem : region ∈ front ++ [region] := by simp
    obtain ⟨hrow, hoccupied, hmerge⟩ := h.plain region hmem
    obtain ⟨honSheet, hwithin, hnew, hslots⟩ :=
      extendRegion_of (h.onSheet region hmem) hrun hrow hcontinues
    have hfew : ¬ 2 ^ 64 ≤ region.occupiedCells + runWidth run := by
      rw [hoccupied, ← hslots, slots_of_row (show (extendRegion run region).firstRow = _ from hrow)]
      have hgrid : (extendRegion run region).lastColumn < maxExcelColumns := honSheet.grid.2
      have : maxExcelColumns < 2 ^ 64 - 1 := by decide
      omega
    refine ⟨((front ++ [region]).dropLast ++ [extendRegion run region], some run), ?_, ?_⟩
    · dsimp only
      rw [refuse_of_not hfew]
      rfl
    · rw [List.dropLast_concat]
      have hfront {r : SparseRegion} (hr : r ∈ front) : r ∈ front ++ [region] :=
        List.mem_append_left _ hr
      exact {
        previous := by simp
        onSheet := List.forall_mem_append.mpr ⟨fun r hr => h.onSheet r (hfront hr),
          List.forall_mem_singleton.mpr honSheet⟩
        held := by
          refine hheld _ ?_ ⟨extendRegion run region, by simp, hnew⟩
          rintro range ⟨r, hr, hrange⟩
          rcases List.mem_append.mp hr with hr | hr
          · exact ⟨r, List.mem_append_left _ hr, hrange⟩
          · rw [List.mem_singleton.mp hr] at hrange
            exact ⟨extendRegion run region, by simp, hrange.trans hwithin⟩
        plain := List.forall_mem_append.mpr ⟨fun r hr => h.plain r (hfront hr),
          List.forall_mem_singleton.mpr ⟨hrow, by
            rw [hslots, ← hoccupied]
            rfl, hmerge⟩⟩
        slots := by
          have hbefore := h.slots
          dsimp only at hbefore
          rw [totalSlots_append, totalSlots_singleton] at hbefore
          rw [totalSlots_append, totalSlots_singleton, hslots, populatedCells_concat]
          omega }

theorem addRuns_of {runs : List SparseRun} (h : RunsIn passed state)
    (hruns : ∀ run ∈ runs, OnSheet (runBox run))
    (horder : (passed ++ runs).Pairwise SparseRun.Precedes) :
    ∃ state', runs.foldlM addRun state = .ok state' ∧ RunsIn (passed ++ runs) state' := by
  induction runs generalizing passed state with
  | nil => exact ⟨state, rfl, by rwa [List.append_nil]⟩
  | cons run runs ih =>
    obtain ⟨hrun, hruns⟩ := List.forall_mem_cons.mp hruns
    obtain ⟨state', hstate, h'⟩ := addRun_of h hrun fun prior hprior =>
      (List.pairwise_append.mp horder).2.2 prior hprior run List.mem_cons_self
    rw [List.append_cons] at horder ⊢
    obtain ⟨state'', hrest, h''⟩ := ih h' hruns horder
    exact ⟨state'', by rw [List.foldlM_cons, hstate]; exact hrest, h''⟩

end

/-- **Runs.** -/
theorem regionsFromRuns_of {runs : List SparseRun} (hruns : ∀ run ∈ runs, OnSheet (runBox run))
    (horder : runs.Pairwise SparseRun.Precedes) :
    ∃ state, regionsFromRuns runs = .ok state.1 ∧ RunsIn runs state := by
  obtain ⟨state, hstate, h⟩ := addRuns_of runsIn_start hruns horder
  exact ⟨state, bind_ok_iff.mpr ⟨state, hstate, rfl⟩, h⟩

/-! ## Merged ranges -/

theorem appendMergeRegions_of {merges : List MergeRange} (regions : List SparseRegion)
    (hmerges : ∀ merge ∈ merges, OnSheet merge)
    (hapart : merges.Pairwise fun a b => ¬ a.Meets b) :
    appendMergeRegions regions merges =
      .ok (regions ++ (sortByPosition id merges).map regionOfMerge) := by
  have hvalid : validateNonOverlappingMerges (sortByPosition id merges) = .ok () :=
    (validateSorted_ok_iff _ _ merges).mpr
      ⟨fun a ha => (hmerges a ha).proper, hapart⟩
  exact bind_ok_iff.mpr ⟨(), hvalid, rfl⟩

/-! ## Tables -/

/-- What a table becomes that takes in regions, with what is left of them. -/
structure Absorbs (table : SparseRegion) (regions : List SparseRegion) (table' : SparseRegion)
    (untouched : List SparseRegion) : Prop where
  within : table.toBox.Within table'.toBox
  held : ∀ region ∈ regions, region ∈ untouched ∨ region.toBox.Within table'.toBox
  subset : untouched ⊆ regions
  onSheet : OnSheet table.toBox → (∀ region ∈ regions, OnSheet region.toBox) →
    OnSheet table'.toBox

theorem Absorbs.refl (table : SparseRegion) (regions : List SparseRegion) :
    Absorbs table regions table regions where
  within := Box.Within.refl _
  held _ h := Or.inl h
  subset := fun _ h => h
  onSheet h _ := h

theorem Absorbs.trans {table table' table'' : SparseRegion}
    {regions regions' regions'' : List SparseRegion} (h : Absorbs table regions table' regions')
    (h' : Absorbs table' regions' table'' regions'') :
    Absorbs table regions table'' regions'' where
  within := h.within.trans h'.within
  held region hregion := by
    rcases h.held region hregion with hregion | hregion
    · exact h'.held region hregion
    · exact Or.inr (hregion.trans h'.within)
  subset := fun _ hr => h.subset (h'.subset hr)
  onSheet ht hr := h'.onSheet (h.onSheet ht hr) fun region hregion => hr region (h.subset hregion)

/-- One region of a pass. -/
theorem absorbRegion_of {table region : SparseRegion} {passed : List SparseRegion}
    {state : Absorption} (h : Absorbs table passed state.table state.untouched) :
    Absorbs table (passed ++ [region]) (absorbRegion state region).table
      (absorbRegion state region).untouched := by
  unfold absorbRegion
  split
  · exact {
      within := h.within.trans (Box.within_hull_left _ _)
      held := by
        intro r hr
        rcases List.mem_append.mp hr with hr | hr
        · exact (h.held r hr).imp_right fun hwithin => hwithin.trans (Box.within_hull_left _ _)
        · rw [List.mem_singleton.mp hr]
          exact Or.inr (Box.within_hull_right _ _)
      subset := fun r hr => List.mem_append_left _ (h.subset hr)
      onSheet := fun ht hr =>
        have hpassed := List.forall_mem_append.mp hr
        (h.onSheet ht hpassed.1).hull (hpassed.2 region List.mem_cons_self) }
  · exact {
      within := h.within
      held := by
        intro r hr
        rcases List.mem_append.mp hr with hr | hr
        · exact (h.held r hr).imp_left fun hmem => List.mem_append_left _ hmem
        · exact Or.inl (List.mem_append_right _ hr)
      subset := by
        intro r hr
        rcases List.mem_append.mp hr with hr | hr
        · exact List.mem_append_left _ (h.subset hr)
        · exact List.mem_append_right _ hr
      onSheet := fun ht hr => h.onSheet ht (List.forall_mem_append.mp hr).1 }

theorem absorbRegions_of {table : SparseRegion} {passed regions : List SparseRegion}
    {state : Absorption} (h : Absorbs table passed state.table state.untouched) :
    Absorbs table (passed ++ regions) (regions.foldl absorbRegion state).table
      (regions.foldl absorbRegion state).untouched := by
  induction regions generalizing passed state with
  | nil => rwa [List.append_nil]
  | cons region regions ih =>
    rw [List.append_cons]
    exact ih (absorbRegion_of h)

theorem absorb_of (fuel : Nat) (table : SparseRegion) (regions : List SparseRegion) :
    Absorbs table regions (absorb fuel table regions).1 (absorb fuel table regions).2 := by
  induction fuel generalizing table regions with
  | zero => exact Absorbs.refl table regions
  | succ fuel ih =>
    have hpass : Absorbs table regions (regions.foldl absorbRegion ⟨table, [], false⟩).table
        (regions.foldl absorbRegion ⟨table, [], false⟩).untouched :=
      @absorbRegions_of table [] regions ⟨table, [], false⟩ (Absorbs.refl table [])
    rw [absorb]
    split
    · exact hpass.trans (ih _ _)
    · exact hpass

/-- What holds of the regions once tables are added. -/
structure Begins (ranges : List Box) (regions : List SparseRegion) : Prop where
  onSheet : ∀ region ∈ regions, OnSheet region.toBox
  held : ∀ range ∈ ranges, Held regions range

theorem appendTableRegion_of {ranges : List Box} {regions : List SparseRegion} {table : TableRange}
    (h : Begins ranges regions) (htable : OnSheet (tableBox table)) :
    ∃ regions', appendTableRegion regions table = .ok regions' ∧
      Begins (ranges ++ [tableBox table]) regions' := by
  have hproper : ¬ (table.2.1 < table.1.1 ∨ table.2.2 < table.1.2) :=
    not_or.mpr ⟨Nat.not_lt.mpr htable.proper.rows, Nat.not_lt.mpr htable.proper.columns⟩
  have habsorbs := absorb_of regions.length (regionOfTable table) regions
  generalize habsorbed : absorb regions.length (regionOfTable table) regions = absorbed at habsorbs
  refine ⟨absorbed.2 ++ [absorbed.1], ?_, ?_⟩
  · rw [appendTableRegion, refuse_of_not hproper, habsorbed]
    rfl
  · refine ⟨List.forall_mem_append.mpr ⟨fun r hr => h.onSheet r (habsorbs.subset hr),
      List.forall_mem_singleton.mpr (habsorbs.onSheet htable h.onSheet)⟩,
      List.forall_mem_append.mpr ⟨fun range hrange => ?_, List.forall_mem_singleton.mpr
        ⟨absorbed.1, by simp, habsorbs.within⟩⟩⟩
    obtain ⟨region, hregion, hwithin⟩ := h.held range hrange
    rcases habsorbs.held region hregion with hmem | hinside
    · exact ⟨region, List.mem_append_left _ hmem, hwithin⟩
    · exact ⟨absorbed.1, by simp, hwithin.trans hinside⟩

theorem appendTableRegions_of {ranges : List Box} {regions : List SparseRegion}
    {tables : List TableRange} (h : Begins ranges regions)
    (htables : ∀ table ∈ tables, OnSheet (tableBox table)) :
    ∃ regions', appendTableRegions regions tables = .ok regions' ∧
      Begins (ranges ++ tables.map tableBox) regions' := by
  induction tables generalizing ranges regions with
  | nil => exact ⟨regions, rfl, by rwa [List.map_nil, List.append_nil]⟩
  | cons table tables ih =>
    obtain ⟨htable, htables⟩ := List.forall_mem_cons.mp htables
    obtain ⟨regions', hregions', h'⟩ := appendTableRegion_of h htable
    obtain ⟨regions'', hrest, h''⟩ := ih h' htables
    refine ⟨regions'', ?_, by rwa [List.map_cons, List.append_cons]⟩
    rw [appendTableRegions, List.foldlM_cons, hregions']
    exact hrest

/-! ## All ranges -/

/-- Every range that is to be in a region. -/
def allRanges (runs : List SparseRun) (merges : List MergeRange) (tables : List TableRange) :
    List Box := runs.map runBox ++ merges ++ tables.map tableBox

/-- **Input.** -/
theorem sparseRegions_of {runs : List SparseRun} {merges : List MergeRange}
    {tables : List TableRange} (h : SheetRanges runs merges tables) :
    ∃ regions, sparseRegions runs merges tables = .ok regions ∧
      Begins (allRanges runs merges tables) regions ∧
      (merges = [] → tables = [] → (∀ region ∈ regions, region.containsMerge = false) ∧
        totalSlots regions = populatedCells runs) := by
  obtain ⟨state, hruns, hrunsIn⟩ := regionsFromRuns_of h.runsOn h.ordered
  have hmerges := appendMergeRegions_of state.1 h.mergesOn h.mergesApart
  have hbegins : Begins (runs.map runBox ++ merges)
      (state.1 ++ (sortByPosition id merges).map regionOfMerge) := by
    constructor
    · refine List.forall_mem_append.mpr ⟨hrunsIn.onSheet, fun region hregion => ?_⟩
      obtain ⟨merge, hmerge, rfl⟩ := List.mem_map.mp hregion
      exact h.mergesOn merge (mem_sortByPosition.mp hmerge)
    · refine List.forall_mem_append.mpr ⟨fun range hrange => ?_, fun merge hmerge => ?_⟩
      · obtain ⟨run, hrun, rfl⟩ := List.mem_map.mp hrange
        exact (hrunsIn.held run hrun).append_left _
      · exact ⟨regionOfMerge merge, List.mem_append_right _ (List.mem_map.mpr
          ⟨merge, mem_sortByPosition.mpr hmerge, rfl⟩), Box.Within.refl _⟩
  obtain ⟨regions, htables, hregions⟩ := appendTableRegions_of hbegins h.tablesOn
  refine ⟨regions, ?_, hregions, ?_⟩
  · exact bind_ok_iff.mpr ⟨_, hruns, bind_ok_iff.mpr ⟨_, hmerges, htables⟩⟩
  · rintro rfl rfl
    obtain rfl : state.1 = regions := by
      simpa [appendTableRegions, sortByPosition, Pure.pure, Except.pure] using htables
    exact ⟨fun region hregion => (hrunsIn.plain region hregion).2.2, hrunsIn.slots⟩

end IntoMarkdown.Sheet
