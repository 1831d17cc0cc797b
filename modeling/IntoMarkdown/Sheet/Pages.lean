import IntoMarkdown.Sheet.InputRegions

/-! # Pages of a region

A region is cut into bands of rows, none of which cuts a merged range. -/

namespace IntoMarkdown.Sheet
open Lib

/-! ## One page -/

section
variable {merges : List MergeRange} {bound lastRow : Nat}

theorem foldl_max_of (merges : List MergeRange) (lastRow : Nat) :
    lastRow ≤ merges.foldl (fun last merge => max last merge.lastRow) lastRow ∧
      ∀ merge ∈ merges,
        merge.lastRow ≤ merges.foldl (fun last merge => max last merge.lastRow) lastRow := by
  induction merges generalizing lastRow with
  | nil => exact ⟨Nat.le_refl _, List.forall_mem_nil _⟩
  | cons merge merges ih =>
    obtain ⟨hle, hall⟩ := ih (max lastRow merge.lastRow)
    exact ⟨(Nat.le_max_left _ _).trans hle,
      List.forall_mem_cons.mpr ⟨(Nat.le_max_right _ _).trans hle, hall⟩⟩

theorem foldl_max_le {merges : List MergeRange} (hlast : lastRow ≤ bound)
    (hmerges : ∀ merge ∈ merges, merge.lastRow ≤ bound) :
    merges.foldl (fun last merge => max last merge.lastRow) lastRow ≤ bound := by
  induction merges generalizing lastRow with
  | nil => exact hlast
  | cons merge merges ih =>
    obtain ⟨hmerge, hmerges⟩ := List.forall_mem_cons.mp hmerges
    exact ih (Nat.max_le.mpr ⟨hlast, hmerge⟩) hmerges

/-- No merged range goes over the end of a page. -/
def Uncut (merges : List MergeRange) (lastRow : Nat) : Prop :=
  ∀ merge ∈ merges, merge.firstRow ≤ lastRow → merge.lastRow ≤ lastRow

/-- **Page.** As many turns as there are rows left are enough. -/
theorem extendPage_of {fuel : Nat} (hmerges : ∀ merge ∈ merges, merge.lastRow ≤ bound)
    (hlast : lastRow ≤ bound) (hfuel : bound ≤ lastRow + fuel) :
    lastRow ≤ extendPage merges bound fuel lastRow ∧
      extendPage merges bound fuel lastRow ≤ bound ∧
      Uncut merges (extendPage merges bound fuel lastRow) := by
  induction fuel generalizing lastRow with
  | zero =>
    obtain rfl : lastRow = bound := Nat.le_antisymm hlast hfuel
    exact ⟨Nat.le_refl _, Nat.le_refl _, fun merge hmerge _ => hmerges merge hmerge⟩
  | succ fuel ih =>
    rw [extendPage]
    have hcut (merge : MergeRange) (h : merge ∈ merges.filter fun merge =>
        merge.firstRow ≤ lastRow ∧ lastRow < merge.lastRow) : merge.lastRow ≤ bound :=
      hmerges merge (List.mem_filter.mp h).1
    have hle := foldl_max_le hlast hcut
    obtain ⟨hgrows, hall⟩ := foldl_max_of (merges.filter fun merge =>
      merge.firstRow ≤ lastRow ∧ lastRow < merge.lastRow) lastRow
    generalize hextended : (merges.filter fun merge =>
      merge.firstRow ≤ lastRow ∧ lastRow < merge.lastRow).foldl
        (fun last merge => max last merge.lastRow) lastRow = extended at hle hgrows hall ⊢
    split
    · rename_i hsame
      refine ⟨Nat.le_refl _, hlast, fun merge hmerge hfirst => ?_⟩
      by_contra hover
      have := hall merge (List.mem_filter.mpr ⟨hmerge,
        decide_eq_true ⟨hfirst, Nat.not_le.mp hover⟩⟩)
      omega
    · rw [Nat.min_eq_left hle]
      obtain ⟨hlow, hhigh, huncut⟩ := ih hle (by omega)
      exact ⟨hgrows.trans hlow, hhigh, huncut⟩

end

/-! ## All pages -/

/-- Bands of rows from a row to the end of the region. -/
def Bands (region : Box) : Nat → List RegionPage → Prop
  | firstRow, [] => firstRow = region.lastRow + 1
  | firstRow, page :: rest => page.firstRow = firstRow ∧ firstRow ≤ page.lastRow ∧
      page.firstColumn = region.firstColumn ∧ page.lastColumn = region.lastColumn ∧
      Bands region (page.lastRow + 1) rest

/-- A merged range is on one page or on none. -/
def Uncrossed (merges : List MergeRange) (page : RegionPage) : Prop :=
  ∀ merge ∈ merges, merge.Meets page → merge.Within page

section
variable {merges : List MergeRange} {region : Box}

theorem pagesFrom_of {fuel firstRow rows : Nat} (hregion : OnSheet region)
    (hmerges : ∀ merge ∈ merges, merge.Within region)
    (huncut : ∀ merge ∈ merges, merge.firstRow < firstRow → merge.lastRow < firstRow)
    (hfirst : firstRow ≤ region.lastRow + 1) (hfuel : region.lastRow + 1 ≤ firstRow + fuel) :
    Bands region firstRow (pagesFrom merges region rows fuel firstRow) ∧
      ∀ page ∈ pagesFrom merges region rows fuel firstRow, Uncrossed merges page := by
  induction fuel generalizing firstRow with
  | zero => exact ⟨Nat.le_antisymm hfirst hfuel, List.forall_mem_nil _⟩
  | succ fuel ih =>
    have hgrid : region.lastRow < maxExcelRows := hregion.grid.1
    have hbits : maxExcelRows < 2 ^ 32 - 1 := by decide
    rw [pagesFrom]
    split
    · exact ⟨by
        rw [Bands]
        omega, List.forall_mem_nil _⟩
    · rename_i hgoing
      have hbegin : min (saturatingAdd 32 firstRow (rows - 1)) region.lastRow ≤ region.lastRow :=
        Nat.min_le_right _ _
      have hbegins : firstRow ≤ min (saturatingAdd 32 firstRow (rows - 1)) region.lastRow := by
        rw [saturatingAdd]
        omega
      generalize min (saturatingAdd 32 firstRow (rows - 1)) region.lastRow = begin at hbegin hbegins
      have hrows : region.lastRow ≤ begin + (region.lastRow - begin) := by omega
      obtain ⟨hlow, hhigh, hend⟩ := extendPage_of
        (fun merge hmerge => (hmerges merge hmerge).lastRow) hbegin hrows
      dsimp only
      generalize extendPage merges region.lastRow (region.lastRow - begin) begin = lastRow
        at hlow hhigh hend
      rw [if_pos (by omega)]
      obtain ⟨hbands, hall⟩ := @ih (lastRow + 1)
        (fun merge hmerge hlt => Nat.lt_succ_of_le (hend merge hmerge (Nat.le_of_lt_succ hlt)))
        (Nat.succ_le_succ hhigh) (by omega)
      refine ⟨⟨rfl, hbegins.trans hlow, rfl, rfl, hbands⟩,
        List.forall_mem_cons.mpr ⟨fun merge hmerge hmeet => ?_, hall⟩⟩
      have hwithin := hmerges merge hmerge
      have hmeetLast : merge.firstRow ≤ lastRow := hmeet.1
      have hmeetFirst : firstRow ≤ merge.lastRow := hmeet.2.1
      refine ⟨?_, hend merge hmerge hmeetLast, hwithin.firstColumn, hwithin.lastColumn⟩
      by_contra hbefore
      have := huncut merge hmerge (Nat.not_le.mp hbefore)
      omega

theorem Bands.le {firstRow : Nat} {pages : List RegionPage} (h : Bands region firstRow pages) :
    firstRow ≤ region.lastRow + 1 := by
  induction pages generalizing firstRow with
  | nil => exact Nat.le_of_eq h
  | cons page pages ih =>
    obtain ⟨-, hle, -, -, hrest⟩ := h
    have := ih hrest
    omega

theorem Bands.within {firstRow : Nat} {pages : List RegionPage} (h : Bands region firstRow pages)
    (hfirst : region.firstRow ≤ firstRow) : ∀ page ∈ pages, page.Within region := by
  induction pages generalizing firstRow with
  | nil => exact List.forall_mem_nil _
  | cons page pages ih =>
    obtain ⟨rfl, hle, hfirstColumn, hlastColumn, hrest⟩ := h
    refine List.forall_mem_cons.mpr ⟨⟨hfirst, Nat.le_of_succ_le_succ hrest.le,
      Nat.le_of_eq hfirstColumn.symm, Nat.le_of_eq hlastColumn⟩, ih hrest ?_⟩
    omega

end

/-- What meets a region is a range inside of it. -/
def Fits (region : Box) (merges : List MergeRange) : Prop :=
  ∀ merge ∈ merges, region.Meets merge → merge.Proper ∧ merge.Within region

section
variable {region : SparseRegion} {merges : List MergeRange}

theorem checkPageMerge_ok_iff {region : Box} {merge checked : MergeRange} :
    checkPageMerge region merge = .ok checked ↔
      (merge.Proper ∧ merge.Within region) ∧ merge = checked := by
  constructor
  · intro h
    obtain ⟨u, hproper, h⟩ := ok_bind h
    obtain ⟨u', hwithin, h⟩ := ok_bind h
    exact ⟨⟨validateBounds_ok_iff.mp hproper, contains_iff.mp (not_not.mp (refuse_ok hwithin))⟩,
      Except.ok.inj h⟩
  · rintro ⟨⟨hproper, hwithin⟩, rfl⟩
    rw [checkPageMerge, validateMerge, validateBounds_of hproper,
      refuse_of_not (not_not_intro (contains_iff.mpr hwithin))]
    rfl

/-- Only what the region meets counts for its pages. -/
theorem paginateRegion_eq (hregion : OnSheet region.toBox) (h : Fits region.toBox merges) :
    paginateRegion region merges =
      .ok (pagesFrom (merges.filter (intersects region.toBox)) region.toBox
        (rowsPerPage region.toBox) (region.lastRow - region.firstRow + 1) region.firstRow) := by
  have hchecks : (merges.filter (intersects region.toBox)).mapM (checkPageMerge region.toBox) =
      .ok (merges.filter (intersects region.toBox)) := by
    rw [mapM_ok_iff, List.forall₂_same]
    intro merge hmerge
    obtain ⟨hmem, hmeet⟩ := List.mem_filter.mp hmerge
    exact checkPageMerge_ok_iff.mpr ⟨h merge hmem (intersects_iff.mp hmeet), rfl⟩
  exact bind_ok_iff.mpr ⟨(), validateBounds_of hregion.proper,
    bind_ok_iff.mpr ⟨_, hchecks, rfl⟩⟩

theorem fits_of_ok {pages : List RegionPage} (h : paginateRegion region merges = .ok pages) :
    Fits region.toBox merges := by
  obtain ⟨u, -, h⟩ := ok_bind h
  obtain ⟨relevant, hrelevant, -⟩ := ok_bind h
  intro merge hmerge hmeet
  obtain ⟨checked, -, hchecked⟩ := exists_of_forall₂ (mapM_ok_iff.mp hrelevant) merge
    (List.mem_filter.mpr ⟨hmerge, intersects_iff.mpr hmeet⟩)
  exact (checkPageMerge_ok_iff.mp hchecked).1

theorem bands_of_ok (hregion : OnSheet region.toBox) {pages : List RegionPage}
    (h : paginateRegion region merges = .ok pages) :
    Bands region.toBox region.firstRow pages ∧ ∀ page ∈ pages, Uncrossed merges page := by
  have hfits := fits_of_ok h
  obtain rfl := Except.ok.inj ((paginateRegion_eq hregion hfits).symm.trans h)
  have hrelevant (merge : MergeRange) (h : merge ∈ merges.filter (intersects region.toBox)) :
      merge.Within region.toBox := by
    obtain ⟨hmem, hmeet⟩ := List.mem_filter.mp h
    exact (hfits merge hmem (intersects_iff.mp hmeet)).2
  have hrows := hregion.proper.rows
  obtain ⟨hbands, hall⟩ := @pagesFrom_of (merges.filter (intersects region.toBox)) region.toBox
    (region.lastRow - region.firstRow + 1) region.firstRow (rowsPerPage region.toBox) hregion
    hrelevant (fun merge hmerge hbefore =>
      absurd (hrelevant merge hmerge).firstRow (Nat.not_le.mpr hbefore)) (by omega) (by omega)
  refine ⟨hbands, fun page hpage merge hmerge hmeet => ?_⟩
  have hmeets : region.toBox.Meets merge :=
    (hmeet.within (Box.Within.refl _) (hbands.within (Nat.le_refl _) page hpage)).symm
  exact hall page hpage merge (List.mem_filter.mpr ⟨hmerge, intersects_iff.mpr hmeets⟩) hmeet

/-- **Pages.** A region has pages exactly where each merged range that it meets is inside of it; the
pages are bands that make up the region, and no merged range is on two of them. -/
theorem paginateRegion_iff (hregion : OnSheet region.toBox) (merges : List MergeRange) :
    ((∃ pages, paginateRegion region merges = .ok pages) ↔ Fits region.toBox merges) ∧
      ∀ pages, paginateRegion region merges = .ok pages →
        Bands region.toBox region.firstRow pages ∧ ∀ page ∈ pages, Uncrossed merges page := by
  refine ⟨⟨?_, fun h => ⟨_, paginateRegion_eq hregion h⟩⟩, fun pages => bands_of_ok hregion⟩
  rintro ⟨pages, hpages⟩
  exact fits_of_ok hpages

end

theorem paginateRegion_tall :
    ∃ pages, paginateRegion ⟨⟨0, 3, 0, 4095⟩, 0, true⟩ [⟨1, 2, 0, 1⟩] = .ok pages :=
  (paginateRegion_iff (by decide) [⟨1, 2, 0, 1⟩]).1.mpr fun merge hmerge _ => by
    rw [List.mem_singleton.mp hmerge]
    exact ⟨⟨by decide, by decide⟩, by decide⟩

end IntoMarkdown.Sheet
