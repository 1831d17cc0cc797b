import IntoMarkdown.Sheet.Coalesced
import IntoMarkdown.Sheet.Pages

/-! # The plan of a worksheet

Where no region that the sweep forms meets one that it has put aside, the plan is a partition.
Without merged ranges nothing else makes it one. -/

namespace IntoMarkdown.Sheet
open Lib

/-! ## The sweep as a whole -/

section
variable {regions : List SparseRegion} {emptyCellBudget : Nat}

theorem sweepOk_start (emptyCellBudget : Nat) : SweepOk (Sweep.start emptyCellBudget) where
  active := activeOk_empty
  onSheet := List.forall_mem_nil _

/-- What the regions become. -/
structure Coalesces (regions : List SparseRegion) (emptyCellBudget : Nat)
    (swept : List SparseRegion × Nat) : Prop where
  onSheet : ∀ region ∈ swept.1, OnSheet region.toBox
  held : ∀ range, Held regions range → Held swept.1 range
  apart_iff : Separate swept.1 ↔ (Sweep.start emptyCellBudget).keepsApart
    (sortByPosition SparseRegion.toBox regions) = true
  used : swept.2 ≤ emptyCellBudget
  slots : (∀ region ∈ regions, region.containsMerge = false) →
    totalSlots swept.1 ≤ totalSlots regions + swept.2

/-- **Coalescing.** -/
theorem coalesceRegions_of (emptyCellBudget : Nat)
    (hregions : ∀ region ∈ regions, OnSheet region.toBox) :
    ∃ swept, coalesceRegions regions emptyCellBudget = .ok swept ∧
      Coalesces regions emptyCellBudget swept := by
  have hsorted : (sortByPosition SparseRegion.toBox regions).Perm regions := perm_sortByPosition
  obtain ⟨sweep, hsweep, h⟩ := turns_of (sweepOk_start emptyCellBudget)
    (fun region hregion => hregions region (hsorted.mem_iff.mp hregion))
  have hperm : (sortByPosition SparseRegion.toBox (sweep.completed ++ sweep.active.values)).Perm
      sweep.regions := perm_sortByPosition
  refine ⟨_, bind_ok_iff.mpr ⟨sweep, hsweep, rfl⟩, ?_, ?_, ?_, Nat.sub_le _ _, ?_⟩
  · exact fun region hregion => h.sweepOk.onSheet region (hperm.mem_iff.mp hregion)
  · rintro range ⟨region, hregion, hwithin⟩
    obtain ⟨region', hregion', hwithin'⟩ := h.held range
      (Or.inr ⟨region, hsorted.mem_iff.mpr hregion, hwithin⟩)
    exact ⟨region', hperm.mem_iff.mpr hregion', hwithin'⟩
  · constructor
    · intro hapart
      by_contra hnot
      exact (h.clash (Or.inr (Bool.not_eq_true _ ▸ hnot))).not_apart
        (hapart.subperm hperm.symm.subperm)
    · exact fun hkeeps => (h.apart .nil hkeeps).subperm hperm.subperm
  · intro hmerges
    have hslots := h.slots (List.forall_mem_nil _) fun region hregion =>
      hmerges region (hsorted.mem_iff.mp hregion)
    have hremaining : sweep.remaining ≤ emptyCellBudget := h.remaining
    have hstart : (Sweep.start emptyCellBudget).remaining = emptyCellBudget := rfl
    have hnone : totalSlots (Sweep.start emptyCellBudget).regions = 0 := rfl
    rw [totalSlots_perm hsorted, hstart, hnone] at hslots
    rw [totalSlots_perm hperm]
    dsimp only
    omega

end

/-! ## The plan -/

/-- Each range of the worksheet is in one region, and each region can be cut into pages. -/
structure Partition (runs : List SparseRun) (merges : List MergeRange) (tables : List TableRange)
    (emptyCellBudget : Nat) (plan : RegionPlan) : Prop where
  onSheet : ∀ region ∈ plan.regions, OnSheet region.toBox
  apart : Separate plan.regions
  once : ∀ range ∈ allRanges runs merges tables,
    plan.regions.countP (fun region => contains region.toBox range) = 1
  used : plan.emptyCellsUsed ≤ emptyCellBudget
  slots : merges = [] → tables = [] →
    totalSlots plan.regions ≤ populatedCells runs + plan.emptyCellsUsed
  pages : ∀ region ∈ plan.regions, ∃ pages, paginateRegion region merges = .ok pages ∧
    Bands region.toBox region.firstRow pages ∧ ∀ page ∈ pages, Uncrossed merges page

section
variable {runs : List SparseRun} {merges : List MergeRange} {tables : List TableRange}
  {regions : List SparseRegion} {emptyCellBudget : Nat}

theorem SheetRanges.onSheet (h : SheetRanges runs merges tables) :
    ∀ range ∈ allRanges runs merges tables, OnSheet range := by
  refine List.forall_mem_append.mpr ⟨List.forall_mem_append.mpr ⟨fun range hrange => ?_,
    h.mergesOn⟩, fun range hrange => ?_⟩
  · obtain ⟨run, hrun, rfl⟩ := List.mem_map.mp hrange
    exact h.runsOn run hrun
  · obtain ⟨table, htable, rfl⟩ := List.mem_map.mp hrange
    exact h.tablesOn table htable

theorem apart_map (regions : List SparseRegion) :
    (regions.map SparseRegion.toBox).Pairwise (fun a b => ¬ a.Meets b) ↔ Separate regions :=
  List.pairwise_map

/-- Regions that are apart hold each range once. -/
theorem once_of {range : Box} (hproper : range.Proper) (hapart : Separate regions)
    (hheld : Held regions range) :
    regions.countP (fun region => contains region.toBox range) = 1 := by
  have hcount := Box.countP_within hproper ((apart_map regions).mpr hapart) (by
    obtain ⟨region, hregion, hwithin⟩ := hheld
    exact ⟨region.toBox, List.mem_map.mpr ⟨region, hregion, rfl⟩, hwithin⟩)
  rw [List.countP_map] at hcount
  rw [← hcount]
  refine List.countP_congr fun region _ => ?_
  rw [contains_iff, Function.comp, decide_eq_true_eq]

/-- A merged range that meets a region is in it, where all regions are apart. -/
theorem within_of_meets {region : SparseRegion} {merge : MergeRange} (hapart : Separate regions)
    (hregion : region ∈ regions) (hheld : Held regions merge)
    (hmeet : region.toBox.Meets merge) : merge.Within region.toBox := by
  obtain ⟨owner, howner, hwithin⟩ := hheld
  by_cases hsame : owner = region
  · exact hsame ▸ hwithin
  · have hsymm : Std.Symm fun a b : SparseRegion => ¬ a.toBox.Meets b.toBox :=
      ⟨fun a b hab hba => hab hba.symm⟩
    have hmeets : region.toBox.Meets owner.toBox :=
      hmeet.within (Box.Within.refl _) hwithin
    exact absurd hmeets (hapart.forall hregion howner fun heq => hsame heq.symm)

/-- Regions that are apart are the plan. -/
theorem partition_of {swept : List SparseRegion × Nat} (h : SheetRanges runs merges tables)
    (hbegins : Begins (allRanges runs merges tables) regions)
    (hplain : merges = [] → tables = [] → (∀ region ∈ regions, region.containsMerge = false) ∧
      totalSlots regions = populatedCells runs)
    (hswept : Coalesces regions emptyCellBudget swept) (hapart : Separate swept.1) :
    Partition runs merges tables emptyCellBudget ⟨swept.1, swept.2⟩ where
  onSheet := hswept.onSheet
  apart := hapart
  once range hrange :=
    once_of (h.onSheet range hrange).proper hapart (hswept.held range (hbegins.held range hrange))
  used := hswept.used
  slots hmerges htables := by
    obtain ⟨hplain, hslots⟩ := hplain hmerges htables
    exact hslots ▸ hswept.slots hplain
  pages region hregion := by
    have hfits : Fits region.toBox merges := fun merge hmerge hmeet =>
      ⟨(h.mergesOn merge hmerge).proper, within_of_meets hapart hregion (hswept.held merge
        (hbegins.held merge (List.mem_append_left _ (List.mem_append_right _ hmerge)))) hmeet⟩
    have hok := paginateRegion_eq (hswept.onSheet region hregion) hfits
    exact ⟨_, hok, bands_of_ok (hswept.onSheet region hregion) hok⟩

/-- **Plan.** Where no region that the sweep forms meets one that it has put aside, each run, merged
range and table is in one region. Without merged ranges this is the only way. -/
theorem plan_partition_iff (h : SheetRanges runs merges tables) (emptyCellBudget : Nat) :
    ∃ regions, sparseRegions runs merges tables = .ok regions ∧
      ((Sweep.start emptyCellBudget).keepsApart (sortByPosition SparseRegion.toBox regions) = true →
        ∃ plan, buildSparseRegions runs merges tables emptyCellBudget = .ok plan ∧
          Partition runs merges tables emptyCellBudget plan) ∧
      (merges = [] → ∀ plan, buildSparseRegions runs merges tables emptyCellBudget = .ok plan →
        Partition runs merges tables emptyCellBudget plan →
        (Sweep.start emptyCellBudget).keepsApart
          (sortByPosition SparseRegion.toBox regions) = true) := by
  obtain ⟨regions, hregions, hbegins, hplain⟩ := sparseRegions_of h
  obtain ⟨swept, hcoalesce, hswept⟩ := coalesceRegions_of emptyCellBudget hbegins.onSheet
  refine ⟨regions, hregions, fun hkeeps => ?_, ?_⟩
  · have hapart := hswept.apart_iff.mpr hkeeps
    have hvalid := (validateNonOverlappingRegions_ok_iff swept.1).mpr
      ⟨fun region hregion => (hswept.onSheet region hregion).proper,
        (apart_map swept.1).mpr hapart⟩
    refine ⟨⟨swept.1, swept.2⟩, ?_, partition_of h hbegins hplain hswept hapart⟩
    refine bind_ok_iff.mpr ⟨regions, hregions, bind_ok_iff.mpr ⟨swept, hcoalesce, ?_⟩⟩
    rw [hvalid]
    rfl
  · rintro rfl plan hplan hpartition
    refine hswept.apart_iff.mp ?_
    obtain ⟨regions', hregions', hplan⟩ := ok_bind hplan
    obtain rfl := Except.ok.inj (hregions.symm.trans hregions')
    obtain ⟨swept', hcoalesce', hplan⟩ := ok_bind hplan
    obtain rfl := Except.ok.inj (hcoalesce.symm.trans hcoalesce')
    split at hplan
    · obtain rfl := Except.ok.inj hplan
      exact hpartition.apart
    · obtain rfl : (⟨sortByPosition SparseRegion.toBox swept.1, swept.2⟩ : RegionPlan) = plan :=
        Except.ok.inj hplan
      exact hpartition.apart.subperm perm_sortByPosition.symm.subperm

end

theorem sheetRanges_small : SheetRanges [⟨0, 0, 0⟩, ⟨1, 0, 1⟩, ⟨3, 1, 1⟩] [⟨3, 4, 0, 1⟩]
    [((6, 0), (7, 1))] := by
  constructor <;> decide

theorem plan_partition_small :
    ∃ plan, buildSparseRegions [⟨0, 0, 0⟩, ⟨1, 0, 1⟩, ⟨3, 1, 1⟩] [⟨3, 4, 0, 1⟩]
        [((6, 0), (7, 1))] 1 = .ok plan ∧
      Partition [⟨0, 0, 0⟩, ⟨1, 0, 1⟩, ⟨3, 1, 1⟩] [⟨3, 4, 0, 1⟩] [((6, 0), (7, 1))] 1 plan := by
  obtain ⟨regions, hregions, hplan, -⟩ := plan_partition_iff sheetRanges_small 1
  have hinput : sparseRegions [⟨0, 0, 0⟩, ⟨1, 0, 1⟩, ⟨3, 1, 1⟩] [⟨3, 4, 0, 1⟩]
      [((6, 0), (7, 1))] = .ok [⟨⟨0, 0, 0, 0⟩, 1, false⟩, ⟨⟨1, 1, 0, 1⟩, 2, false⟩,
        ⟨⟨3, 3, 1, 1⟩, 1, false⟩, ⟨⟨3, 4, 0, 1⟩, 0, true⟩, ⟨⟨6, 7, 0, 1⟩, 0, false⟩] := by
    decide +kernel
  obtain rfl := Except.ok.inj (hinput.symm.trans hregions)
  exact hplan (by decide +kernel)

/-- A union that reaches over a region put aside. -/
example : (buildSparseRegions [⟨0, 0, 0⟩, ⟨0, 2, 2⟩, ⟨1, 0, 0⟩, ⟨2, 0, 0⟩, ⟨3, 0, 2⟩] [] [] 6).toOption =
    some ⟨[⟨⟨0, 3, 0, 2⟩, 6, false⟩, ⟨⟨0, 0, 2, 2⟩, 1, false⟩], 6⟩ := by
  decide +kernel

/-! ## Every plan -/

section
variable {runs : List SparseRun} {merges : List MergeRange} {tables : List TableRange}
  {regions : List SparseRegion} {emptyCellBudget : Nat}

theorem owner_of (merge : MergeRange) (regions : List SparseRegion) (owner : SparseRegion) :
    let owner' := regions.foldl (fun owner region =>
      if intersects region.toBox merge then union owner region else owner) owner
    owner.toBox.Within owner'.toBox ∧
      ∀ region ∈ regions, intersects region.toBox merge = true →
        region.toBox.Within owner'.toBox := by
  induction regions generalizing owner with
  | nil => exact ⟨Box.Within.refl _, List.forall_mem_nil _⟩
  | cons region regions ih =>
    rw [List.foldl_cons]
    by_cases hmeet : intersects region.toBox merge = true
    · rw [if_pos hmeet]
      obtain ⟨hwithin, hall⟩ := ih (union owner region)
      exact ⟨(Box.within_hull_left _ _).trans hwithin, List.forall_mem_cons.mpr
        ⟨fun _ => (Box.within_hull_right owner.toBox region.toBox).trans hwithin, hall⟩⟩
    · rw [if_neg hmeet]
      obtain ⟨hwithin, hall⟩ := ih owner
      exact ⟨hwithin, List.forall_mem_cons.mpr ⟨fun h => absurd h hmeet, hall⟩⟩

theorem consolidateMergeOwner_ok {merge : MergeRange} {regions' : List SparseRegion}
    (h : consolidateMergeOwner regions merge = .ok regions') {range : Box}
    (hheld : Held regions range) : Held regions' range := by
  obtain ⟨u, -, h⟩ := ok_bind h
  obtain rfl := Except.ok.inj h
  obtain ⟨-, hall⟩ := owner_of merge regions (regionOfMerge merge)
  obtain ⟨region, hregion, hwithin⟩ := hheld
  by_cases hmeet : intersects region.toBox merge = true
  · exact ⟨_, List.mem_append_right _ List.mem_cons_self, hwithin.trans (hall region hregion hmeet)⟩
  · exact ⟨region, List.mem_append_left _ (List.mem_filter.mpr ⟨hregion, decide_eq_true hmeet⟩),
      hwithin⟩

theorem consolidateEach_ok {owned : List SparseRegion}
    (h : merges.foldlM consolidateMergeOwner regions = .ok owned) {range : Box}
    (hheld : Held regions range) : Held owned range := by
  induction merges generalizing regions with
  | nil =>
    obtain rfl := Except.ok.inj h
    exact hheld
  | cons merge merges ih =>
    rw [List.foldlM_cons] at h
    obtain ⟨next, hnext, h⟩ := ok_bind h
    exact ih h (consolidateMergeOwner_ok hnext hheld)

theorem consolidateMergeOwners_ok {owned : List SparseRegion}
    (h : consolidateMergeOwners regions merges = .ok owned) {range : Box}
    (hheld : Held regions range) : Held owned range := by
  obtain ⟨each, heach, h⟩ := ok_bind h
  obtain rfl := Except.ok.inj h
  obtain ⟨region, hregion, hwithin⟩ := consolidateEach_ok heach hheld
  exact ⟨region, mem_sortByPosition.mpr hregion, hwithin⟩

theorem validateMergeOwnership_ok (h : validateMergeOwnership regions merges = .ok ()) :
    ∀ merge ∈ merges, regions.countP (fun region => contains region.toBox merge) = 1 := by
  induction merges with
  | nil => exact List.forall_mem_nil _
  | cons merge merges ih =>
    unfold validateMergeOwnership at h
    obtain ⟨u, hmerge, h⟩ := ok_bind h
    exact List.forall_mem_cons.mpr ⟨not_not.mp (refuse_ok hmerge), ih h⟩

end

end IntoMarkdown.Sheet
