import IntoMarkdown.Sheet.Growing

/-! # The sweep over the regions

What one turn keeps, and what holds after all of them. -/

namespace IntoMarkdown.Sheet
open Lib

section
variable {sweep sweep' : Sweep} {region region' : SparseRegion}

/-! ## Regions put aside -/

theorem parts_expireFrom (firstRow remaining : Nat) (expirations : Expirations)
    (active : OrderedMap Nat SparseRegion) (completed : List SparseRegion) (heap : Expirations) :
    Parts ⟨remaining, active, heap, completed⟩
      (Sweep.expireFrom firstRow remaining expirations active completed) region := by
  induction expirations generalizing active completed heap with
  | nil => exact ⟨List.Sublist.refl _, (Parts.refl ⟨remaining, active, heap, completed⟩ region).cut⟩
  | cons entry rest ih =>
    obtain ⟨expires, firstColumn⟩ := entry
    rw [Sweep.expireFrom]
    split
    · exact ⟨List.Sublist.refl _, (Parts.refl ⟨remaining, active, heap, completed⟩ region).cut⟩
    · cases hfound : (active.lookup firstColumn).filter fun candidate =>
          saturatingAdd 32 candidate.lastRow 1 = expires with
      | none => exact ih active completed heap
      | some candidate =>
        have hmem : (firstColumn, candidate) ∈ active :=
          OrderedMap.lookup_eq_some.mp (Option.filter_eq_some_iff.mp hfound).1
        have hperm : (candidate :: (active.erase firstColumn).values).Perm active.values :=
          (OrderedMap.perm_erase hmem).map Prod.snd
        have hended : Parts ⟨remaining, active, heap, completed⟩
            ⟨remaining, active.erase firstColumn, heap, completed ++ [candidate]⟩ region :=
          ⟨List.filter_sublist, [candidate], rfl, hperm.subperm, fun old hold =>
            Or.inl (hperm.mem_iff.mpr hold)⟩
        exact hended.trans (ih _ _ heap) (Box.Within.refl _)

theorem remaining_expireFrom (firstRow remaining : Nat) (expirations : Expirations)
    (active : OrderedMap Nat SparseRegion) (completed : List SparseRegion) :
    (Sweep.expireFrom firstRow remaining expirations active completed).remaining = remaining := by
  induction expirations generalizing active completed with
  | nil => rfl
  | cons entry rest ih =>
    obtain ⟨expires, firstColumn⟩ := entry
    rw [Sweep.expireFrom]
    split
    · rfl
    · cases (active.lookup firstColumn).filter fun candidate =>
          saturatingAdd 32 candidate.lastRow 1 = expires with
      | none => exact ih _ _
      | some candidate => exact ih _ _

theorem parts_expire (sweep : Sweep) (firstRow : Nat) (region : SparseRegion) :
    Parts sweep (sweep.expire firstRow) region :=
  parts_expireFrom firstRow sweep.remaining sweep.expirations sweep.active sweep.completed
    sweep.expirations

theorem totalSlots_subperm {regions regions' : List SparseRegion} (h : regions.Subperm regions') :
    totalSlots regions ≤ totalSlots regions' := by
  obtain ⟨middle, hperm, hsub⟩ := h
  rw [← totalSlots_perm hperm]
  exact (hsub.map _).sum_le_sum fun _ _ => Nat.zero_le _

theorem Unmerged.parts (h : Unmerged sweep region) (hparts : Parts sweep sweep' region') :
    Unmerged sweep' region :=
  ⟨h.1, fun e he => h.2 e (hparts.active.subset he)⟩

/-- **Growth in a turn.** -/
theorem grown_of (hactive : ActiveOk sweep.active) (hregion : OnSheet region.toBox) :
    ∃ grown, sweep.grown region = .ok grown ∧ Grows sweep region grown.1 grown.2 ∧
      ∀ e ∈ grown.2.active, ¬ Beside e.2.toBox grown.1.toBox := by
  have hexpired : Grows sweep region region (sweep.expire region.firstRow) := {
    parts := parts_expire sweep region.firstRow region
    onSheet := hregion
    within := Box.Within.refl _
    remaining := Nat.le_of_eq (remaining_expireFrom _ _ _ _ _)
    slots := fun h => by
      have hparts := parts_expire sweep region.firstRow region
      have hle := totalSlots_subperm hparts.kept
      have hsame : (sweep.expire region.firstRow).remaining = sweep.remaining :=
        remaining_expireFrom _ _ _ _ _
      exact ⟨h.parts hparts, by omega⟩ }
  obtain ⟨grown, hgrown, hgrows, hclear⟩ :=
    grow_of (hactive.sublist hexpired.parts.active) hregion (Nat.le_refl _)
  exact ⟨grown, hgrown, hexpired.trans hgrows, hclear⟩

/-! ## Settling -/

theorem lookup_of_clear {active : OrderedMap Nat SparseRegion} (h : ActiveOk active)
    (hregion : OnSheet region.toBox)
    (hclear : ∀ e ∈ active, ¬ Beside e.2.toBox region.toBox) :
    active.lookup region.firstColumn = none := by
  rw [OrderedMap.lookup_eq_none]
  intro e he hkey
  have hcolumns := (h.onSheet e he).proper.columns
  have hcolumns' := hregion.proper.columns
  have := h.keys e he
  exact hclear e he ⟨by omega, by omega⟩

theorem ActiveOk.insert {active : OrderedMap Nat SparseRegion} (h : ActiveOk active)
    (hregion : OnSheet region.toBox)
    (hclear : ∀ e ∈ active, ¬ Beside e.2.toBox region.toBox) :
    ActiveOk (active.insert region.firstColumn region) where
  keys e he := by
    rcases OrderedMap.mem_insert.mp he with rfl | ⟨he, -⟩
    · rfl
    · exact h.keys e he
  onSheet e he := by
    rcases OrderedMap.mem_insert.mp he with rfl | ⟨he, -⟩
    · exact hregion
    · exact h.onSheet e he
  gaps := by
    have hcolumns := hregion.proper.columns
    have hsides (e : Nat × SparseRegion) (he : e ∈ active) :
        e.2.lastColumn + 1 < region.firstColumn ∨ region.lastColumn + 1 < e.2.firstColumn := by
      have hapart := hclear e he
      simp only [Beside] at hapart
      omega
    refine OrderedMap.pairwise_insert h.gaps (fun a ha hlt => ?_) fun b hb hlt => ?_
    · have hkey := h.keys a ha
      have hcolumns' := (h.onSheet a ha).proper.columns
      have := hsides a ha
      dsimp only
      omega
    · have hkey := h.keys b hb
      have hcolumns' := (h.onSheet b hb).proper.columns
      have := hsides b hb
      dsimp only
      omega

/-- One more active region, and nothing displaced. -/
theorem regions_settle (h : ActiveOk sweep.active) (hregion : OnSheet region.toBox)
    (hclear : ∀ e ∈ sweep.active, ¬ Beside e.2.toBox region.toBox) :
    (sweep.settle region).completed = sweep.completed ∧
      (sweep.settle region).active.values.Perm (region :: sweep.active.values) := by
  have hnew := lookup_of_clear h hregion hclear
  refine ⟨?_, (OrderedMap.perm_insert hnew).map Prod.snd⟩
  rw [Sweep.settle, hnew]
  exact List.append_nil _

/-! ## Turns -/

/-- What the sweep keeps. -/
structure SweepOk (sweep : Sweep) : Prop where
  active : ActiveOk sweep.active
  onSheet : ∀ region ∈ sweep.regions, OnSheet region.toBox

def Separate (regions : List SparseRegion) : Prop :=
  regions.Pairwise fun a b => ¬ a.toBox.Meets b.toBox

theorem Separate.subperm {regions regions' : List SparseRegion} (h : Separate regions)
    (hsub : regions'.Subperm regions) : Separate regions' := by
  obtain ⟨middle, hperm, hsub⟩ := hsub
  exact hperm.pairwise (h.sublist hsub) fun hmeet h => hmeet h.symm

/-- What a turn does. -/
structure Turns (sweep : Sweep) (region : SparseRegion) (grown : SparseRegion × Sweep)
    (sweep' : Sweep) : Prop where
  grows : Grows sweep region grown.1 grown.2
  clear : ∀ e ∈ grown.2.active, ¬ Beside e.2.toBox grown.1.toBox
  completed : sweep'.completed = grown.2.completed
  active : sweep'.active.values.Perm (grown.1 :: grown.2.active.values)
  remaining : sweep'.remaining = grown.2.remaining
  sweepOk : SweepOk sweep'

/-- **Turn.** -/
theorem turn_of (h : SweepOk sweep) (hregion : OnSheet region.toBox) :
    ∃ grown, sweep.grown region = .ok grown ∧
      sweep.turn region = .ok (grown.2.settle grown.1) ∧
      Turns sweep region grown (grown.2.settle grown.1) := by
  obtain ⟨grown, hgrown, hgrows, hclear⟩ := grown_of h.active hregion
  have hactive := h.active.sublist hgrows.parts.active
  obtain ⟨hcompleted, hperm⟩ := regions_settle hactive hgrows.onSheet hclear
  refine ⟨grown, hgrown, ?_, ⟨hgrows, hclear, hcompleted, hperm, rfl, ⟨?_, ?_⟩⟩⟩
  · exact bind_ok_iff.mpr ⟨(), validateBounds_of hregion.proper,
      bind_ok_iff.mpr ⟨grown, hgrown, rfl⟩⟩
  · exact hactive.insert hgrows.onSheet hclear
  · have hkept (r : SparseRegion) (hr : r ∈ grown.2.regions) : OnSheet r.toBox :=
      h.onSheet r (hgrows.parts.kept.subset hr)
    intro r hr
    rw [Sweep.regions, hcompleted] at hr
    rcases List.mem_append.mp hr with hr | hr
    · exact hkept r (List.mem_append_left _ hr)
    · rcases List.mem_cons.mp (hperm.mem_iff.mp hr) with rfl | hr
      · exact hgrows.onSheet
      · exact hkept r (List.mem_append_right _ hr)

/-- Two regions meet, of which one is put aside. -/
def Clash (sweep : Sweep) : Prop :=
  (∃ aside ∈ sweep.completed, ∃ going ∈ sweep.active.values, aside.toBox.Meets going.toBox) ∨
    ¬ Separate sweep.completed

theorem Clash.not_apart (h : Clash sweep) : ¬ Separate sweep.regions := by
  intro hapart
  obtain ⟨hcompleted, -, hcross⟩ := List.pairwise_append.mp hapart
  rcases h with ⟨aside, haside, going, hgoing, hmeet⟩ | h
  · exact hcross aside haside going hgoing hmeet
  · exact h hcompleted

namespace Turns
variable {grown : SparseRegion × Sweep}

theorem grown_mem (h : Turns sweep region grown sweep') : grown.1 ∈ sweep'.regions :=
  List.mem_append_right _ (h.active.mem_iff.mpr List.mem_cons_self)

theorem regions_perm (h : Turns sweep region grown sweep') :
    sweep'.regions.Perm (grown.1 :: grown.2.regions) := by
  rw [Sweep.regions, h.completed]
  exact (h.active.append_left _).trans List.perm_middle

/-- A turn loses no range. -/
theorem held (h : Turns sweep region grown sweep') {range : Box}
    (hrange : Held sweep.regions range ∨ range.Within region.toBox) :
    Held sweep'.regions range := by
  rcases hrange with ⟨old, hold, hwithin⟩ | hwithin
  · rcases h.grows.parts.held old hold with hmem | hin
    · exact ⟨old, h.regions_perm.mem_iff.mpr (List.mem_cons_of_mem _ hmem), hwithin⟩
    · exact ⟨grown.1, h.grown_mem, hwithin.trans hin⟩
  · exact ⟨grown.1, h.grown_mem, hwithin.trans h.grows.within⟩

theorem apart (h : Turns sweep region grown sweep') (hapart : Separate sweep.regions)
    (haside : ∀ aside ∈ grown.2.completed, ¬ grown.1.toBox.Meets aside.toBox) :
    Separate sweep'.regions := by
  have hgrown : Separate (grown.1 :: grown.2.regions) := by
    refine List.pairwise_cons.mpr ⟨fun other hother => ?_, hapart.subperm h.grows.parts.kept⟩
    rcases List.mem_append.mp hother with hother | hother
    · exact haside other hother
    · obtain ⟨e, he, rfl⟩ := List.mem_map.mp hother
      intro hmeet
      exact h.clear e he ⟨hmeet.2.2.2.trans (Nat.le_succ _), hmeet.2.2.1.trans (Nat.le_succ _)⟩
  exact hgrown.subperm h.regions_perm.subperm

theorem clash (h : Turns sweep region grown sweep') (hclash : Clash sweep) : Clash sweep' := by
  obtain ⟨aside, hcompleted, -, hheld⟩ := h.grows.parts.cut
  rcases hclash with ⟨old, hold, going, hgoing, hmeet⟩ | hclash
  · rcases hheld going hgoing with hmem | hin
    · rcases List.mem_append.mp hmem with hmem | hmem
      · refine Or.inr fun hapart => ?_
        rw [h.completed, hcompleted] at hapart
        exact (List.pairwise_append.mp hapart).2.2 old hold going hmem hmeet
      · refine Or.inl ⟨old, ?_, going, h.active.mem_iff.mpr (List.mem_cons_of_mem _ hmem), hmeet⟩
        rw [h.completed, hcompleted]
        exact List.mem_append_left _ hold
    · refine Or.inl ⟨old, ?_, grown.1, h.active.mem_iff.mpr List.mem_cons_self,
        hmeet.within (Box.Within.refl _) hin⟩
      rw [h.completed, hcompleted]
      exact List.mem_append_left _ hold
  · refine Or.inr fun hapart => hclash ?_
    rw [h.completed, hcompleted] at hapart
    exact (List.pairwise_append.mp hapart).1

theorem clash_of_meets (h : Turns sweep region grown sweep')
    (hmeets : ∃ aside ∈ grown.2.completed, grown.1.toBox.Meets aside.toBox) : Clash sweep' := by
  obtain ⟨aside, haside, hmeet⟩ := hmeets
  exact Or.inl ⟨aside, h.completed ▸ haside, grown.1, h.active.mem_iff.mpr List.mem_cons_self,
    hmeet.symm⟩

theorem slots (h : Turns sweep region grown sweep') (hunmerged : Unmerged sweep region) :
    (∀ e ∈ sweep'.active.values, e.containsMerge = false) ∧
      totalSlots sweep'.regions + sweep'.remaining ≤
        totalSlots sweep.regions + region.toBox.slots + sweep.remaining := by
  obtain ⟨⟨hmerge, hactive⟩, hle⟩ := h.grows.slots hunmerged
  constructor
  · intro e he
    rcases List.mem_cons.mp (h.active.mem_iff.mp he) with rfl | he
    · exact hmerge
    · obtain ⟨entry, hentry, rfl⟩ := List.mem_map.mp he
      exact hactive entry hentry
  · rw [totalSlots_perm h.regions_perm, h.remaining]
    have hcons : totalSlots (grown.1 :: grown.2.regions) =
        grown.1.toBox.slots + totalSlots grown.2.regions := List.sum_cons
    omega

end Turns

end

/-! ## Runs of turns -/

/-- No region that is formed meets one that has been put aside. -/
def Sweep.keepsApart : Sweep → List SparseRegion → Bool
  | _, [] => true
  | sweep, region :: rest =>
    match sweep.grown region with
    | .error _ => false
    | .ok grown => grown.2.completed.all (fun aside => !intersects grown.1.toBox aside.toBox) &&
        keepsApart (grown.2.settle grown.1) rest

/-- What all turns together do. -/
structure Sweeps (sweep : Sweep) (regions : List SparseRegion) (sweep' : Sweep) : Prop where
  sweepOk : SweepOk sweep'
  held : ∀ range, Held sweep.regions range ∨ Held regions range → Held sweep'.regions range
  apart : Separate sweep.regions → sweep.keepsApart regions = true → Separate sweep'.regions
  clash : Clash sweep ∨ sweep.keepsApart regions = false → Clash sweep'
  remaining : sweep'.remaining ≤ sweep.remaining
  slots : (∀ e ∈ sweep.active.values, e.containsMerge = false) →
    (∀ region ∈ regions, region.containsMerge = false) →
      totalSlots sweep'.regions + sweep'.remaining ≤
        totalSlots sweep.regions + totalSlots regions + sweep.remaining

/-- **Sweep.** -/
theorem turns_of {sweep : Sweep} {regions : List SparseRegion} (h : SweepOk sweep)
    (hregions : ∀ region ∈ regions, OnSheet region.toBox) :
    ∃ sweep', regions.foldlM Sweep.turn sweep = .ok sweep' ∧ Sweeps sweep regions sweep' := by
  induction regions generalizing sweep with
  | nil =>
    refine ⟨sweep, rfl, h, ?_, fun hapart _ => hapart, ?_, Nat.le_refl _, fun _ _ => Nat.le_refl _⟩
    · rintro range (hrange | ⟨region, hregion, -⟩)
      · exact hrange
      · cases hregion
    · rintro (hclash | hnot)
      · exact hclash
      · cases hnot
  | cons region regions ih =>
    obtain ⟨hregion, hregions⟩ := List.forall_mem_cons.mp hregions
    obtain ⟨grown, hgrown, hturn, hturns⟩ := turn_of h hregion
    obtain ⟨sweep', hrest, hsweeps⟩ := ih hturns.sweepOk hregions
    have hkeeps : sweep.keepsApart (region :: regions) =
        (grown.2.completed.all (fun aside => !intersects grown.1.toBox aside.toBox) &&
          (grown.2.settle grown.1).keepsApart regions) := by
      rw [Sweep.keepsApart, hgrown]
    refine ⟨sweep', by rw [List.foldlM_cons, hturn]; exact hrest, hsweeps.sweepOk, ?_, ?_, ?_,
      hsweeps.remaining.trans (hturns.remaining ▸ hturns.grows.remaining), ?_⟩
    · rintro range (hrange | ⟨other, hother, hwithin⟩)
      · exact hsweeps.held range (Or.inl (hturns.held (Or.inl hrange)))
      · rcases List.mem_cons.mp hother with rfl | hother
        · exact hsweeps.held range (Or.inl (hturns.held (Or.inr hwithin)))
        · exact hsweeps.held range (Or.inr ⟨other, hother, hwithin⟩)
    · intro hapart hall
      rw [hkeeps, Bool.and_eq_true, List.all_eq_true] at hall
      refine hsweeps.apart (hturns.apart hapart fun aside haside hmeet => ?_) hall.2
      have hnot := hall.1 aside haside
      rw [intersects_iff.mpr hmeet] at hnot
      cases hnot
    · rintro (hclash | hnot)
      · exact hsweeps.clash (Or.inl (hturns.clash hclash))
      · rw [hkeeps, Bool.and_eq_false_iff, List.all_eq_false] at hnot
        rcases hnot with ⟨aside, haside, hmeet⟩ | hnot
        · refine hsweeps.clash (Or.inl (hturns.clash_of_meets ⟨aside, haside, ?_⟩))
          exact intersects_iff.mp (by simpa using hmeet)
        · exact hsweeps.clash (Or.inr hnot)
    · intro hactive hmerges
      obtain ⟨hmerge, hmerges⟩ := List.forall_mem_cons.mp hmerges
      obtain ⟨hactive', hle⟩ := hturns.slots ⟨hmerge, fun e he =>
        hactive e.2 (List.mem_map.mpr ⟨e, he, rfl⟩)⟩
      have hle' := hsweeps.slots hactive' hmerges
      have hcons : totalSlots (region :: regions) =
          region.toBox.slots + totalSlots regions := List.sum_cons
      omega

end IntoMarkdown.Sheet
