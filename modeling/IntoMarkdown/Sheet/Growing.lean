import IntoMarkdown.Sheet.InputRegions

/-! # How a region grows

A region takes in the active regions beside its columns until none is left there, or puts them
aside where that would take in too many empty cells. -/

namespace IntoMarkdown.Sheet
open Lib

/-- The columns of two boxes meet or are next to each other. -/
def Beside (a b : Box) : Prop :=
  a.firstColumn ≤ b.lastColumn + 1 ∧ b.firstColumn ≤ a.lastColumn + 1

instance (a b : Box) : Decidable (Beside a b) := inferInstanceAs (Decidable (_ ∧ _))

/-- The active regions, with a column free between any two. -/
structure ActiveOk (active : OrderedMap Nat SparseRegion) : Prop where
  keys : ∀ e ∈ active, e.1 = e.2.firstColumn
  onSheet : ∀ e ∈ active, OnSheet e.2.toBox
  gaps : active.entries.Pairwise fun a b => a.2.lastColumn + 1 < b.2.firstColumn

theorem activeOk_empty : ActiveOk .empty where
  keys e he := absurd he (OrderedMap.not_mem_empty e)
  onSheet e he := absurd he (OrderedMap.not_mem_empty e)
  gaps := .nil

theorem OnSheet.saturatingAdd_column {range : Box} (h : OnSheet range) :
    saturatingAdd 32 range.lastColumn 1 = range.lastColumn + 1 := by
  have hgrid := h.grid.2
  have : maxExcelColumns < 2 ^ 32 - 1 := by decide
  rw [saturatingAdd]
  omega

theorem area_of {range : Box} (h : OnSheet range) : area range = .ok range.slots := by
  have hrows : range.lastRow - range.firstRow + 1 ≤ maxExcelRows := by
    have : range.lastRow < maxExcelRows := h.grid.1
    omega
  have hcolumns : range.lastColumn - range.firstColumn + 1 ≤ maxExcelColumns := by
    have : range.lastColumn < maxExcelColumns := h.grid.2
    omega
  exact if_pos (Nat.lt_of_le_of_lt (Nat.mul_le_mul hrows hcolumns) (by decide))

section
variable {active active' : OrderedMap Nat SparseRegion} {region : SparseRegion}

/-- What is active is so without some of it. -/
theorem ActiveOk.sublist (h : ActiveOk active) (hsub : active'.entries.Sublist active.entries) :
    ActiveOk active' where
  keys e he := h.keys e (hsub.subset he)
  onSheet e he := h.onSheet e (hsub.subset he)
  gaps := h.gaps.sublist hsub

/-! ## Candidates -/

/-- The candidates among the regions that begin behind the first column. -/
theorem candidates_behind {back : List (Nat × SparseRegion)} {before : Option (Nat × SparseRegion)}
    (h : ActiveOk active)
    (hback : ∀ e ∈ back, e ∈ active ∧ region.firstColumn < e.1)
    (hbefore : ∀ p ∈ before, p.1 ≤ region.firstColumn) :
    (back.filter fun e => region.firstColumn ≤ e.1 ∧ e.1 ≤ region.lastColumn + 1).filter
        (fun e => e.2.firstColumn ≤ region.lastColumn + 1 ∧ before.map (·.1) ≠ some e.1) =
      back.filter fun e => Beside e.2.toBox region.toBox := by
  rw [List.filter_filter]
  refine List.filter_congr fun e he => ?_
  obtain ⟨hmem, hlt⟩ := hback e he
  have hkey := h.keys e hmem
  have hcolumns := (h.onSheet e hmem).proper.columns
  have hnew : before.map (·.1) ≠ some e.1 := by
    intro hsome
    obtain ⟨p, hp, hkey'⟩ := Option.map_eq_some_iff.mp hsome
    have := hbefore p hp
    omega
  rw [Bool.eq_iff_iff, Bool.and_eq_true, decide_eq_true_eq, decide_eq_true_eq, decide_eq_true_eq]
  constructor
  · rintro ⟨⟨hle, -⟩, -⟩
    exact ⟨hle, by omega⟩
  · rintro ⟨hle, -⟩
    exact ⟨⟨hle, hnew⟩, by omega, by omega⟩

/-- **Candidates.** Exactly the active regions beside a region, in order. -/
theorem candidates_eq {sweep : Sweep} (h : ActiveOk sweep.active)
    (hregion : OnSheet region.toBox) :
    sweep.candidates region =
      sweep.active.entries.filter fun e => Beside e.2.toBox region.toBox := by
  have hcut := sweep.active.entries_cut region.firstColumn
  have hcolumns := hregion.proper.columns
  unfold Sweep.candidates OrderedMap.atMost OrderedMap.between
  rw [hregion.saturatingAdd_column]
  generalize hfront : sweep.active.entries.filter (·.1 ≤ region.firstColumn) = front at hcut ⊢
  generalize hback : sweep.active.entries.filter (region.firstColumn < ·.1) = back at hcut
  have hmemFront (e : Nat × SparseRegion) (he : e ∈ front) :
      e ∈ sweep.active ∧ e.1 ≤ region.firstColumn := by
    rw [← hfront, List.mem_filter, decide_eq_true_eq] at he
    exact he
  have hmemBack (e : Nat × SparseRegion) (he : e ∈ back) :
      e ∈ sweep.active ∧ region.firstColumn < e.1 := by
    rw [← hback, List.mem_filter, decide_eq_true_eq] at he
    exact he
  have hgaps := h.gaps
  rw [hcut] at hgaps ⊢
  dsimp only
  rw [List.filter_append, List.filter_append, List.filter_append,
    candidates_behind h hmemBack fun p hp =>
      (hmemFront p (List.mem_of_getLast? (Option.filter_eq_some_iff.mp hp).1)).2]
  rw [← List.append_assoc]
  congr 1
  rcases List.eq_nil_or_concat' front with rfl | ⟨rest, p, rfl⟩
  · rfl
  · have hp : p ∈ rest ++ [p] := by simp
    obtain ⟨hpActive, hpKey⟩ := hmemFront p hp
    have hpFirst := h.keys p hpActive
    have hpColumns := (h.onSheet p hpActive).proper.columns
    have hsaturating := (h.onSheet p hpActive).saturatingAdd_column
    -- a column is free before the last one, so that no other reaches the region
    have hrest (e : Nat × SparseRegion) (he : e ∈ rest) :
        e.2.lastColumn + 1 < p.2.firstColumn :=
      (List.pairwise_append.mp (List.pairwise_append.mp hgaps).1).2.2 e he p List.mem_cons_self
    have hnone : rest.filter (fun e => Beside e.2.toBox region.toBox) = [] := by
      rw [List.filter_eq_nil_iff]
      intro e he hbeside
      have := hrest e he
      have := (of_decide_eq_true hbeside).2
      omega
    have hkeys (e : Nat × SparseRegion) (he : e ∈ rest) : e.1 < region.firstColumn := by
      have hmem := (hmemFront e (List.mem_append_left _ he)).1
      have := h.keys e hmem
      have := (h.onSheet e hmem).proper.columns
      have := hrest e he
      omega
    have hrestNone (q : Nat × SparseRegion → Bool) : (rest.filter fun e =>
        region.firstColumn ≤ e.1 ∧ e.1 ≤ region.lastColumn + 1).filter q = [] := by
      rw [List.filter_filter, List.filter_eq_nil_iff]
      intro e he hq
      have := hkeys e he
      simp only [Bool.and_eq_true, decide_eq_true_eq] at hq
      omega
    rw [List.getLast?_concat, List.filter_append, List.filter_append, List.filter_append, hnone,
      hrestNone, List.nil_append, List.nil_append, Option.filter_some, hsaturating]
    by_cases hreaches : region.firstColumn ≤ p.2.lastColumn + 1
    · have hbeside : Beside p.2.toBox region.toBox := ⟨by omega, hreaches⟩
      rw [if_pos (decide_eq_true hreaches)]
      simp [hbeside]
    · have hbeside : ¬ Beside p.2.toBox region.toBox := fun h => hreaches h.2
      have hkey : ¬ region.firstColumn ≤ p.1 := by omega
      rw [if_neg (by simpa using hreaches)]
      simp [hbeside, hkey]

theorem entries_without (active : OrderedMap Nat SparseRegion)
    (candidates : List (Nat × SparseRegion)) :
    (Sweep.without active candidates).entries =
      active.entries.filter fun e => ∀ c ∈ candidates, e.1 ≠ c.1 := by
  unfold Sweep.without
  induction candidates generalizing active with
  | nil => simp
  | cons c candidates ih =>
    rw [List.foldl_cons, ih, OrderedMap.erase, List.filter_filter]
    refine List.filter_congr fun e _ => ?_
    simp only [List.forall_mem_cons, Bool.decide_and, Bool.and_comm]

/-- What is left is not beside the region. -/
theorem entries_without_candidates :
    (Sweep.without active (active.entries.filter fun e => Beside e.2.toBox region.toBox)).entries =
      active.entries.filter fun e => ¬ Beside e.2.toBox region.toBox := by
  rw [entries_without]
  refine List.filter_congr fun e he => decide_eq_decide.mpr ⟨fun hnone hbeside => ?_,
    fun hapart c hc heq => ?_⟩
  · exact hnone e (List.mem_filter.mpr ⟨he, decide_eq_true hbeside⟩) rfl
  · obtain ⟨hmem, hbeside⟩ := List.mem_filter.mp hc
    obtain ⟨key, value⟩ := c
    obtain ⟨key', value'⟩ := e
    obtain rfl : key' = key := heq
    obtain rfl := OrderedMap.eq_of_mem (m := active) he hmem
    exact hapart (of_decide_eq_true hbeside)

/-! ## The union -/

theorem combined_of {candidates : List (Nat × SparseRegion)} (hregion : OnSheet region.toBox)
    (hcandidates : ∀ c ∈ candidates, OnSheet c.2.toBox) :
    OnSheet (Sweep.combined region candidates).toBox ∧
      region.toBox.Within (Sweep.combined region candidates).toBox ∧
      ∀ c ∈ candidates, c.2.toBox.Within (Sweep.combined region candidates).toBox := by
  unfold Sweep.combined
  induction candidates generalizing region with
  | nil => exact ⟨hregion, Box.Within.refl _, List.forall_mem_nil _⟩
  | cons c candidates ih =>
    obtain ⟨hc, hcandidates⟩ := List.forall_mem_cons.mp hcandidates
    have hunion : OnSheet (union region c.2).toBox := hregion.hull hc
    obtain ⟨honSheet, hwithin, hall⟩ := ih hunion hcandidates
    exact ⟨honSheet, (Box.within_hull_left _ _).trans hwithin, List.forall_mem_cons.mpr
      ⟨(Box.within_hull_right region.toBox c.2.toBox).trans hwithin, hall⟩⟩

theorem combined_containsMerge {candidates : List (Nat × SparseRegion)}
    (hregion : region.containsMerge = false)
    (hcandidates : ∀ c ∈ candidates, c.2.containsMerge = false) :
    (Sweep.combined region candidates).containsMerge = false := by
  unfold Sweep.combined
  induction candidates generalizing region with
  | nil => exact hregion
  | cons c candidates ih =>
    obtain ⟨hc, hcandidates⟩ := List.forall_mem_cons.mp hcandidates
    have hunion : (region.containsMerge || c.2.containsMerge) = false := by
      rw [hregion, hc]
      rfl
    exact ih hunion hcandidates

theorem foldl_saturatingAdd_le (values : List Nat) (n : Nat) :
    values.foldl (saturatingAdd 64) n ≤ n + values.sum := by
  induction values generalizing n with
  | nil => exact Nat.le_refl _
  | cons value values ih =>
    rw [List.foldl_cons, List.sum_cons]
    refine (ih _).trans ?_
    rw [saturatingAdd]
    omega

/-- The empty cells that a union takes in are at least what it has more than its parts. -/
theorem extraCells_of {candidates : List (Nat × SparseRegion)} (hregion : OnSheet region.toBox)
    (hcandidates : ∀ c ∈ candidates, OnSheet c.2.toBox) :
    ∃ extra, Sweep.extraCells region candidates = .ok extra ∧
      (Sweep.combined region candidates).toBox.slots ≤
        region.toBox.slots + totalSlots (candidates.map (·.2)) + extra := by
  have hareas : candidates.mapM (fun c => area c.2.toBox) =
      .ok (candidates.map fun c => c.2.toBox.slots) := by
    rw [mapM_ok_iff]
    induction candidates with
    | nil => exact .nil
    | cons c candidates ih =>
      obtain ⟨hc, hcandidates⟩ := List.forall_mem_cons.mp hcandidates
      exact .cons (area_of hc) (ih hcandidates)
  refine ⟨_, bind_ok_iff.mpr ⟨_, area_of hregion, bind_ok_iff.mpr ⟨_, hareas,
    bind_ok_iff.mpr ⟨_, area_of (combined_of hregion hcandidates).1, rfl⟩⟩⟩, ?_⟩
  have hle := foldl_saturatingAdd_le (candidates.map fun c => c.2.toBox.slots) region.toBox.slots
  have hsum : totalSlots (candidates.map (·.2)) =
      (candidates.map fun c => c.2.toBox.slots).sum := by
    rw [totalSlots, List.map_map]
    rfl
  rw [hsum]
  omega

end

/-! ## Growing -/

section
variable {sweep sweep' : Sweep} {region region' : SparseRegion}

/-- All regions of a sweep. -/
def Sweep.regions (sweep : Sweep) : List SparseRegion := sweep.completed ++ sweep.active.values

/-- No merged range is in the sweep or in the region. -/
def Unmerged (sweep : Sweep) (region : SparseRegion) : Prop :=
  region.containsMerge = false ∧ ∀ e ∈ sweep.active, e.2.containsMerge = false

/-- What becomes of the active regions: they go on, are put aside, or are in another region. -/
structure Parts (sweep sweep' : Sweep) (region' : SparseRegion) : Prop where
  active : sweep'.active.entries.Sublist sweep.active.entries
  cut : ∃ aside, sweep'.completed = sweep.completed ++ aside ∧
    (aside ++ sweep'.active.values).Subperm sweep.active.values ∧
    ∀ old ∈ sweep.active.values,
      old ∈ aside ++ sweep'.active.values ∨ old.toBox.Within region'.toBox

theorem Parts.refl (sweep : Sweep) (region : SparseRegion) : Parts sweep sweep region where
  active := List.Sublist.refl _
  cut := ⟨[], (List.append_nil _).symm, List.Subperm.refl _, fun _ h => Or.inl h⟩

theorem Parts.trans {sweep'' : Sweep} {region'' : SparseRegion} (h : Parts sweep sweep' region')
    (h' : Parts sweep' sweep'' region'') (hwithin : region'.toBox.Within region''.toBox) :
    Parts sweep sweep'' region'' where
  active := h'.active.trans h.active
  cut := by
    obtain ⟨aside, hcompleted, hsub, hheld⟩ := h.cut
    obtain ⟨aside', hcompleted', hsub', hheld'⟩ := h'.cut
    refine ⟨aside ++ aside', by rw [hcompleted', hcompleted, List.append_assoc], ?_, ?_⟩
    · rw [List.append_assoc]
      exact ((List.subperm_append_left aside).mpr hsub').trans hsub
    · intro old hold
      rw [List.append_assoc]
      rcases hheld old hold with hmem | hin
      · rcases List.mem_append.mp hmem with hmem | hmem
        · exact Or.inl (List.mem_append_left _ hmem)
        · exact (hheld' old hmem).imp_left fun hmem => List.mem_append_right _ hmem
      · exact Or.inr (hin.trans hwithin)

theorem Parts.kept (h : Parts sweep sweep' region') : sweep'.regions.Subperm sweep.regions := by
  obtain ⟨aside, hcompleted, hsub, -⟩ := h.cut
  rw [Sweep.regions, hcompleted, List.append_assoc]
  exact (List.subperm_append_left sweep.completed).mpr hsub

theorem Parts.held (h : Parts sweep sweep' region') :
    ∀ old ∈ sweep.regions, old ∈ sweep'.regions ∨ old.toBox.Within region'.toBox := by
  obtain ⟨aside, hcompleted, -, hheld⟩ := h.cut
  intro old hold
  rw [Sweep.regions, hcompleted, List.append_assoc]
  rcases List.mem_append.mp hold with hold | hold
  · exact Or.inl (List.mem_append_left _ hold)
  · exact (hheld old hold).imp_left fun hmem => List.mem_append_right _ hmem

/-- What a region has grown to. -/
structure Grows (sweep : Sweep) (region region' : SparseRegion) (sweep' : Sweep) : Prop where
  parts : Parts sweep sweep' region'
  onSheet : OnSheet region'.toBox
  within : region.toBox.Within region'.toBox
  remaining : sweep'.remaining ≤ sweep.remaining
  /-- The slots and the budget together do not grow. -/
  slots : Unmerged sweep region → Unmerged sweep' region' ∧
    totalSlots sweep'.regions + region'.toBox.slots + sweep'.remaining ≤
      totalSlots sweep.regions + region.toBox.slots + sweep.remaining

theorem Grows.refl (hregion : OnSheet region.toBox) : Grows sweep region region sweep where
  parts := Parts.refl sweep region
  onSheet := hregion
  within := Box.Within.refl _
  remaining := Nat.le_refl _
  slots h := ⟨h, Nat.le_refl _⟩

theorem Grows.trans {sweep'' : Sweep} {region'' : SparseRegion}
    (h : Grows sweep region region' sweep') (h' : Grows sweep' region' region'' sweep'') :
    Grows sweep region region'' sweep'' where
  parts := h.parts.trans h'.parts h'.within
  onSheet := h'.onSheet
  within := h.within.trans h'.within
  remaining := h'.remaining.trans h.remaining
  slots hunmerged := by
    obtain ⟨hunmerged', hle⟩ := h.slots hunmerged
    obtain ⟨hunmerged'', hle'⟩ := h'.slots hunmerged'
    exact ⟨hunmerged'', hle'.trans hle⟩

/-- The active regions beside the region. -/
def besides (sweep : Sweep) (region : SparseRegion) : List (Nat × SparseRegion) :=
  sweep.active.entries.filter fun e => Beside e.2.toBox region.toBox

/-- The active regions are those beside the region and the others. -/
theorem values_cut (sweep : Sweep) (region : SparseRegion) :
    ((besides sweep region).map (·.2) ++
      (Sweep.without sweep.active (besides sweep region)).values).Perm sweep.active.values := by
  rw [OrderedMap.values, besides, entries_without_candidates, ← List.map_append]
  have hperm := List.filter_append_perm (fun e => decide (Beside e.2.toBox region.toBox))
    sweep.active.entries
  exact (by simpa using hperm : List.Perm _ _).map _

theorem sublist_without (sweep : Sweep) (region : SparseRegion) :
    (Sweep.without sweep.active (besides sweep region)).entries.Sublist sweep.active.entries := by
  rw [besides, entries_without_candidates]
  exact List.filter_sublist

theorem clear_without (sweep : Sweep) (region : SparseRegion) :
    ∀ e ∈ Sweep.without sweep.active (besides sweep region), ¬ Beside e.2.toBox region.toBox := by
  intro e he
  rw [OrderedMap.mem_def, besides, entries_without_candidates] at he
  exact of_decide_eq_true (List.mem_filter.mp he).2

theorem totalSlots_perm {regions regions' : List SparseRegion} (h : regions.Perm regions') :
    totalSlots regions = totalSlots regions' := (h.map _).sum_eq

theorem Unmerged.without {remaining : Nat} {completed : List SparseRegion}
    (h : Unmerged sweep region) (hregion : region'.containsMerge = false) :
    Unmerged ⟨remaining, Sweep.without sweep.active (besides sweep region), sweep.expirations,
      completed⟩ region' :=
  ⟨hregion, fun e he => h.2 e ((sublist_without sweep region).subset he)⟩

/-- Too many empty cells: what is beside the region is put aside. -/
theorem grows_aside (hregion : OnSheet region.toBox) :
    Grows sweep region region { sweep with
      active := Sweep.without sweep.active (besides sweep region)
      completed := sweep.completed ++ (besides sweep region).map (·.2) } := by
  have hperm : (sweep.completed ++ (besides sweep region).map (·.2) ++
      (Sweep.without sweep.active (besides sweep region)).values).Perm sweep.regions := by
    rw [List.append_assoc]
    exact (values_cut sweep region).append_left _
  exact {
    parts := {
      active := sublist_without sweep region
      cut := ⟨_, rfl, (values_cut sweep region).subperm, fun old hold =>
        Or.inl ((values_cut sweep region).mem_iff.mpr hold)⟩ }
    onSheet := hregion
    within := Box.Within.refl _
    remaining := Nat.le_refl _
    slots := fun h => ⟨h.without h.1, by
      rw [← totalSlots_perm hperm]
      exact Nat.le_refl _⟩ }

/-- What is beside the region becomes part of it. -/
theorem grows_union {extra remaining : Nat} (hactive : ActiveOk sweep.active)
    (hregion : OnSheet region.toBox) (hremaining : remaining ≤ sweep.remaining)
    (hextra : (Sweep.combined region (besides sweep region)).toBox.slots ≤
      region.toBox.slots + totalSlots ((besides sweep region).map (·.2)) + extra)
    (hspent : Unmerged sweep region → extra + remaining ≤ sweep.remaining) :
    Grows sweep region (Sweep.combined region (besides sweep region)) { sweep with
      active := Sweep.without sweep.active (besides sweep region)
      remaining } := by
  have honSheet (c : Nat × SparseRegion) (hc : c ∈ besides sweep region) : OnSheet c.2.toBox :=
    hactive.onSheet c (List.mem_filter.mp hc).1
  obtain ⟨hcombined, hwithin, hall⟩ := combined_of hregion honSheet
  have hperm := values_cut sweep region
  exact {
    parts := {
      active := sublist_without sweep region
      cut := by
        refine ⟨[], (List.append_nil _).symm, ((sublist_without sweep region).map _).subperm, ?_⟩
        intro old hold
        rcases List.mem_append.mp (hperm.mem_iff.mpr hold) with hold | hold
        · obtain ⟨c, hc, rfl⟩ := List.mem_map.mp hold
          exact Or.inr (hall c hc)
        · exact Or.inl hold }
    onSheet := hcombined
    within := hwithin
    remaining := hremaining
    slots := by
      intro h
      have hcandidates (c : Nat × SparseRegion) (hc : c ∈ besides sweep region) :
          c.2.containsMerge = false := h.2 c (List.mem_filter.mp hc).1
      refine ⟨h.without (combined_containsMerge h.1 hcandidates), ?_⟩
      have hspent := hspent h
      have htotal := totalSlots_perm hperm
      rw [totalSlots_append] at htotal
      simp only [Sweep.regions, totalSlots_append]
      omega }

theorem mandatoryMerge_of_unmerged (h : Unmerged sweep region) :
    Sweep.mandatoryMerge region (besides sweep region) = false := by
  rw [Sweep.mandatoryMerge, List.any_eq_false]
  intro c hc
  simp [h.1, h.2 c (List.mem_filter.mp hc).1]

theorem grow_succ (fuel : Nat) (hactive : ActiveOk sweep.active) (hregion : OnSheet region.toBox) :
    Sweep.grow (fuel + 1) sweep region =
      if besides sweep region = [] then .ok (region, sweep)
      else Sweep.extraCells region (besides sweep region) >>= fun extra =>
        if ¬ Sweep.mandatoryMerge region (besides sweep region) ∧ sweep.remaining < extra then
          .ok (region, { sweep with
            active := Sweep.without sweep.active (besides sweep region)
            completed := sweep.completed ++ (besides sweep region).map (·.2) })
        else
          Sweep.grow fuel { sweep with
            active := Sweep.without sweep.active (besides sweep region)
            remaining := if Sweep.mandatoryMerge region (besides sweep region) then sweep.remaining
              else sweep.remaining - extra } (Sweep.combined region (besides sweep region)) := by
  rw [Sweep.grow, candidates_eq hactive hregion]
  rfl

/-- **Growth.** The induction is on the active regions, of which each turn takes one out. -/
theorem grow_of {fuel : Nat} (hactive : ActiveOk sweep.active) (hregion : OnSheet region.toBox)
    (hfuel : sweep.active.entries.length ≤ fuel) :
    ∃ grown, Sweep.grow fuel sweep region = .ok grown ∧
      Grows sweep region grown.1 grown.2 ∧
      ∀ e ∈ grown.2.active, ¬ Beside e.2.toBox grown.1.toBox := by
  induction fuel generalizing sweep region with
  | zero =>
    refine ⟨(region, sweep), rfl, Grows.refl hregion, fun e he => ?_⟩
    rw [OrderedMap.mem_def, List.length_eq_zero_iff.mp (Nat.le_zero.mp hfuel)] at he
    cases he
  | succ fuel ih =>
    rw [grow_succ fuel hactive hregion]
    by_cases hnone : besides sweep region = []
    · rw [if_pos hnone]
      refine ⟨(region, sweep), rfl, Grows.refl hregion, fun e he hbeside => ?_⟩
      exact List.filter_eq_nil_iff.mp hnone e he (decide_eq_true hbeside)
    · have honSheet (c : Nat × SparseRegion) (hc : c ∈ besides sweep region) : OnSheet c.2.toBox :=
        hactive.onSheet c (List.mem_filter.mp hc).1
      obtain ⟨extra, hextra, hslots⟩ := extraCells_of hregion honSheet
      have hbind (next : Nat → Except ConversionError (SparseRegion × Sweep)) :
          Except.ok extra >>= next = next extra := rfl
      rw [if_neg hnone, hextra, hbind]
      split
      · exact ⟨_, rfl, grows_aside hregion, clear_without sweep region⟩
      · rename_i henough
        generalize hremaining : (if Sweep.mandatoryMerge region (besides sweep region) = true then
          sweep.remaining else sweep.remaining - extra) = remaining
        have hunion : Grows sweep region (Sweep.combined region (besides sweep region)) { sweep with
            active := Sweep.without sweep.active (besides sweep region)
            remaining } := by
          refine grows_union hactive hregion ?_ hslots fun hunmerged => ?_
          · split at hremaining <;> omega
          · have hfree := mandatoryMerge_of_unmerged hunmerged
            rw [hfree] at hremaining henough
            simp only [Bool.false_eq_true, not_false_eq_true, true_and, if_false] at hremaining henough
            omega
        have hfewer : (Sweep.without sweep.active (besides sweep region)).entries.length ≤ fuel := by
          have hperm := (values_cut sweep region).length_eq
          have hpos := List.length_pos_iff.mpr hnone
          simp only [OrderedMap.values, List.length_append, List.length_map] at hperm
          omega
        obtain ⟨grown, hgrown, hgrows, hclear⟩ :=
          ih (hactive.sublist hunion.parts.active) hunion.onSheet hfewer
        exact ⟨grown, hgrown, hunion.trans hgrows, hclear⟩

end

end IntoMarkdown.Sheet
