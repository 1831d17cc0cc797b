import IntoMarkdown.Sheet.Regions

/-! # Ranges that are apart

Ranges of which no two meet pass the check of a sweep over their rows. -/

namespace IntoMarkdown.Sheet
open Lib

/-! ## Boxes -/

theorem intersects_iff {a b : Box} : intersects a b = true ↔ a.Meets b := by
  simp [intersects, Box.Meets, and_assoc]

theorem contains_iff {a b : Box} : contains a b = true ↔ b.Within a := by
  simp only [contains, Bool.and_eq_true, decide_eq_true_eq, and_assoc]
  exact ⟨fun h => ⟨h.1, h.2.1, h.2.2.1, h.2.2.2⟩, fun h => ⟨h.1, h.2, h.3, h.4⟩⟩

@[simp] theorem union_toBox (left right : SparseRegion) :
    (union left right).toBox = left.toBox.hull right.toBox := rfl

theorem validateBounds_of {reversed : String} {range : Box} (h : range.Proper) :
    validateBounds reversed range = .ok () :=
  refuse_of_not (not_or.mpr ⟨Nat.not_lt.mpr h.rows, Nat.not_lt.mpr h.columns⟩)

theorem validateBounds_ok_iff {reversed : String} {range : Box} :
    validateBounds reversed range = .ok () ↔ range.Proper := by
  refine ⟨fun h => ?_, validateBounds_of⟩
  obtain ⟨hrows, hcolumns⟩ := not_or.mp (refuse_ok h)
  exact ⟨Nat.not_lt.mp hrows, Nat.not_lt.mp hcolumns⟩

/-! ## Orders -/

theorem positionLe_row {a b : Box} (h : positionLe a b) : a.firstRow ≤ b.firstRow := by
  rcases h with h | h
  · exact Nat.le_of_lt h
  · exact Nat.le_of_eq h.1

section
variable {α : Type} {place : α → Box} {values : List α}

theorem perm_sortByPosition : (sortByPosition place values).Perm values :=
  List.perm_insertionSort _ _

@[simp] theorem mem_sortByPosition {a : α} : a ∈ sortByPosition place values ↔ a ∈ values :=
  perm_sortByPosition.mem_iff

theorem sorted_sortByPosition :
    (sortByPosition place values).Pairwise fun a b => (place a).firstRow ≤ (place b).firstRow := by
  have htotal : Std.Total fun a b => positionLe (place a) (place b) := by
    refine ⟨fun a b => ?_⟩
    simp only [positionLe]
    omega
  have htrans : IsTrans α fun a b => positionLe (place a) (place b) := by
    refine ⟨fun a b c => ?_⟩
    simp only [positionLe]
    omega
  exact (List.pairwise_insertionSort _ values).imp positionLe_row

end

theorem earlier_le {a b : Nat × Nat} (h : earlier a b) : a.1 ≤ b.1 := by
  rcases h with h | h
  · exact Nat.le_of_lt h
  · exact Nat.le_of_eq h.1

theorem earlier_total : Std.Total earlier := by
  refine ⟨fun a b => ?_⟩
  simp only [earlier]
  omega

theorem earlier_trans : IsTrans (Nat × Nat) earlier := by
  refine ⟨fun a b c => ?_⟩
  simp only [earlier]
  omega

theorem mem_push {expirations : Expirations} {entry e : Nat × Nat} :
    e ∈ expirations.push entry ↔ e = entry ∨ e ∈ expirations :=
  List.mem_orderedInsert _

theorem sorted_push {expirations : Expirations} (h : expirations.Pairwise earlier)
    (entry : Nat × Nat) : (expirations.push entry).Pairwise earlier :=
  have := earlier_total
  have := earlier_trans
  h.orderedInsert entry _

/-! ## The check -/

/-- What the sweep knows of the ranges behind it. -/
structure Swept (passed : List Box) (state : Expirations × ActiveRanges) : Prop where
  sorted : state.1.Pairwise earlier
  keys : ∀ e ∈ state.2, e.1 = e.2.firstColumn ∧ e.2 ∈ passed
  ends : ∀ e ∈ state.2, (e.2.lastRow, e.1) ∈ state.1

theorem swept_start : Swept [] ([], .empty) where
  sorted := .nil
  keys e he := absurd he (OrderedMap.not_mem_empty e)
  ends e he := absurd he (OrderedMap.not_mem_empty e)

section
variable {passed : List Box} {expirations : Expirations} {active : ActiveRanges}

/-- What is left goes on to the row. The induction is on the heap. -/
theorem swept_popEnded (firstRow : Nat) (h : Swept passed (expirations, active)) :
    Swept passed (popEnded firstRow expirations active) ∧
      ∀ e ∈ (popEnded firstRow expirations active).2, firstRow ≤ e.2.lastRow := by
  induction expirations generalizing active with
  | nil => exact ⟨h, fun e he => absurd (h.ends e he) List.not_mem_nil⟩
  | cons entry rest ih =>
    obtain ⟨endRow, firstColumn⟩ := entry
    obtain ⟨hfirst, hsorted⟩ := List.pairwise_cons.mp h.sorted
    rw [popEnded]
    split
    · rename_i hreaches
      refine ⟨h, fun e he => ?_⟩
      rcases List.mem_cons.mp (h.ends e he) with heq | hmem
      · rw [← Prod.mk.inj heq |>.1] at hreaches
        exact hreaches
      · exact hreaches.trans (earlier_le (hfirst _ hmem))
    · refine ih ⟨hsorted, ?_, ?_⟩
      · intro e he
        split at he
        · exact h.keys e (OrderedMap.mem_erase.mp he).1
        · exact h.keys e he
      · intro e he
        split at he
        · obtain ⟨he, hkey⟩ := OrderedMap.mem_erase.mp he
          rcases List.mem_cons.mp (h.ends e he) with heq | hmem
          · exact absurd (Prod.mk.inj heq).2 hkey
          · exact hmem
        · rename_i hstale
          rcases List.mem_cons.mp (h.ends e he) with heq | hmem
          · obtain ⟨hend, hkey⟩ := Prod.mk.inj heq
            refine absurd ?_ hstale
            rw [← hkey, OrderedMap.lookup_eq_some.mpr he, Option.any_some, hend]
            exact decide_eq_true rfl
          · exact hmem

/-- A range apart from those behind it passes. -/
theorem checkRange_of (reversed overlapping : String) {range : Box}
    {state : Expirations × ActiveRanges} (h : Swept passed state) (hproper : range.Proper)
    (hpassedProper : ∀ a ∈ passed, a.Proper) (horder : ∀ a ∈ passed, a.firstRow ≤ range.firstRow)
    (hapart : ∀ a ∈ passed, ¬ a.Meets range) :
    ∃ state', checkRange reversed overlapping state range = .ok state' ∧
      Swept (passed ++ [range]) state' := by
  obtain ⟨hpopped, hreaches⟩ := swept_popEnded range.firstRow h
  generalize hstate : popEnded range.firstRow state.1 state.2 = popped at hpopped hreaches
  have hcolumns (e : Nat × Box) (he : e ∈ popped.2) :
      e.2.lastColumn < range.firstColumn ∨ range.lastColumn < e.2.firstColumn := by
    obtain ⟨-, hpassed⟩ := hpopped.keys e he
    by_contra hmeet
    obtain ⟨hleft, hright⟩ := not_or.mp hmeet
    exact hapart e.2 hpassed ⟨(horder e.2 hpassed).trans hproper.rows, hreaches e he,
      Nat.not_lt.mp hright, Nat.not_lt.mp hleft⟩
  have hprior : ¬ (popped.2.atMost range.lastColumn).any (fun prior =>
      range.firstColumn ≤ prior.2.lastColumn) := by
    cases hbefore : popped.2.atMost range.lastColumn with
    | none => exact Bool.false_ne_true
    | some prior =>
      obtain ⟨hmem, hkey⟩ := OrderedMap.atMost_some hbefore
      rw [(hpopped.keys prior hmem).1] at hkey
      have := hcolumns prior hmem
      simp only [Option.any_some, decide_eq_true_eq]
      omega
  have hnew : ¬ (popped.2.lookup range.firstColumn).isSome := by
    intro hsome
    obtain ⟨prior, hlookup⟩ := Option.isSome_iff_exists.mp hsome
    have hmem := OrderedMap.lookup_eq_some.mp hlookup
    obtain ⟨hkey, hpassed⟩ := hpopped.keys _ hmem
    have hkey : range.firstColumn = prior.firstColumn := hkey
    have hprior : prior.lastColumn < range.firstColumn ∨ range.lastColumn < prior.firstColumn :=
      hcolumns _ hmem
    have := hproper.columns
    have := (hpassedProper prior hpassed).columns
    omega
  refine ⟨(popped.1.push (range.lastRow, range.firstColumn),
    popped.2.insert range.firstColumn range), ?_, ?_⟩
  · rw [checkRange, validateBounds_of hproper]
    simp only [hstate, refuse_of_not hprior, refuse_of_not hnew]
    rfl
  · refine ⟨sorted_push hpopped.sorted _, ?_, ?_⟩
    · intro e he
      rcases OrderedMap.mem_insert.mp he with rfl | ⟨he, -⟩
      · exact ⟨rfl, List.mem_append_right _ List.mem_cons_self⟩
      · exact ⟨(hpopped.keys e he).1, List.mem_append_left _ (hpopped.keys e he).2⟩
    · intro e he
      rcases OrderedMap.mem_insert.mp he with rfl | ⟨he, -⟩
      · exact mem_push.mpr (Or.inl rfl)
      · exact mem_push.mpr (Or.inr (hpopped.ends e he))

theorem checkRanges_of (reversed overlapping : String) {ranges : List Box}
    {state : Expirations × ActiveRanges} (h : Swept passed state)
    (hproper : ∀ a ∈ passed ++ ranges, a.Proper)
    (horder : (passed ++ ranges).Pairwise fun a b => a.firstRow ≤ b.firstRow)
    (hapart : (passed ++ ranges).Pairwise fun a b => ¬ a.Meets b) :
    ∃ state', ranges.foldlM (checkRange reversed overlapping) state = .ok state' := by
  induction ranges generalizing passed state with
  | nil => exact ⟨state, rfl⟩
  | cons range ranges ih =>
    obtain ⟨state', hstate, h'⟩ := checkRange_of reversed overlapping h
      (hproper range (List.mem_append_right _ List.mem_cons_self))
      (fun a ha => hproper a (List.mem_append_left _ ha))
      (fun a ha => (List.pairwise_append.mp horder).2.2 a ha range List.mem_cons_self)
      (fun a ha => (List.pairwise_append.mp hapart).2.2 a ha range List.mem_cons_self)
    rw [List.append_cons] at hproper horder hapart
    obtain ⟨state'', hrest⟩ := ih h' hproper horder hapart
    exact ⟨state'', by rw [List.foldlM_cons, hstate]; exact hrest⟩

end

/-- **No overlap.** -/
theorem validateNonOverlapping_of (reversed overlapping : String) {ranges : List Box}
    (hproper : ∀ a ∈ ranges, a.Proper)
    (horder : ranges.Pairwise fun a b => a.firstRow ≤ b.firstRow)
    (hapart : ranges.Pairwise fun a b => ¬ a.Meets b) :
    validateNonOverlapping reversed overlapping ranges = .ok () := by
  obtain ⟨state, hstate⟩ := checkRanges_of reversed overlapping swept_start hproper horder hapart
  rw [validateNonOverlapping]
  exact bind_ok_iff.mpr ⟨state, hstate, rfl⟩

/-- Boxes that are apart are so in every order. -/
theorem apart_of_perm {ranges ranges' : List Box} (h : ranges.Perm ranges')
    (hapart : ranges.Pairwise fun a b => ¬ a.Meets b) :
    ranges'.Pairwise fun a b => ¬ a.Meets b :=
  h.pairwise hapart fun hmeet h => hmeet h.symm

/-! ## Only ranges that are apart pass -/

/-- What the check knows of the ranges that have passed, down to a row. -/
structure Checked (passed : List Box) (row : Nat) (state : Expirations × ActiveRanges) : Prop where
  keys : ∀ e ∈ state.2, e.1 = e.2.firstColumn ∧ e.2.Proper
  columns : state.2.entries.Pairwise fun a b => a.2.lastColumn < b.2.firstColumn
  gone : ∀ a ∈ passed, (∃ e ∈ state.2, e.2 = a) ∨ a.lastRow < row

theorem checked_start : Checked [] 0 ([], .empty) where
  keys e he := absurd he (OrderedMap.not_mem_empty e)
  columns := .nil
  gone := List.forall_mem_nil _

section
variable {passed : List Box} {row : Nat}

theorem checked_popEnded {expirations : Expirations} {active : ActiveRanges} {firstRow : Nat}
    (h : Checked passed row (expirations, active)) (hrow : row ≤ firstRow) :
    Checked passed firstRow (popEnded firstRow expirations active) := by
  induction expirations generalizing active row with
  | nil => exact ⟨h.keys, h.columns, fun a ha => (h.gone a ha).imp_right fun hlt => by omega⟩
  | cons entry rest ih =>
    obtain ⟨endRow, firstColumn⟩ := entry
    rw [popEnded]
    split
    · exact ⟨h.keys, h.columns, fun a ha => (h.gone a ha).imp_right fun hlt => by omega⟩
    · rename_i hended
      refine @ih firstRow _ ⟨?_, ?_, ?_⟩ (Nat.le_refl _)
      · intro e he
        split at he
        · exact h.keys e (OrderedMap.mem_erase.mp he).1
        · exact h.keys e he
      · split
        · exact h.columns.sublist List.filter_sublist
        · exact h.columns
      · intro a ha
        rcases h.gone a ha with ⟨e, he, rfl⟩ | hlt
        · split
          · rename_i hmatch
            by_cases hkey : e.1 = firstColumn
            · have hlookup : active.lookup firstColumn = some e.2 :=
                OrderedMap.lookup_eq_some.mpr (hkey ▸ he)
              rw [hlookup, Option.any_some, decide_eq_true_eq] at hmatch
              exact Or.inr (by omega)
            · exact Or.inl ⟨e, OrderedMap.mem_erase.mpr ⟨he, hkey⟩, rfl⟩
          · exact Or.inl ⟨e, he, rfl⟩
        · exact Or.inr (by omega)

theorem checkRange_ok {reversed overlapping : String} {range : Box}
    {state state' : Expirations × ActiveRanges} (h : Checked passed row state)
    (hrow : row ≤ range.firstRow)
    (hok : checkRange reversed overlapping state range = .ok state') :
    range.Proper ∧ (∀ a ∈ passed, ¬ a.Meets range) ∧
      Checked (passed ++ [range]) range.firstRow state' := by
  obtain ⟨u, hvalid, hok⟩ := ok_bind hok
  have hproper := validateBounds_ok_iff.mp hvalid
  have hpopped := checked_popEnded h hrow
  dsimp only at hok
  generalize popEnded range.firstRow state.1 state.2 = popped at hok hpopped
  obtain ⟨u', hprior, hok⟩ := ok_bind hok
  obtain ⟨u'', hnew, hok⟩ := ok_bind hok
  have hprior := refuse_ok hprior
  have hnew := refuse_ok hnew
  obtain rfl := Except.ok.inj hok
  -- the last range that begins in or before the columns is the only one that could reach them
  have hcolumns (e : Nat × Box) (he : e ∈ popped.2) :
      e.2.lastColumn < range.firstColumn ∨ range.lastColumn < e.2.firstColumn := by
    have hkey := (hpopped.keys e he).1
    by_cases hle : e.1 ≤ range.lastColumn
    · obtain ⟨p, hp, hep⟩ := OrderedMap.atMost_last he hle
      obtain ⟨hpmem, -⟩ := OrderedMap.atMost_some hp
      rw [hp, Option.any_some, decide_eq_true_eq] at hprior
      have hpproper := (hpopped.keys p hpmem).2.columns
      rcases Nat.lt_or_eq_of_le hep with hlt | heq
      · have := OrderedMap.related_of_lt hpopped.columns he hpmem hlt
        omega
      · obtain ⟨key, value⟩ := e
        obtain ⟨key', value'⟩ := p
        obtain rfl : key = key' := heq
        obtain rfl := OrderedMap.eq_of_mem he hpmem
        exact Or.inl (Nat.not_le.mp hprior)
    · exact Or.inr (by omega)
  refine ⟨hproper, fun a ha hmeet => ?_, ?_, ?_, ?_⟩
  · rcases hpopped.gone a ha with ⟨e, he, rfl⟩ | hlt
    · have hsides := hcolumns e he
      have hleft : e.2.firstColumn ≤ range.lastColumn := hmeet.2.2.1
      have hright : range.firstColumn ≤ e.2.lastColumn := hmeet.2.2.2
      omega
    · have hreach : range.firstRow ≤ a.lastRow := hmeet.2.1
      omega
  · intro e he
    rcases OrderedMap.mem_insert.mp he with rfl | ⟨he, -⟩
    · exact ⟨rfl, hproper⟩
    · exact hpopped.keys e he
  · refine OrderedMap.pairwise_insert hpopped.columns (fun a ha hlt => ?_) fun b hb hlt => ?_
    · obtain ⟨hkey, hcolumns'⟩ := hpopped.keys a ha
      have := hcolumns'.columns
      have := hproper.columns
      have := hcolumns a ha
      dsimp only
      omega
    · obtain ⟨hkey, hcolumns'⟩ := hpopped.keys b hb
      have := hcolumns'.columns
      have := hproper.columns
      have := hcolumns b hb
      dsimp only
      omega
  · refine List.forall_mem_append.mpr ⟨fun a ha => ?_, List.forall_mem_singleton.mpr (Or.inl
      ⟨_, OrderedMap.mem_insert.mpr (Or.inl rfl), rfl⟩)⟩
    rcases hpopped.gone a ha with ⟨e, he, rfl⟩ | hlt
    · refine Or.inl ⟨e, OrderedMap.mem_insert.mpr (Or.inr ⟨he, fun hkey => hnew ?_⟩), rfl⟩
      rw [← hkey, OrderedMap.lookup_eq_some.mpr he]
      rfl
    · exact Or.inr hlt

theorem checkRanges_ok {reversed overlapping : String} {ranges : List Box}
    {state state' : Expirations × ActiveRanges} (h : Checked passed row state)
    (hrows : ∀ range ∈ ranges, row ≤ range.firstRow)
    (horder : ranges.Pairwise fun a b => a.firstRow ≤ b.firstRow)
    (hok : ranges.foldlM (checkRange reversed overlapping) state = .ok state') :
    (∀ range ∈ ranges, range.Proper ∧ ∀ a ∈ passed, ¬ a.Meets range) ∧
      ranges.Pairwise fun a b => ¬ a.Meets b := by
  induction ranges generalizing passed row state with
  | nil => exact ⟨List.forall_mem_nil _, .nil⟩
  | cons range ranges ih =>
    rw [List.foldlM_cons] at hok
    obtain ⟨next, hnext, hok⟩ := ok_bind hok
    obtain ⟨hfirst, horder⟩ := List.pairwise_cons.mp horder
    obtain ⟨hproper, hapart, h'⟩ := checkRange_ok h (hrows range List.mem_cons_self) hnext
    obtain ⟨hall, hpairs⟩ := ih h' hfirst horder hok
    refine ⟨List.forall_mem_cons.mpr ⟨⟨hproper, hapart⟩, fun other hother =>
      ⟨(hall other hother).1, fun a ha => (hall other hother).2 a (List.mem_append_left _ ha)⟩⟩,
      List.pairwise_cons.mpr ⟨fun other hother => (hall other hother).2 range (by simp), hpairs⟩⟩

end

/-- **Check.** One sweep tells exactly whether any two of the ranges meet. -/
theorem validateNonOverlapping_ok_iff (reversed overlapping : String) {ranges : List Box}
    (horder : ranges.Pairwise fun a b => a.firstRow ≤ b.firstRow) :
    validateNonOverlapping reversed overlapping ranges = .ok () ↔
      (∀ a ∈ ranges, a.Proper) ∧ ranges.Pairwise fun a b => ¬ a.Meets b := by
  constructor
  · intro hok
    obtain ⟨state, hstate, hdone⟩ := ok_bind hok
    obtain ⟨hall, hpairs⟩ := checkRanges_ok checked_start (fun _ _ => Nat.zero_le _) horder hstate
    exact ⟨fun a ha => (hall a ha).1, hpairs⟩
  · rintro ⟨hproper, hapart⟩
    exact validateNonOverlapping_of reversed overlapping hproper horder hapart

/-- **Sorted check.** -/
theorem validateSorted_ok_iff (reversed overlapping : String) (ranges : List Box) :
    validateNonOverlapping reversed overlapping (sortByPosition id ranges) = .ok () ↔
      (∀ a ∈ ranges, a.Proper) ∧ ranges.Pairwise fun a b => ¬ a.Meets b := by
  have horder : (sortByPosition id ranges).Pairwise fun a b => a.firstRow ≤ b.firstRow :=
    sorted_sortByPosition
  rw [validateNonOverlapping_ok_iff reversed overlapping horder]
  refine and_congr ⟨fun h a ha => h a (mem_sortByPosition.mpr ha),
    fun h a ha => h a (mem_sortByPosition.mp ha)⟩ ⟨apart_of_perm perm_sortByPosition,
      apart_of_perm perm_sortByPosition.symm⟩

theorem validateNonOverlappingMerges_ok_iff (merges : List MergeRange) :
    validateNonOverlappingMerges (sortByPosition id merges) = .ok () ↔
      (∀ a ∈ merges, a.Proper) ∧ merges.Pairwise fun a b => ¬ a.Meets b :=
  validateSorted_ok_iff _ _ merges

theorem validateNonOverlappingRegions_ok_iff (regions : List SparseRegion) :
    validateNonOverlappingRegions regions = .ok () ↔
      (∀ a ∈ regions, a.toBox.Proper) ∧
        (regions.map SparseRegion.toBox).Pairwise fun a b => ¬ a.Meets b := by
  refine (validateSorted_ok_iff _ _ (regions.map SparseRegion.toBox)).trans ?_
  rw [List.forall_mem_map]

end IntoMarkdown.Sheet
