import IntoMarkdown.Drawio.Cycles

/-! # Resolved parents

A cell's parent is the only cell of the id that it names; it has none where the id is missing or
ambiguous. -/

namespace IntoMarkdown.Drawio
open Lib Strings Converters Relation Forest

/-- A cell has this id. -/
def Named (cells : List Cell) (key : Text) (i : Nat) : Prop :=
  ∃ cell, cells[i]? = some cell ∧ cell.id = key

/-- A cell names this one as its parent, and no other cell has that id. -/
def NamesParent (cells : List Cell) (i p : Nat) : Prop :=
  ∃ cell, cells[i]? = some cell ∧ cell.attr "parent" ≠ [] ∧
    ∀ q, Named cells (cell.attr "parent") q ↔ q = p

/-- The cells of an id, in source order. -/
def positions (key : Text) (cells : List Cell) : List Nat :=
  (List.range cells.length).filter fun i => (cells[i]?).any fun cell => cell.id = key

/-- What the map of ids has for a key with these cells. -/
def entry (found : List Nat) : Option (List Nat) := if found = [] then none else some found

/-- The parent that a cell has after resolving. -/
def parentOf (ids : Ids) (cell : Cell) : Option Nat :=
  if cell.attr "parent" = [] then none
  else
    match ids.lookup (cell.attr "parent") with
    | some [p] => some p
    | _ => none

/-- The map has the cells of every id. -/
def Complete (ids : Ids) (cells : List Cell) : Prop :=
  ∀ key, key ≠ [] → ids.lookup key = entry (positions key cells)

section
variable {σ : Type} {runtime : Runtime σ} {options : Options} {deep : Prop}
  {locations : List SourceLocator} {ids : Ids} {cells front : List Cell} {cell : Cell} {key : Text}
  {i p : Nat}

/-! ## Positions -/

theorem mem_positions : i ∈ positions key cells ↔ Named cells key i := by
  rw [positions, List.mem_filter, List.mem_range]
  constructor
  · rintro ⟨hi, hany⟩
    rw [List.getElem?_eq_getElem hi, Option.any_some] at hany
    exact ⟨_, List.getElem?_eq_getElem hi, of_decide_eq_true hany⟩
  · rintro ⟨cell, hcell, hid⟩
    refine ⟨(List.getElem?_eq_some_iff.mp hcell).1, ?_⟩
    rw [hcell, Option.any_some]
    exact decide_eq_true hid

theorem positions_snoc :
    positions key (front ++ [cell]) =
      positions key front ++ if cell.id = key then [front.length] else [] := by
  have hfront : (List.range front.length).filter
      (fun i => ((front ++ [cell])[i]?).any fun cell => cell.id = key) = positions key front := by
    refine List.filter_congr fun i hi => ?_
    rw [List.getElem?_append_left (List.mem_range.mp hi)]
  rw [positions, List.length_append, List.length_singleton, List.range_succ, List.filter_append,
    hfront]
  congr 1
  rw [List.filter_singleton]
  simp

theorem positions_eq_singleton : positions key cells = [p] ↔ ∀ q, Named cells key q ↔ q = p := by
  constructor
  · intro h q
    rw [← mem_positions, h, List.mem_singleton]
  · intro h
    refine List.perm_singleton.mp ((List.perm_ext_iff_of_nodup ?_ (List.nodup_singleton p)).mpr
      fun q => ?_)
    · exact List.nodup_range.filter _
    · rw [mem_positions, h, List.mem_singleton]

/-! ## Ids -/

theorem entry_getD (found : List Nat) : (entry found).getD [] = found := by
  rw [entry]
  split
  · next h => rw [h]; rfl
  · rfl

theorem Complete.addId (h : Complete ids front) (hid : cell.id ≠ []) :
    Complete (addId ids cell.id front.length) (front ++ [cell]) := by
  intro key hkey
  rw [Drawio.addId, OrderedMap.lookup_insert, positions_snoc]
  by_cases heq : key = cell.id
  · rw [if_pos heq, if_pos heq.symm, h cell.id hid, entry_getD, ← heq, entry,
      if_neg (List.append_ne_nil_of_right_ne_nil _ (List.cons_ne_nil _ _))]
  · rw [if_neg heq, if_neg (Ne.symm heq), List.append_nil]
    exact h key hkey

theorem Complete.skip (h : Complete ids front) (hid : cell.id = []) :
    Complete ids (front ++ [cell]) := by
  intro key hkey
  rw [positions_snoc, hid, if_neg hkey.symm, List.append_nil]
  exact h key hkey

theorem collectIds_granted (hpolicy : options.errorPolicy ≠ .strict) (hids : Complete ids front)
    (out : Output σ) :
    Grants runtime deep (collectIds runtime options locations front.length cells ids out)
      fun result => Complete result.1 (front ++ cells) ∧
        cycleReports result.2 = cycleReports out := by
  induction cells generalizing front ids out with
  | nil =>
    rw [collectIds, List.append_nil]
    exact Grants.ok ⟨hids, rfl⟩
  | cons cell cells ih =>
    rw [collectIds]
    refine (checkpoint_granted out).bind fun out₁ h₁ => ?_
    refine (defectIf_granted hpolicy _ (by decide) _ _ out₁).bind fun out₂ h₂ => ?_
    refine (defectIf_granted hpolicy _ (by decide) _ _ out₂).bind fun out₃ h₃ => ?_
    have hnext : Complete (if cell.id = [] then ids else addId ids cell.id front.length)
        (front ++ [cell]) := by
      split
      · next hid => exact hids.skip hid
      · next hid => exact hids.addId hid
    have hrest := ih hnext out₃
    rw [List.length_append, List.length_singleton, List.append_assoc, List.singleton_append] at hrest
    refine hrest.mono fun result hresult => ⟨hresult.1, ?_⟩
    rw [hresult.2, h₃, h₂, cycleReports_of_eq h₁]

theorem reportDuplicates_granted (hpolicy : options.errorPolicy ≠ .strict) (out : Output σ) :
    Grants runtime deep (reportDuplicates runtime options locations ids out)
      fun out' => cycleReports out' = cycleReports out := by
  rw [reportDuplicates]
  refine Grants.foldlM (I := fun out' => cycleReports out' = cycleReports out)
    (fun out₁ entry _ h₁ => ?_) rfl
  refine Grants.foldlM (I := fun out' => cycleReports out' = cycleReports out)
    (fun out₂ i _ h₂ => ?_) h₁
  exact (other_defect_granted hpolicy (by decide) _ _ out₂).mono fun out₃ h₃ => h₃.trans h₂

/-! ## Parents -/

theorem parentOf_eq_some (h : Complete ids cells) :
    parentOf ids cell = some p ↔ cell.attr "parent" ≠ [] ∧
      ∀ q, Named cells (cell.attr "parent") q ↔ q = p := by
  rw [parentOf]
  by_cases hkey : cell.attr "parent" = []
  · rw [if_pos hkey]
    exact iff_of_false (fun hnone => by cases hnone) fun hne => hne.1 hkey
  · rw [if_neg hkey, h _ hkey, ← positions_eq_singleton, and_iff_right hkey]
    generalize positions (cell.attr "parent") cells = found
    match found with
    | [] => exact iff_of_false (fun h => by cases h) fun h => by cases h
    | [q] =>
      simp [entry]
    | q :: r :: rest => exact iff_of_false (fun h => by cases h) fun h => by cases h

theorem resolveParent_granted (hpolicy : options.errorPolicy ≠ .strict) (location : SourceLocator)
    {parents : Parents} (hnone : parents[i]? = some none) (out : Output σ) :
    Grants runtime deep (resolveParent runtime options ids cell location i parents out)
      fun result => result.1 = parents.set i (parentOf ids cell) ∧
        cycleReports result.2 = cycleReports out := by
  obtain ⟨hi, hget⟩ := List.getElem?_eq_some_iff.mp hnone
  have hsame : parents.set i none = parents := by
    rw [← hget]
    exact List.set_getElem_self hi
  have hkept : ∀ code message, code ≠ "drawio.parentCycle" → Grants runtime deep (do
      let out ← out.defect runtime options code message location
      return (parents, out)) fun result =>
        result.1 = parents.set i none ∧ cycleReports result.2 = cycleReports out := by
    intro code message hcode
    exact (other_defect_granted hpolicy hcode message location out).bind fun _ hout =>
      Grants.ok ⟨hsame.symm, hout⟩
  rw [resolveParent, parentOf]
  split
  · exact Grants.ok ⟨hsame.symm, rfl⟩
  · generalize ids.lookup (cell.attr "parent") = found
    match found with
    | none => exact hkept _ _ (by decide)
    | some [] => exact hkept _ _ (by decide)
    | some [p] => exact Grants.ok ⟨rfl, rfl⟩
    | some (p :: q :: rest) => exact hkept _ _ (by decide)

theorem resolveEndpoints_granted (hpolicy : options.errorPolicy ≠ .strict)
    (location : SourceLocator) (out : Output σ) :
    Grants runtime deep (resolveEndpoints runtime options ids cell location out)
      fun out' => cycleReports out' = cycleReports out := by
  rw [resolveEndpoints]
  split
  · refine Grants.foldlM (I := fun out' => cycleReports out' = cycleReports out)
      (fun out₁ key _ h₁ => ?_) rfl
    rw [resolveEndpoint]
    split
    · exact Grants.ok h₁
    · split
      · exact Grants.ok h₁
      · exact (other_defect_granted hpolicy (by decide) _ _ out₁).mono fun _ h => h.trans h₁
      · exact (other_defect_granted hpolicy (by decide) _ _ out₁).mono fun _ h => h.trans h₁
  · exact Grants.ok rfl

theorem resolve_granted (hpolicy : options.errorPolicy ≠ .strict) {done : Parents}
    (out : Output σ) :
    Grants runtime deep (resolve runtime options locations ids done.length cells
        (done ++ cells.map fun _ => none) out)
      fun result => result.1 = done ++ cells.map (parentOf ids) ∧
        cycleReports result.2 = cycleReports out := by
  induction cells generalizing done out with
  | nil => exact Grants.ok ⟨rfl, rfl⟩
  | cons cell cells ih =>
    rw [resolve]
    refine (checkpoint_granted out).bind fun out₁ h₁ => ?_
    have hnone : (done ++ (cell :: cells).map fun _ => none)[done.length]? = some none := by
      rw [List.getElem?_append_right (Nat.le_refl _), Nat.sub_self]
      rfl
    refine (resolveParent_granted hpolicy _ hnone out₁).bind fun state₂ h₂ => ?_
    refine (resolveEndpoints_granted hpolicy _ state₂.2).bind fun out₃ h₃ => ?_
    have hset : state₂.1 = (done ++ [parentOf ids cell]) ++ cells.map fun _ => none := by
      rw [h₂.1, List.set_append_right _ _ (Nat.le_refl _), Nat.sub_self, List.append_assoc]
      rfl
    have hrest := @ih (done ++ [parentOf ids cell]) out₃
    rw [List.length_append, List.length_singleton, ← hset] at hrest
    refine hrest.mono fun result hresult => ⟨?_, ?_⟩
    · rw [hresult.1, List.append_assoc]
      rfl
    · rw [hresult.2, h₃, h₂.2, cycleReports_of_eq h₁]

end

end IntoMarkdown.Drawio
