import Mathlib

/-! # Slot lists

Objects that a system creates live in a list and are named by their index; a
slot is overwritten in place and never reused for another object. -/

namespace IntoMarkdown.Slots

universe u v
variable {α : Type u} {l : List α} {i j : Nat} {a x : α}

/-- What is in a slot after one slot has been overwritten. -/
theorem getElem?_set_some (h : (l.set i a)[j]? = some x) :
    (j = i ∧ x = a) ∨ (j ≠ i ∧ l[j]? = some x) := by
  rw [List.getElem?_set] at h
  split at h
  · rename_i hij
    split at h
    · exact Or.inl ⟨hij.symm, (Option.some.inj h).symm⟩
    · cases h
  · rename_i hij
    exact Or.inr ⟨fun h' => hij h'.symm, h⟩

theorem getElem?_set_self (h : l[i]? = some x) : (l.set i a)[i]? = some a := by
  have hi : i < l.length := (List.getElem?_eq_some_iff.mp h).1
  rw [List.getElem?_set, if_pos rfl, if_pos hi]

theorem getElem?_set_ne (h : j ≠ i) : (l.set i a)[j]? = l[j]? := by
  rw [List.getElem?_set, if_neg fun h' => h h'.symm]

/-- A slot read with a default after one slot has been overwritten. -/
theorem getD_set (hi : i < l.length) (d : α) :
    (l.set i a).getD j d = if j = i then a else l.getD j d := by
  by_cases hj : j = i
  · subst hj
    rw [if_pos rfl, List.getD_eq_getElem?_getD, List.getElem?_set_self hi, Option.getD_some]
  · rw [if_neg hj, List.getD_eq_getElem?_getD, getElem?_set_ne hj, ← List.getD_eq_getElem?_getD]

/-- What is in a slot after a new one has been added. -/
theorem getElem?_snoc_some (h : (l ++ [a])[j]? = some x) :
    (j = l.length ∧ x = a) ∨ l[j]? = some x := by
  rw [List.getElem?_append] at h
  split at h
  · exact Or.inr h
  · rename_i hj
    left
    rw [List.getElem?_singleton] at h
    split at h
    · exact ⟨by omega, (Option.some.inj h).symm⟩
    · cases h

theorem getElem?_snoc_of_some (h : l[j]? = some x) : (l ++ [a])[j]? = some x := by
  have hj : j < l.length := (List.getElem?_eq_some_iff.mp h).1
  rw [List.getElem?_append_left hj, h]

@[simp] theorem getElem?_snoc_length : (l ++ [a])[l.length]? = some a := by
  simp

/-- A field read from a table after one slot has been overwritten. -/
theorem elim_set {β : Type v} {f : α → β} {d : β} (h : l[i]? = some x) (j : Nat) :
    ((l.set i a)[j]?).elim d f = if j = i then f a else (l[j]?).elim d f := by
  by_cases hj : j = i
  · subst hj
    rw [getElem?_set_self h, if_pos rfl]
    rfl
  · rw [getElem?_set_ne hj, if_neg hj]

/-- A field read from a table after a new slot has been added. -/
theorem elim_snoc {β : Type v} {f : α → β} {d : β} (j : Nat) :
    ((l ++ [a])[j]?).elim d f = if j = l.length then f a else (l[j]?).elim d f := by
  by_cases hj : j = l.length
  · subst hj
    rw [getElem?_snoc_length, if_pos rfl]
    rfl
  · rw [if_neg hj, List.getElem?_append]
    split
    · rfl
    · rename_i hl
      rw [List.getElem?_eq_none (by simp; omega), List.getElem?_eq_none (by omega)]

/-- Overwriting a slot does not show in a field that keeps its value. -/
theorem map_set_of_eq {β : Type v} {f : α → β} (h : l[i]? = some x) (hf : f a = f x) :
    (l.set i a).map f = l.map f := by
  induction l generalizing i with
  | nil => rfl
  | cons y ys ih =>
    cases i with
    | zero =>
      obtain rfl := Option.some.inj h
      simp [hf]
    | succ i => simp [ih (i := i) (by simpa using h)]

theorem lt_length_of_some (h : l[i]? = some x) : i < l.length :=
  (List.getElem?_eq_some_iff.mp h).1

/-! ## Totals -/

variable {w : α → Nat}

/-- The sum of `w` over all slots. -/
def total (w : α → Nat) (l : List α) : Nat := (l.map w).sum

@[simp] theorem total_nil : total w [] = 0 := rfl

@[simp] theorem total_cons : total w (a :: l) = w a + total w l := by
  simp [total]

@[simp] theorem total_snoc : total w (l ++ [a]) = total w l + w a := by
  simp [total]

/-- Overwriting a slot exchanges its weight for the new one. -/
theorem total_set (h : l[i]? = some x) : total w (l.set i a) + w x = total w l + w a := by
  induction l generalizing i with
  | nil => simp at h
  | cons y ys ih =>
    cases i with
    | zero =>
      obtain rfl := Option.some.inj h
      simp only [List.set_cons_zero, total_cons]
      omega
    | succ i =>
      have hi := ih (i := i) (by simpa using h)
      simp only [List.set_cons_succ, total_cons]
      omega

theorem le_total (h : l[i]? = some x) : w x ≤ total w l := by
  induction l generalizing i with
  | nil => simp at h
  | cons y ys ih =>
    cases i with
    | zero =>
      obtain rfl := Option.some.inj h
      simp only [total_cons]
      omega
    | succ i =>
      have hi := ih (i := i) (by simpa using h)
      simp only [total_cons]
      omega

theorem total_eq_zero (h : ∀ x ∈ l, w x = 0) : total w l = 0 := by
  induction l with
  | nil => rfl
  | cons y ys ih =>
    rw [total_cons, h y (List.mem_cons_self ..), ih fun x hx => h x (List.mem_cons_of_mem _ hx)]

theorem total_congr {v : α → Nat} (h : ∀ x ∈ l, v x = w x) : total v l = total w l := by
  simp only [total]
  rw [List.map_congr_left h]

end IntoMarkdown.Slots
