import Mathlib

/-! # Items by their widths

Items of some width, one after the other: which of them a position is in, and how a binary search
finds the border that it is behind. -/

namespace IntoMarkdown.Lib
section
variable {κ : Type} (width : κ → Nat)

def totalWidth (items : List κ) : Nat := (items.map width).sum

/-- The item that a position is in. -/
def itemAt : List κ → Nat → Option κ
  | [], _ => none
  | item :: items, place =>
    if place < width item then some item else itemAt items (place - width item)

/-! ## Positions -/

@[simp] theorem totalWidth_nil : totalWidth width [] = 0 := rfl

@[simp] theorem totalWidth_cons (item : κ) (items : List κ) :
    totalWidth width (item :: items) = width item + totalWidth width items := rfl

@[simp] theorem totalWidth_append (front back : List κ) :
    totalWidth width (front ++ back) = totalWidth width front + totalWidth width back := by
  rw [totalWidth, List.map_append, List.sum_append]
  rfl

variable {width} {items front back : List κ}

theorem itemAt_append_left {place : Nat} (h : place < totalWidth width front) :
    itemAt width (front ++ back) place = itemAt width front place := by
  induction front generalizing place with
  | nil => exact absurd h (Nat.not_lt_zero _)
  | cons item front ih =>
    rw [List.cons_append, itemAt, itemAt]
    split
    · rfl
    · rw [totalWidth_cons] at h
      exact ih (by omega)

theorem itemAt_append_right {place : Nat} (h : totalWidth width front ≤ place) :
    itemAt width (front ++ back) place = itemAt width back (place - totalWidth width front) := by
  induction front generalizing place with
  | nil => rfl
  | cons item front ih =>
    rw [totalWidth_cons] at h
    rw [List.cons_append, itemAt, if_neg (by omega), ih (by omega), totalWidth_cons,
      Nat.sub_add_eq]

theorem mem_of_itemAt {place : Nat} {item : κ} (h : itemAt width items place = some item) :
    item ∈ items := by
  induction items generalizing place with
  | nil => cases h
  | cons other items ih =>
    rw [itemAt] at h
    split at h
    · exact Option.some.inj h ▸ List.mem_cons_self
    · exact List.mem_cons_of_mem _ (ih h)

theorem exists_itemAt {place : Nat} (h : place < totalWidth width items) :
    ∃ item, itemAt width items place = some item := by
  induction items generalizing place with
  | nil => exact absurd h (Nat.not_lt_zero _)
  | cons item items ih =>
    rw [itemAt]
    split
    · exact ⟨item, rfl⟩
    · rw [totalWidth_cons] at h
      exact ih (by omega)

theorem itemAt_eq_none {place : Nat} (h : totalWidth width items ≤ place) :
    itemAt width items place = none := by
  induction items generalizing place with
  | nil => rfl
  | cons item items ih =>
    rw [totalWidth_cons] at h
    rw [itemAt, if_neg (by omega)]
    exact ih (by omega)

theorem totalWidth_of_same {size : Nat} (h : ∀ item ∈ items, width item = size) :
    totalWidth width items = items.length * size := by
  induction items with
  | nil => rw [List.length_nil, Nat.zero_mul]; rfl
  | cons item items ih =>
    obtain ⟨hitem, hrest⟩ := List.forall_mem_cons.mp h
    rw [totalWidth_cons, hitem, ih hrest, List.length_cons, Nat.succ_mul, Nat.add_comm]

/-- Where all items have one width, a division finds the item. -/
theorem itemAt_of_same {size : Nat} (hpos : 0 < size) (h : ∀ item ∈ items, width item = size)
    (place : Nat) : itemAt width items place = items[place / size]? := by
  induction items generalizing place with
  | nil => rfl
  | cons item items ih =>
    obtain ⟨hitem, hrest⟩ := List.forall_mem_cons.mp h
    rw [itemAt, hitem]
    split
    · next hlt => rw [Nat.div_eq_of_lt hlt]; rfl
    · next hge =>
      rw [ih hrest, ← Nat.sub_add_cancel (Nat.not_lt.mp hge), Nat.add_div_right _ hpos,
        Nat.sub_add_cancel (Nat.not_lt.mp hge)]
      rfl

/-- Of two places, the first is in the same item or in one before it. -/
theorem itemAt_pairwise {R : κ → κ → Prop} (h : items.Pairwise R) {place place' : Nat}
    (hle : place ≤ place') {a b : κ} (ha : itemAt width items place = some a)
    (hb : itemAt width items place' = some b) : a = b ∨ R a b := by
  induction h generalizing place place' with
  | nil => cases ha
  | @cons item items hitem hitems ih =>
    rw [itemAt] at ha hb
    split at ha
    · next hlt =>
      obtain rfl := Option.some.inj ha
      split at hb
      · exact Or.inl (Option.some.inj hb)
      · exact Or.inr (hitem b (mem_of_itemAt hb))
    · next hge =>
      rw [if_neg (by omega)] at hb
      exact ih (by omega) ha hb

end

/-! ## Search -/

/-- The border between the places that pass and those that do not, by halving what is left of
them; with the questions asked so far. -/
def searchBorder (passes : Nat → Bool) (low high asked : Nat) : Nat × Nat :=
  if low < high then
    let middle := low + (high - low) / 2
    if passes middle then searchBorder passes (middle + 1) high (asked + 1)
    else searchBorder passes low middle (asked + 1)
  else (low, asked)
termination_by high - low
decreasing_by all_goals omega

theorem searchBorder_eq {passes : Nat → Bool} {border low high : Nat}
    (hpasses : ∀ place, low ≤ place → place < high → (passes place = true ↔ place < border))
    (hlow : low ≤ border) (hhigh : border ≤ high) (asked : Nat) :
    (searchBorder passes low high asked).1 = border := by
  fun_induction searchBorder passes low high asked with
  | case1 low high asked hlt middle hmiddle ih =>
    have hbelow := (hpasses middle (by omega) (by omega)).mp hmiddle
    exact ih (fun place hplace => hpasses place (by omega)) hbelow hhigh
  | case2 low high asked hlt middle hmiddle ih =>
    have habove := mt (hpasses middle (by omega) (by omega)).mpr hmiddle
    exact ih (fun place hplace hhigh => hpasses place hplace (by omega)) hlow (by omega)
  | case3 low high asked hge => omega

/-- The questions are no more than the binary digits of the number of places. -/
theorem searchBorder_asked (passes : Nat → Bool) {low high : Nat} {digits : Nat}
    (h : high - low < 2 ^ digits) (asked : Nat) :
    (searchBorder passes low high asked).2 ≤ asked + digits := by
  induction digits generalizing low high asked with
  | zero =>
    rw [searchBorder, if_neg (by omega)]
    exact Nat.le_add_right _ _
  | succ digits ih =>
    rw [Nat.pow_succ] at h
    rw [searchBorder]
    dsimp only
    split
    · next hlt =>
      split
      · refine Nat.le_trans (ih ?_ (asked + 1)) (by omega)
        omega
      · refine Nat.le_trans (ih ?_ (asked + 1)) (by omega)
        omega
    · exact Nat.le_add_right _ _

end IntoMarkdown.Lib
