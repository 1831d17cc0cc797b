import Mathlib

/-! # Computations that may fail -/

namespace IntoMarkdown.Lib
variable {ε α β : Type}

theorem ok_bind {x : Except ε α} {f : α → Except ε β} {b : β}
    (h : (do let a ← x; f a) = .ok b) : ∃ a, x = .ok a ∧ f a = .ok b := by
  cases x with
  | error e => cases h
  | ok a => exact ⟨a, rfl, h⟩

theorem error_bind {x : Except ε α} {f : α → Except ε β} {error : ε}
    (h : x >>= f = .error error) : x = .error error ∨ ∃ a, x = .ok a ∧ f a = .error error := by
  cases x with
  | error e =>
    cases h
    exact Or.inl rfl
  | ok a => exact Or.inr ⟨a, rfl, h⟩

theorem map_ok {x : Except ε α} {f : α → β} {b : β} (h : x.map f = .ok b) :
    ∃ a, x = .ok a ∧ f a = b := by
  cases x with
  | error e => cases h
  | ok a => exact ⟨a, rfl, Except.ok.inj h⟩

theorem map_error {x : Except ε α} {f : α → β} {error : ε}
    (h : x.map f = .error error) : x = .error error := by
  cases x with
  | error e =>
    cases h
    rfl
  | ok a => cases h

theorem isOk_iff {x : Except ε α} : x.isOk ↔ ∃ a, x = .ok a := by
  cases x <;> simp [Except.isOk, Except.toBool]

/-- An early return with an error. -/
def refuse (bad : Prop) [Decidable bad] (error : ε) : Except ε Unit :=
  if bad then .error error else .ok ()

theorem refuse_of {bad : Prop} [Decidable bad] {error : ε} (h : bad) :
    refuse bad error = .error error := if_pos h

theorem refuse_of_not {bad : Prop} [Decidable bad] {error : ε} (h : ¬ bad) :
    refuse bad error = .ok () := if_neg h

theorem refuse_ok {bad : Prop} [Decidable bad] {error : ε} {u : Unit}
    (h : refuse bad error = .ok u) : ¬ bad := fun hbad => by
  rw [refuse_of hbad] at h
  cases h

theorem refuse_error {bad : Prop} [Decidable bad] {error e : ε}
    (h : refuse bad error = .error e) : bad ∧ e = error := by
  rw [refuse] at h
  split at h
  · rename_i hbad
    exact ⟨hbad, (Except.error.inj h).symm⟩
  · cases h

theorem refuse_bind_ok {bad : Prop} [Decidable bad] {error : ε} {f : Unit → Except ε α} {a : α} :
    (refuse bad error >>= f) = .ok a ↔ ¬ bad ∧ f () = .ok a := by
  by_cases h : bad
  · rw [refuse_of h]
    exact iff_of_false (fun hok => by cases hok) fun hok => hok.1 h
  · rw [refuse_of_not h]
    exact (and_iff_right h).symm

theorem bind_ok_iff {x : Except ε α} {f : α → Except ε β} {b : β} :
    x >>= f = .ok b ↔ ∃ a, x = .ok a ∧ f a = .ok b := by
  refine ⟨ok_bind, ?_⟩
  rintro ⟨a, rfl, h⟩
  exact h

/-! ## Lists -/

theorem exists_of_forall₂ {R : α → β → Prop} {as : List α} {bs : List β}
    (h : List.Forall₂ R as bs) : ∀ a ∈ as, ∃ b ∈ bs, R a b := by
  induction h with
  | nil => exact List.forall_mem_nil _
  | @cons a b as bs hab _ ih =>
    refine List.forall_mem_cons.mpr ⟨⟨b, List.mem_cons_self, hab⟩, fun a' ha' => ?_⟩
    obtain ⟨b', hb', hrelated⟩ := ih a' ha'
    exact ⟨b', List.mem_cons_of_mem _ hb', hrelated⟩

theorem mapM_ok_iff {f : α → Except ε β} {as : List α} {bs : List β} :
    as.mapM f = .ok bs ↔ List.Forall₂ (fun a b => f a = .ok b) as bs := by
  induction as generalizing bs with
  | nil =>
    rw [List.mapM_nil, List.forall₂_nil_left_iff]
    exact ⟨fun h => (Except.ok.inj h).symm, fun h => h ▸ rfl⟩
  | cons a as ih =>
    rw [List.mapM_cons, bind_ok_iff, List.forall₂_cons_left_iff]
    constructor
    · rintro ⟨b, hb, h⟩
      obtain ⟨rest, hrest, h⟩ := ok_bind h
      exact ⟨b, rest, hb, ih.mp hrest, (Except.ok.inj h).symm⟩
    · rintro ⟨b, rest, hb, hrest, rfl⟩
      exact ⟨b, hb, bind_ok_iff.mpr ⟨rest, ih.mpr hrest, rfl⟩⟩

/-- A traversal succeeds when every step does. -/
theorem mapM_succeeds {f : α → Except ε β} {as : List α} (h : ∀ a ∈ as, ∃ b, f a = .ok b) :
    ∃ bs, as.mapM f = .ok bs := by
  induction as with
  | nil => exact ⟨[], rfl⟩
  | cons a as ih =>
    obtain ⟨⟨b, hb⟩, has⟩ := List.forall_mem_cons.mp h
    obtain ⟨bs, hbs⟩ := ih has
    exact ⟨b :: bs, mapM_ok_iff.mpr (.cons hb (mapM_ok_iff.mp hbs))⟩

/-- A fold that only grows keeps what each of its steps gives. -/
theorem foldlM_ok {f : β → α → Except ε β} (le : β → β → Prop) (given : α → β → Prop)
    (hrefl : ∀ b, le b b) (htrans : ∀ a b c, le a b → le b c → le a c)
    (hmono : ∀ a b b', le b b' → given a b → given a b') {as : List α}
    (hstep : ∀ a ∈ as, ∀ b b', f b a = .ok b' → le b b' ∧ given a b') {b b' : β}
    (h : as.foldlM f b = .ok b') : le b b' ∧ ∀ a ∈ as, given a b' := by
  induction as generalizing b with
  | nil =>
    obtain rfl := Except.ok.inj h
    exact ⟨hrefl b, List.forall_mem_nil _⟩
  | cons a as ih =>
    obtain ⟨hfirst, has⟩ := List.forall_mem_cons.mp hstep
    rw [List.foldlM_cons] at h
    obtain ⟨next, hnext, h⟩ := ok_bind h
    obtain ⟨hle, hgiven⟩ := hfirst b next hnext
    obtain ⟨hle', hall⟩ := ih has h
    exact ⟨htrans _ _ _ hle hle', List.forall_mem_cons.mpr ⟨hmono a _ _ hle' hgiven, hall⟩⟩

/-! ## Two computations step by step -/

/-- Both fail in the same way, or both return, with related values. -/
inductive Refines (R : α → β → Prop) : Except ε α → Except ε β → Prop where
  | error (e : ε) : Refines R (.error e) (.error e)
  | ok {a : α} {b : β} (h : R a b) : Refines R (.ok a) (.ok b)

namespace Refines
variable {γ δ : Type} {R : α → β → Prop} {S : γ → δ → Prop}

theorem of_eq {x : Except ε α} {y : Except ε α} (h : x = y) : Refines (· = ·) x y := by
  subst h
  cases x with
  | error e => exact .error e
  | ok a => exact .ok rfl

theorem bind {x : Except ε α} {y : Except ε β} {f : α → Except ε γ} {g : β → Except ε δ}
    (h : Refines R x y) (hf : ∀ a b, R a b → Refines S (f a) (g b)) :
    Refines S (x >>= f) (y >>= g) := by
  cases h with
  | error e => exact .error e
  | ok h => exact hf _ _ h

theorem map_eq {x : Except ε α} {y : Except ε β} {f : α → γ} {g : β → γ} (h : Refines R x y)
    (hf : ∀ a b, R a b → f a = g b) : x.map f = y.map g := by
  cases h with
  | error e => rfl
  | ok h => exact congrArg Except.ok (hf _ _ h)

theorem of_ok {x : Except ε α} {y : Except ε β} {a : α} (h : Refines R x y) (hx : x = .ok a) :
    ∃ b, y = .ok b ∧ R a b := by
  subst hx
  cases h with
  | ok h => exact ⟨_, rfl, h⟩

theorem ok_of {x : Except ε α} {y : Except ε β} {b : β} (h : Refines R x y) (hy : y = .ok b) :
    ∃ a, x = .ok a ∧ R a b := by
  subst hy
  cases h with
  | ok h => exact ⟨_, rfl, h⟩

theorem of_error {x : Except ε α} {y : Except ε β} {e : ε} (h : Refines R x y)
    (hx : x = .error e) : y = .error e := by
  subst hx
  cases h
  rfl

theorem eq_error {x : Except ε α} {e : ε} (h : Refines R x (.error e)) : x = .error e := by
  cases h
  rfl

end Refines

end IntoMarkdown.Lib
