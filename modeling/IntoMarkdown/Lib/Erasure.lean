import IntoMarkdown.Lib.Except

/-! # Computations up to what one of them forgets

Where the first computation returns, the second returns what is left after `erase`. Under `Total`
the first returns wherever the second does. -/

namespace IntoMarkdown.Lib
variable {ε α β γ : Type}

structure Erases (Total : Prop) (erase : α → β) (x : Except ε α) (y : Except ε β) : Prop where
  forth : ∀ a, x = .ok a → y = .ok (erase a)
  back : Total → ∀ b, y = .ok b → ∃ a, x = .ok a ∧ erase a = b

namespace Erases
variable {Total : Prop} {erase : α → β}

theorem ok (a : α) : Erases Total erase (.ok a : Except ε α) (.ok (erase a)) where
  forth _ h := Except.ok.inj h ▸ rfl
  back _ _ h := ⟨a, rfl, Except.ok.inj h⟩

theorem error (e e' : ε) : Erases Total erase (.error e) (.error e') where
  forth _ h := by cases h
  back _ _ h := by cases h

/-- Both go on from the same result. -/
theorem bind_same {δ : Type} {x : Except ε δ} {f : δ → Except ε α} {g : δ → Except ε β}
    (h : ∀ d, Erases Total erase (f d) (g d)) : Erases Total erase (x >>= f) (x >>= g) := by
  cases x with
  | error e => exact .error e e
  | ok d => exact h d

theorem bind {δ : Type} {erase' : γ → δ} {x : Except ε α} {y : Except ε β}
    {f : α → Except ε γ} {g : β → Except ε δ} (h : Erases Total erase x y)
    (hf : ∀ a, Erases Total erase' (f a) (g (erase a))) :
    Erases Total erase' (x >>= f) (y >>= g) := by
  constructor
  · intro c hc
    obtain ⟨a, ha, hc⟩ := ok_bind hc
    exact bind_ok_iff.mpr ⟨erase a, h.forth a ha, (hf a).forth c hc⟩
  · intro htotal d hd
    obtain ⟨b, hb, hd⟩ := ok_bind hd
    obtain ⟨a, ha, rfl⟩ := h.back htotal b hb
    obtain ⟨c, hc, hcd⟩ := (hf a).back htotal d hd
    exact ⟨c, bind_ok_iff.mpr ⟨a, ha, hc⟩, hcd⟩

/-- A fold of computations that agree. -/
theorem foldlM {δ : Type} {f : α → δ → Except ε α} {g : β → δ → Except ε β}
    (h : ∀ a d, Erases Total erase (f a d) (g (erase a) d)) (ds : List δ) (a : α) :
    Erases Total erase (ds.foldlM f a) (ds.foldlM g (erase a)) := by
  induction ds generalizing a with
  | nil => exact .ok a
  | cons d ds ih =>
    rw [List.foldlM_cons, List.foldlM_cons]
    exact (h a d).bind ih

end Erases

end IntoMarkdown.Lib
