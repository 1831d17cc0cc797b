import Mathlib

/-! # Executable transition systems

A system is a partial step function `step : σ → α → Option σ`; `none` means
that the action is not enabled. Everything proved here is about an arbitrary
step function, so a development instantiates it with its own states and
actions and keeps its invariants as plain predicates on states. -/

namespace IntoMarkdown.Transition

universe u v
variable {σ : Type u} {α : Type v} {step : σ → α → Option σ}

/-- The state after a list of actions, when all of them are enabled. -/
def exec (step : σ → α → Option σ) : σ → List α → Option σ
  | s, [] => some s
  | s, a :: as => (step s a).bind fun s' => exec step s' as

/-- `s` is reached from `init` by some list of actions. -/
def Reachable (step : σ → α → Option σ) (init s : σ) : Prop :=
  ∃ as, exec step init as = some s

@[simp] theorem exec_nil (s : σ) : exec step s [] = some s := rfl

theorem exec_cons (s : σ) (a : α) (as : List α) :
    exec step s (a :: as) = (step s a).bind fun s' => exec step s' as := rfl

theorem exec_cons_of_step {s s' : σ} {a : α} (h : step s a = some s') (as : List α) :
    exec step s (a :: as) = exec step s' as := by
  rw [exec_cons, h]; rfl

theorem exec_append (s : σ) (as bs : List α) :
    exec step s (as ++ bs) = (exec step s as).bind fun s' => exec step s' bs := by
  induction as generalizing s with
  | nil => rfl
  | cons a as ih =>
    simp only [List.cons_append, exec_cons]
    cases step s a with
    | none => rfl
    | some s' => exact ih s'

theorem exec_snoc {s t : σ} {as : List α} {a : α} {u : σ}
    (h : exec step s as = some t) (ha : step t a = some u) :
    exec step s (as ++ [a]) = some u := by
  rw [exec_append, h]
  simp [exec_cons, ha]

/-- **Invariant rule.** What holds at the start and is kept by every step
holds after every run. -/
theorem exec_invariant {I : σ → Prop}
    (hstep : ∀ s a s', I s → step s a = some s' → I s') :
    ∀ {as : List α} {s t : σ}, I s → exec step s as = some t → I t := by
  intro as
  induction as with
  | nil =>
    intro s t hs ht
    cases ht
    exact hs
  | cons a as ih =>
    intro s t hs ht
    rw [exec_cons] at ht
    cases hn : step s a with
    | none => simp [hn] at ht
    | some s' =>
      rw [hn] at ht
      exact ih (hstep s a s' hs hn) ht

/-- `C` holds of every step of a run. -/
def Along (step : σ → α → Option σ) (C : σ → α → Prop) : σ → List α → Prop
  | _, [] => True
  | s, a :: as => C s a ∧ ∀ s', step s a = some s' → Along step C s' as

/-- **Invariant rule** for runs whose steps all meet a condition. -/
theorem exec_invariant_along {I : σ → Prop} {C : σ → α → Prop}
    (hstep : ∀ s a s', I s → C s a → step s a = some s' → I s') :
    ∀ {as : List α} {s t : σ}, I s → Along step C s as → exec step s as = some t → I t := by
  intro as
  induction as with
  | nil =>
    intro s t hs _ ht
    cases ht
    exact hs
  | cons a as ih =>
    intro s t hs hc ht
    rw [exec_cons] at ht
    cases hn : step s a with
    | none => simp [hn] at ht
    | some s' =>
      rw [hn] at ht
      exact ih (hstep s a s' hs hc.1 hn) (hc.2 s' hn) ht

/-- A condition that is met exactly where the next state is good is met by all
steps of a run exactly where all its later states are good. -/
theorem along_iff {I G : σ → Prop} {C : σ → α → Prop}
    (hstep : ∀ s a s', I s → step s a = some s' → I s')
    (hgood : ∀ s a s', I s → G s → step s a = some s' → (G s' ↔ C s a)) :
    ∀ {as : List α} {s t : σ}, I s → G s → exec step s as = some t →
      (Along step C s as ↔ ∀ bs u, bs <+: as → exec step s bs = some u → G u) := by
  intro as
  induction as with
  | nil =>
    intro s t hs hg _
    constructor
    · rintro - bs u hbs hu
      obtain rfl := List.prefix_nil.mp hbs
      cases hu
      exact hg
    · exact fun _ => trivial
  | cons a as ih =>
    intro s t hs hg ht
    rw [exec_cons] at ht
    cases hn : step s a with
    | none => simp [hn] at ht
    | some s' =>
      rw [hn] at ht
      have hs' := hstep s a s' hs hn
      constructor
      · rintro ⟨hc, hrest⟩ bs u hbs hu
        have hg' := (hgood s a s' hs hg hn).mpr hc
        cases bs with
        | nil =>
          cases hu
          exact hg
        | cons b bs =>
          obtain ⟨rfl, htail⟩ := List.cons_prefix_cons.mp hbs
          rw [exec_cons_of_step hn] at hu
          exact (ih hs' hg' ht).mp (hrest s' hn) bs u htail hu
      · intro hall
        have hg' := hall [a] s' (by simp) (by rw [exec_cons_of_step hn, exec_nil])
        refine ⟨(hgood s a s' hs hg hn).mp hg', ?_⟩
        intro s'' hs''
        obtain rfl := Option.some.inj (hn.symm.trans hs'')
        refine (ih hs' hg' ht).mpr fun bs u hbs hu => hall (a :: bs) u ?_ ?_
        · exact List.cons_prefix_cons.mpr ⟨rfl, hbs⟩
        · rw [exec_cons_of_step hn, hu]

/-- **Measure rule.** Where every step from a state of the invariant makes a
measure smaller, no run is longer than the measure at its start. -/
theorem exec_length_le {I : σ → Prop} {μ : σ → Nat}
    (hstep : ∀ s a s', I s → step s a = some s' → I s' ∧ μ s' < μ s) :
    ∀ {as : List α} {s t : σ}, I s → exec step s as = some t → as.length + μ t ≤ μ s := by
  intro as
  induction as with
  | nil =>
    intro s t _ ht
    cases ht
    simp
  | cons a as ih =>
    intro s t hs ht
    rw [exec_cons] at ht
    cases hn : step s a with
    | none => simp [hn] at ht
    | some s' =>
      rw [hn] at ht
      obtain ⟨hs', hlt⟩ := hstep s a s' hs hn
      have hrest := ih hs' ht
      rw [List.length_cons]
      omega

theorem Reachable.invariant {I : σ → Prop} {init s : σ} (h : Reachable step init s)
    (h0 : I init) (hstep : ∀ s a s', I s → step s a = some s' → I s') : I s := by
  obtain ⟨as, has⟩ := h
  exact exec_invariant hstep h0 has

theorem Reachable.refl (s : σ) : Reachable step s s := ⟨[], rfl⟩

theorem Reachable.next {init s s' : σ} {a : α} (h : Reachable step init s)
    (hs : step s a = some s') : Reachable step init s' := by
  obtain ⟨as, has⟩ := h
  exact ⟨as ++ [a], exec_snoc has hs⟩

/-- Where a measure gets smaller and some step is enabled until `P` holds, some
run reaches `P`. -/
theorem exists_reachable {I P : σ → Prop} {μ : σ → Nat}
    (hstep : ∀ s a s', I s → step s a = some s' → I s' ∧ μ s' < μ s)
    (hgo : ∀ s, I s → ¬ P s → ∃ a s', step s a = some s') {s : σ} (hs : I s) :
    ∃ t, Reachable step s t ∧ I t ∧ P t := by
  induction hn : μ s using Nat.strong_induction_on generalizing s with
  | _ n ih =>
    by_cases hp : P s
    · exact ⟨s, Reachable.refl s, hs, hp⟩
    · obtain ⟨a, s', hs'⟩ := hgo s hs hp
      obtain ⟨hi, hlt⟩ := hstep s a s' hs hs'
      obtain ⟨t, ⟨as, has⟩, ht⟩ := ih (μ s') (hn ▸ hlt) hi rfl
      exact ⟨t, ⟨a :: as, by rw [exec_cons_of_step hs', has]⟩, ht⟩

end IntoMarkdown.Transition
