import Mathlib

/-! # Ordered finite maps

An association list in strictly ascending key order, so that there is at most
one entry for a key and a traversal visits the keys in order. -/

namespace IntoMarkdown

/-- Entries in strictly ascending key order. -/
structure OrderedMap (κ : Type*) (ν : Type*) [LinearOrder κ] where
  entries : List (κ × ν)
  sorted : entries.Pairwise fun a b => a.1 < b.1

namespace OrderedMap
variable {κ ν : Type*} [LinearOrder κ]

instance : Membership (κ × ν) (OrderedMap κ ν) := ⟨fun m e => e ∈ m.entries⟩

def empty : OrderedMap κ ν := ⟨[], List.Pairwise.nil⟩

def insert (m : OrderedMap κ ν) (k : κ) (v : ν) : OrderedMap κ ν where
  entries := m.entries.filter (·.1 < k) ++ (k, v) :: m.entries.filter (k < ·.1)
  sorted := by
    refine List.pairwise_append.mpr ⟨m.sorted.filter _, ?_, ?_⟩
    · refine List.pairwise_cons.mpr ⟨fun a ha => ?_, m.sorted.filter _⟩
      simpa using (List.mem_filter.mp ha).2
    · intro a ha b hb
      have hak : a.1 < k := by simpa using (List.mem_filter.mp ha).2
      rcases List.mem_cons.mp hb with rfl | hb
      · exact hak
      · exact lt_trans hak (by simpa using (List.mem_filter.mp hb).2)

def erase (m : OrderedMap κ ν) (k : κ) : OrderedMap κ ν where
  entries := m.entries.filter (·.1 ≠ k)
  sorted := m.sorted.filter _

theorem mem_def {m : OrderedMap κ ν} {e : κ × ν} : e ∈ m ↔ e ∈ m.entries := Iff.rfl

@[simp] theorem not_mem_empty (e : κ × ν) : e ∉ (empty : OrderedMap κ ν) :=
  List.not_mem_nil

@[simp] theorem mem_insert {m : OrderedMap κ ν} {k : κ} {v : ν} {e : κ × ν} :
    e ∈ m.insert k v ↔ e = (k, v) ∨ e ∈ m ∧ e.1 ≠ k := by
  simp only [mem_def, insert, List.mem_append, List.mem_filter, List.mem_cons, decide_eq_true_eq,
    ne_iff_lt_or_gt]
  tauto

@[simp] theorem mem_erase {m : OrderedMap κ ν} {k : κ} {e : κ × ν} :
    e ∈ m.erase k ↔ e ∈ m ∧ e.1 ≠ k := by
  simp [mem_def, erase, List.mem_filter]

theorem nodup_entries (m : OrderedMap κ ν) : m.entries.Nodup :=
  m.sorted.imp fun h heq => absurd h (by rw [heq]; exact lt_irrefl _)

/-- A key above all others goes to the end. -/
theorem entries_insert_last {m : OrderedMap κ ν} {k : κ} {v : ν} (h : ∀ e ∈ m, e.1 < k) :
    (m.insert k v).entries = m.entries ++ [(k, v)] := by
  have hbelow : m.entries.filter (·.1 < k) = m.entries :=
    List.filter_eq_self.mpr fun e he => by simpa using h e he
  have habove : m.entries.filter (k < ·.1) = [] :=
    List.filter_eq_nil_iff.mpr fun e he => by simpa using (h e he).le
  simp only [insert, hbelow, habove]

/-! ## Lookup -/

def lookup (m : OrderedMap κ ν) (k : κ) : Option ν := (m.entries.find? (·.1 = k)).map (·.2)

/-- At most one entry has a given key. -/
theorem eq_of_mem {m : OrderedMap κ ν} {k : κ} {v w : ν} (hv : (k, v) ∈ m) (hw : (k, w) ∈ m) :
    v = w := by
  have key : ∀ l : List (κ × ν), (l.Pairwise fun a b => a.1 < b.1) → (k, v) ∈ l → (k, w) ∈ l →
      v = w := by
    intro l
    induction l with
    | nil => simp
    | cons e l ih =>
      intro hs h1 h2
      obtain ⟨hlt, hs⟩ := List.pairwise_cons.mp hs
      rcases List.mem_cons.mp h1 with hv | hv <;> rcases List.mem_cons.mp h2 with hw | hw
      · exact (Prod.mk.inj (hv.trans hw.symm)).2
      · rw [← hv] at hlt
        exact absurd (hlt (k, w) hw) (lt_irrefl k)
      · rw [← hw] at hlt
        exact absurd (hlt (k, v) hv) (lt_irrefl k)
      · exact ih hs hv hw
  exact key m.entries m.sorted hv hw

theorem lookup_eq_some {m : OrderedMap κ ν} {k : κ} {v : ν} : m.lookup k = some v ↔ (k, v) ∈ m := by
  constructor
  · intro h
    obtain ⟨e, he, rfl⟩ := Option.map_eq_some_iff.mp h
    have hk : e.1 = k := by simpa using List.find?_some he
    subst hk
    exact List.mem_of_find?_eq_some he
  · intro h
    cases hf : m.entries.find? (·.1 = k) with
    | none =>
      have := List.find?_eq_none.mp hf (k, v) h
      simp at this
    | some e =>
      have hk : e.1 = k := by simpa using List.find?_some hf
      have he : (k, e.2) ∈ m := by
        subst hk
        exact List.mem_of_find?_eq_some hf
      simp [lookup, hf, eq_of_mem he h]

theorem lookup_congr {m m' : OrderedMap κ ν} {k k' : κ}
    (h : ∀ v, (k, v) ∈ m ↔ (k', v) ∈ m') : m.lookup k = m'.lookup k' := by
  apply Option.ext
  intro v
  rw [lookup_eq_some, lookup_eq_some, h]

@[simp] theorem lookup_empty (k : κ) : (empty : OrderedMap κ ν).lookup k = none := rfl

theorem lookup_insert (m : OrderedMap κ ν) (k : κ) (v : ν) (k' : κ) :
    (m.insert k v).lookup k' = if k' = k then some v else m.lookup k' := by
  split
  · rename_i h
    rw [lookup_eq_some, mem_insert]
    exact Or.inl (by rw [h])
  · rename_i h
    apply lookup_congr
    simp [h]

theorem lookup_erase (m : OrderedMap κ ν) (k k' : κ) :
    (m.erase k).lookup k' = if k' = k then none else m.lookup k' := by
  split
  · rename_i h
    apply Option.eq_none_iff_forall_ne_some.mpr
    intro v hv
    rw [lookup_eq_some, mem_erase] at hv
    exact hv.2 h
  · rename_i h
    apply lookup_congr
    simp [h]

theorem lookup_eq_none {m : OrderedMap κ ν} {k : κ} :
    m.lookup k = none ↔ ∀ e ∈ m, e.1 ≠ k := by
  rw [Option.eq_none_iff_forall_ne_some]
  constructor
  · rintro h ⟨k', v⟩ he rfl
    exact h v (lookup_eq_some.mpr he)
  · intro h v hv
    exact h (k, v) (lookup_eq_some.mp hv) rfl

/-- A new entry is one more. -/
theorem perm_insert {m : OrderedMap κ ν} {k : κ} {v : ν} (h : m.lookup k = none) :
    (m.insert k v).entries.Perm ((k, v) :: m.entries) := by
  rw [lookup_eq_none] at h
  have hnew : (k, v) ∉ m.entries := fun he => h _ he rfl
  refine (List.perm_ext_iff_of_nodup (nodup_entries _)
    (List.nodup_cons.mpr ⟨hnew, m.nodup_entries⟩)).mpr fun e => ?_
  rw [← mem_def, mem_insert, List.mem_cons]
  constructor
  · rintro (rfl | ⟨he, -⟩)
    · exact .inl rfl
    · exact .inr he
  · rintro (rfl | he)
    · exact .inl rfl
    · exact .inr ⟨he, h e he⟩

/-- An entry and the others. -/
theorem perm_erase {m : OrderedMap κ ν} {k : κ} {v : ν} (h : (k, v) ∈ m) :
    ((k, v) :: (m.erase k).entries).Perm m.entries := by
  have hnew : (k, v) ∉ (m.erase k).entries := fun he => (mem_erase.mp he).2 rfl
  refine (List.perm_ext_iff_of_nodup (List.nodup_cons.mpr ⟨hnew, nodup_entries _⟩)
    m.nodup_entries).mpr fun e => ?_
  rw [List.mem_cons, ← mem_def, ← mem_def, mem_erase]
  constructor
  · rintro (rfl | ⟨he, -⟩)
    · exact h
    · exact he
  · intro he
    by_cases hk : e.1 = k
    · obtain ⟨k', w⟩ := e
      obtain rfl : k' = k := hk
      exact .inl (by rw [eq_of_mem he h])
    · exact .inr ⟨he, hk⟩

/-! ## Neighbours -/

/-- The last entry whose key is not above. -/
def atMost (m : OrderedMap κ ν) (k : κ) : Option (κ × ν) := (m.entries.filter (·.1 ≤ k)).getLast?

def between (m : OrderedMap κ ν) (low high : κ) : List (κ × ν) :=
  m.entries.filter fun e => low ≤ e.1 ∧ e.1 ≤ high

def values (m : OrderedMap κ ν) : List ν := m.entries.map (·.2)

theorem atMost_some {m : OrderedMap κ ν} {k : κ} {e : κ × ν} (h : m.atMost k = some e) :
    e ∈ m ∧ e.1 ≤ k := by
  have hmem := List.mem_filter.mp (List.mem_of_getLast? h)
  exact ⟨hmem.1, of_decide_eq_true hmem.2⟩

/-- A bound cuts the entries in two. -/
theorem entries_cut (m : OrderedMap κ ν) (k : κ) :
    m.entries = m.entries.filter (·.1 ≤ k) ++ m.entries.filter (k < ·.1) := by
  have key : ∀ l : List (κ × ν), (l.Pairwise fun a b => a.1 < b.1) →
      l = l.filter (·.1 ≤ k) ++ l.filter (k < ·.1) := by
    intro l
    induction l with
    | nil => simp
    | cons e l ih =>
      intro hs
      obtain ⟨hlt, hs⟩ := List.pairwise_cons.mp hs
      by_cases hle : e.1 ≤ k
      · rw [List.filter_cons_of_pos (by simpa using hle),
          List.filter_cons_of_neg (by simpa using hle), List.cons_append, ← ih hs]
      · have hnone : l.filter (·.1 ≤ k) = [] := by
          rw [List.filter_eq_nil_iff]
          intro a ha hak
          exact hle ((hlt a ha).le.trans (of_decide_eq_true hak))
        have hall : l.filter (k < ·.1) = l := by
          rw [List.filter_eq_self]
          intro a ha
          exact decide_eq_true ((not_le.mp hle).trans (hlt a ha))
        rw [List.filter_cons_of_neg (by simpa using hle),
          List.filter_cons_of_pos (by simpa using hle), hnone, hall]
        rfl
  exact key m.entries m.sorted

theorem atMost_last {m : OrderedMap κ ν} {k : κ} {e : κ × ν} (he : e ∈ m) (hk : e.1 ≤ k) :
    ∃ p, m.atMost k = some p ∧ e.1 ≤ p.1 := by
  have hmem : e ∈ m.entries.filter (·.1 ≤ k) := List.mem_filter.mpr ⟨he, decide_eq_true hk⟩
  rcases List.eq_nil_or_concat' (m.entries.filter (·.1 ≤ k)) with hnil | ⟨front, p, hlast⟩
  · rw [hnil] at hmem
    cases hmem
  · refine ⟨p, by rw [atMost, hlast, List.getLast?_concat], ?_⟩
    have hsorted := m.sorted.filter (fun e => decide (e.1 ≤ k))
    rw [hlast] at hmem hsorted
    rcases List.mem_append.mp hmem with hmem | hmem
    · exact ((List.pairwise_append.mp hsorted).2.2 e hmem p List.mem_cons_self).le
    · rw [List.mem_singleton.mp hmem]

/-! ## Relations between neighbours -/

variable {R : κ × ν → κ × ν → Prop}

theorem related_of_lt {m : OrderedMap κ ν} (h : m.entries.Pairwise R) {a b : κ × ν} (ha : a ∈ m)
    (hb : b ∈ m) (hlt : a.1 < b.1) : R a b := by
  rw [m.entries_cut a.1] at h
  exact (List.pairwise_append.mp h).2.2 a (List.mem_filter.mpr ⟨ha, decide_eq_true (le_refl a.1)⟩)
    b (List.mem_filter.mpr ⟨hb, decide_eq_true hlt⟩)

theorem pairwise_insert {m : OrderedMap κ ν} (h : m.entries.Pairwise R) {k : κ} {v : ν}
    (hbefore : ∀ a ∈ m, a.1 < k → R a (k, v)) (hbehind : ∀ b ∈ m, k < b.1 → R (k, v) b) :
    (m.insert k v).entries.Pairwise R := by
  refine List.pairwise_append.mpr ⟨h.sublist List.filter_sublist,
    List.pairwise_cons.mpr ⟨fun b hb => ?_, h.sublist List.filter_sublist⟩, fun a ha b hb => ?_⟩
  · obtain ⟨hb, hlt⟩ := List.mem_filter.mp hb
    exact hbehind b hb (of_decide_eq_true hlt)
  · obtain ⟨ha, hlt⟩ := List.mem_filter.mp ha
    rcases List.mem_cons.mp hb with rfl | hb
    · exact hbefore a ha (of_decide_eq_true hlt)
    · obtain ⟨hb, hlt'⟩ := List.mem_filter.mp hb
      exact related_of_lt h ha hb ((of_decide_eq_true hlt).trans (of_decide_eq_true hlt'))

end OrderedMap
end IntoMarkdown
