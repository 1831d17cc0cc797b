import Mathlib

/-! # Forests given by parents

Every node has a parent or none. Where each chain of parents ends the links are a forest, and a
walk from the roots meets every node once. -/

namespace IntoMarkdown.Lib.Forest
open Relation
variable {α : Type} {up up' : α → Option α} {a b c : α}

def Link (up : α → Option α) (a b : α) : Prop := up a = some b

/-- The chain of parents of a node has so many links. -/
inductive Climbs (up : α → Option α) : α → Nat → Prop where
  | root {a : α} (h : up a = none) : Climbs up a 0
  | step {a b : α} {k : Nat} (h : up a = some b) (hb : Climbs up b k) : Climbs up a (k + 1)

/-! ## Chains -/

theorem Climbs.unique {j k : Nat} (hj : Climbs up a j) (hk : Climbs up a k) : j = k := by
  induction hj generalizing k with
  | root h =>
    cases hk with
    | root => rfl
    | step h' => rw [h] at h'; cases h'
  | step h hb ih =>
    cases hk with
    | root h' => rw [h] at h'; cases h'
    | step h' hb' =>
      rw [h] at h'
      cases h'
      rw [ih hb']

theorem Climbs.of_link {k : Nat} (h : Climbs up a k) (hlink : Link up a b) :
    ∃ j, k = j + 1 ∧ Climbs up b j := by
  cases h with
  | root hnone =>
    rw [Link, hnone] at hlink
    cases hlink
  | step hsome hb =>
    rw [Link, hsome] at hlink
    cases hlink
    exact ⟨_, rfl, hb⟩

theorem Climbs.of_transGen {k : Nat} (h : Climbs up a k) (hlinks : TransGen (Link up) a b) :
    ∃ j < k, Climbs up b j := by
  induction hlinks with
  | single hlink =>
    obtain ⟨j, rfl, hj⟩ := h.of_link hlink
    exact ⟨j, Nat.lt_succ_self j, hj⟩
  | tail _ hlink ih =>
    obtain ⟨i, hi, hclimbs⟩ := ih
    obtain ⟨j, rfl, hj⟩ := hclimbs.of_link hlink
    exact ⟨j, Nat.lt_of_succ_lt hi, hj⟩

/-- A chain that ends is not on a cycle. -/
theorem Climbs.not_cyclic {k : Nat} (h : Climbs up a k) : ¬ TransGen (Link up) a a := by
  intro hcycle
  obtain ⟨j, hlt, hj⟩ := h.of_transGen hcycle
  exact Nat.ne_of_lt hlt (hj.unique h)

/-! ## Cut links -/

/-- The parents without the links of some nodes. -/
structure Cut (up up' : α → Option α) (cut : List α) : Prop where
  mem : ∀ a ∈ cut, up' a = none
  not_mem : ∀ a ∉ cut, up' a = up a

/-- One link is cut on each cycle, and no other. -/
structure OnePerCycle (up : α → Option α) (cut : List α) : Prop where
  nodup : cut.Nodup
  cyclic : ∀ a ∈ cut, TransGen (Link up) a a
  cycle : ∀ a, TransGen (Link up) a a → ∃! d, d ∈ cut ∧ TransGen (Link up) a d

theorem Cut.link {cut : List α} (h : Cut up up' cut) (hlink : Link up' a b) : Link up a b := by
  by_cases hmem : a ∈ cut
  · rw [Link, h.mem a hmem] at hlink
    cases hlink
  · rw [Link, h.not_mem a hmem] at hlink
    exact hlink

/-- On a cycle what comes later comes before as well. -/
theorem transGen_back (hcycle : TransGen (Link up) a a) (h : TransGen (Link up) a b) :
    TransGen (Link up) b a := by
  have hnext : ∀ c d, TransGen (Link up) c a → Link up c d → TransGen (Link up) d a := by
    intro c d hca hcd
    obtain ⟨e, hce, hea⟩ := TransGen.head'_iff.mp hca
    obtain rfl : e = d := Option.some.inj (hce.symm.trans hcd)
    exact TransGen.trans_right hea hcycle
  induction h with
  | single hlink => exact hnext a _ hcycle hlink
  | tail _ hlink ih => exact hnext _ _ ih hlink

/-- Where no chain is endless any more, every cycle has been cut. -/
theorem Cut.exists_on_cycle {cut : List α} {k : Nat} (h : Cut up up' cut)
    (hclimbs : Climbs up' a k) (hcycle : TransGen (Link up) a a) :
    ∃ d ∈ cut, TransGen (Link up) a d := by
  by_contra hnone
  push Not at hnone
  have hlink : ∀ c d, TransGen (Link up) a c → Link up c d → Link up' c d := by
    intro c d hac hcd
    rw [Link, h.not_mem c fun hmem => hnone c hmem hac]
    exact hcd
  have hstart : ∀ c, Link up a c → Link up' a c := fun c => hlink a c hcycle
  refine hclimbs.not_cyclic ?_
  have hlift : ∀ c, TransGen (Link up) a c → TransGen (Link up') a c := by
    intro c hac
    induction hac with
    | single hac => exact .single (hstart _ hac)
    | tail hac hcd ih => exact ih.tail (hlink _ _ hac hcd)
  exact hlift a hcycle

/-- Cut nodes of which none leads to another leave one on each cycle. -/
theorem Cut.onePerCycle {cut : List α} (h : Cut up up' cut) (hnodup : cut.Nodup)
    (hcyclic : ∀ a ∈ cut, TransGen (Link up) a a)
    (hapart : ∀ a ∈ cut, ∀ b ∈ cut, TransGen (Link up) a b → a = b)
    (hclimbs : ∀ a, TransGen (Link up) a a → ∃ k, Climbs up' a k) : OnePerCycle up cut := by
  refine ⟨hnodup, hcyclic, fun a hcycle => ?_⟩
  obtain ⟨k, hk⟩ := hclimbs a hcycle
  obtain ⟨d, hd, had⟩ := h.exists_on_cycle hk hcycle
  refine ⟨d, ⟨hd, had⟩, fun e he => ?_⟩
  exact hapart e he.1 d hd ((transGen_back hcycle he.2).trans had)

/-! ## Walks -/

/-- A node, and what is below it, as deep as so many levels. -/
def visit (kids : α → List α) : Nat → α → List α
  | 0, a => [a]
  | levels + 1, a => a :: (kids a).flatMap (visit kids levels)

/-- The parent's parent, so many times. -/
def ancestor (up : α → Option α) : Nat → α → Option α
  | 0, a => some a
  | k + 1, a => (ancestor up k a).bind up

theorem ancestor_succ {k : Nat} (h : ancestor up k a = some b) :
    ancestor up (k + 1) a = up b := by
  rw [ancestor, h, Option.bind_some]

theorem ancestor_succ_eq_some {k : Nat} :
    ancestor up (k + 1) a = some c ↔ ∃ b, ancestor up k a = some b ∧ up b = some c :=
  Option.bind_eq_some_iff

/-- A rank that falls along every link. -/
def Falls (up : α → Option α) (rank : α → Nat) : Prop := ∀ a b, up a = some b → rank b < rank a

theorem Falls.ancestor {rank : α → Nat} (h : Falls up rank) {k : Nat}
    (hk : ancestor up k a = some b) : rank b + k ≤ rank a := by
  induction k generalizing b with
  | zero => exact Nat.le_of_eq (congrArg rank (Option.some.inj hk).symm)
  | succ k ih =>
    obtain ⟨c, hc, hup⟩ := ancestor_succ_eq_some.mp hk
    have hrank := ih hc
    have hfall := h c b hup
    omega

/-- No two ancestors of a node are the same node. -/
theorem Falls.ancestor_injective {rank : α → Nat} (h : Falls up rank) {j k : Nat}
    (hj : Forest.ancestor up j a = some b) (hk : Forest.ancestor up k a = some b) : j = k := by
  have hbetween : ∀ i n, Forest.ancestor up i a = some b →
      Forest.ancestor up (i + n) a = Forest.ancestor up n b := by
    intro i n hi
    induction n with
    | zero => exact hi
    | succ n ih => rw [← Nat.add_assoc, Forest.ancestor, ih, Forest.ancestor]
  have hno : ∀ n, Forest.ancestor up (n + 1) b ≠ some b := by
    intro n hn
    have hrank := h.ancestor hn
    omega
  rcases Nat.lt_trichotomy j k with hlt | heq | hgt
  · obtain ⟨n, rfl⟩ := Nat.exists_eq_add_of_lt hlt
    rw [Nat.add_assoc, hbetween j (n + 1) hj] at hk
    exact absurd hk (hno n)
  · exact heq
  · obtain ⟨n, rfl⟩ := Nat.exists_eq_add_of_lt hgt
    rw [Nat.add_assoc, hbetween k (n + 1) hk] at hj
    exact absurd hj (hno n)

/-- The nodes of a forest, with the nodes below each. -/
structure Rooted (up : α → Option α) (nodes : List α) (kids : α → List α) (rank : α → Nat) :
    Prop where
  nodup : nodes.Nodup
  falls : Falls up rank
  kids_nodup : ∀ a, (kids a).Nodup
  mem_kids : ∀ a b, b ∈ kids a ↔ b ∈ nodes ∧ up b = some a
  closed : ∀ a ∈ nodes, ∀ b, up a = some b → b ∈ nodes

section
variable {nodes : List α} {kids : α → List α} {rank : α → Nat}

theorem Rooted.ancestor_mem (h : Rooted up nodes kids rank) (ha : a ∈ nodes) {k : Nat}
    (hk : ancestor up k a = some b) : b ∈ nodes := by
  induction k generalizing b with
  | zero => exact Option.some.inj hk ▸ ha
  | succ k ih =>
    obtain ⟨c, hc, hup⟩ := ancestor_succ_eq_some.mp hk
    exact h.closed c (ih hc) b hup

theorem Rooted.mem_visit (h : Rooted up nodes kids rank) {levels : Nat} (ha : a ∈ nodes) :
    b ∈ visit kids levels a ↔ b ∈ nodes ∧ ∃ k ≤ levels, ancestor up k b = some a := by
  induction levels generalizing a with
  | zero =>
    rw [visit, List.mem_singleton]
    constructor
    · rintro rfl
      exact ⟨ha, 0, Nat.le_refl 0, rfl⟩
    · rintro ⟨-, k, hk, hancestor⟩
      obtain rfl := Nat.le_zero.mp hk
      exact Option.some.inj hancestor
  | succ levels ih =>
    rw [visit, List.mem_cons, List.mem_flatMap]
    constructor
    · rintro (rfl | ⟨c, hc, hb⟩)
      · exact ⟨ha, 0, Nat.zero_le _, rfl⟩
      · obtain ⟨hcnodes, hup⟩ := (h.mem_kids a c).mp hc
        obtain ⟨hbnodes, k, hk, hancestor⟩ := (ih hcnodes).mp hb
        exact ⟨hbnodes, k + 1, Nat.succ_le_succ hk, (ancestor_succ hancestor).trans hup⟩
    · rintro ⟨hbnodes, k, hk, hancestor⟩
      cases k with
      | zero => exact .inl (Option.some.inj hancestor)
      | succ k =>
        obtain ⟨c, hc, hup⟩ := ancestor_succ_eq_some.mp hancestor
        have hcnodes := h.ancestor_mem hbnodes hc
        exact .inr ⟨c, (h.mem_kids a c).mpr ⟨hcnodes, hup⟩,
          (ih hcnodes).mpr ⟨hbnodes, k, Nat.le_of_succ_le_succ hk, hc⟩⟩

theorem Rooted.nodup_visit (h : Rooted up nodes kids rank) {levels : Nat} (ha : a ∈ nodes) :
    (visit kids levels a).Nodup := by
  induction levels generalizing a with
  | zero => exact List.nodup_singleton a
  | succ levels ih =>
    have hkid : ∀ c ∈ kids a, c ∈ nodes ∧ up c = some a := fun c => (h.mem_kids a c).mp
    rw [visit, List.nodup_cons, List.mem_flatMap, List.nodup_flatMap]
    refine ⟨?_, fun c hc => ih (hkid c hc).1, ?_⟩
    · rintro ⟨c, hc, hac⟩
      obtain ⟨-, k, -, hancestor⟩ := (h.mem_visit (hkid c hc).1).mp hac
      have hself := (ancestor_succ hancestor).trans (hkid c hc).2
      exact absurd (h.falls.ancestor_injective hself (show ancestor up 0 a = some a from rfl))
        (Nat.succ_ne_zero k)
    · refine (h.kids_nodup a).imp_of_mem fun {c d} hc hd hne => ?_
      intro b hbc hbd
      obtain ⟨-, j, -, hj⟩ := (h.mem_visit (hkid c hc).1).mp hbc
      obtain ⟨-, k, -, hk⟩ := (h.mem_visit (hkid d hd).1).mp hbd
      have hsame := h.falls.ancestor_injective ((ancestor_succ hj).trans (hkid c hc).2)
        ((ancestor_succ hk).trans (hkid d hd).2)
      obtain rfl := Nat.succ.inj hsame
      exact hne (Option.some.inj (hj.symm.trans hk))

/-- Every chain of parents ends at a root. -/
theorem Rooted.exists_root (h : Rooted up nodes kids rank) (ha : a ∈ nodes) :
    ∃ r ∈ nodes, up r = none ∧ ∃ k ≤ rank a, ancestor up k a = some r := by
  induction hrank : rank a using Nat.strong_induction_on generalizing a with
  | _ n ih =>
    cases hup : up a with
    | none => exact ⟨a, ha, hup, 0, Nat.zero_le _, rfl⟩
    | some b =>
      have hfall := h.falls a b hup
      obtain ⟨r, hr, hnone, k, hk, hancestor⟩ :=
        ih (rank b) (hrank ▸ hfall) (h.closed a ha b hup) rfl
      refine ⟨r, hr, hnone, k + 1, by omega, ?_⟩
      have hshift : ∀ i, ancestor up (i + 1) a = ancestor up i b := by
        intro i
        induction i with
        | zero => exact hup
        | succ i ih => rw [ancestor, ih, ancestor]
      rw [hshift, hancestor]

/-- A walk from the roots meets every node, and none twice. -/
theorem Rooted.walk_perm [DecidableEq α] (h : Rooted up nodes kids rank) {levels : Nat}
    (hlevels : ∀ a ∈ nodes, rank a ≤ levels) :
    ((nodes.filter fun a => up a = none).flatMap (visit kids levels)).Perm nodes := by
  have hroot : ∀ r ∈ nodes.filter fun a => up a = none, r ∈ nodes ∧ up r = none := by
    intro r hr
    obtain ⟨hmem, hnone⟩ := List.mem_filter.mp hr
    exact ⟨hmem, of_decide_eq_true hnone⟩
  refine (List.perm_ext_iff_of_nodup ?_ h.nodup).mpr fun b => ?_
  · rw [List.nodup_flatMap]
    refine ⟨fun r hr => h.nodup_visit (hroot r hr).1, ?_⟩
    refine (h.nodup.filter _).imp_of_mem fun {r s} hr hs hne => ?_
    intro b hbr hbs
    obtain ⟨-, j, -, hj⟩ := (h.mem_visit (hroot r hr).1).mp hbr
    obtain ⟨-, k, -, hk⟩ := (h.mem_visit (hroot s hs).1).mp hbs
    have hends : ∀ i n r, ancestor up i b = some r → up r = none →
        ancestor up (i + (n + 1)) b = none := by
      intro i n r hi hnone
      induction n with
      | zero => exact (ancestor_succ hi).trans hnone
      | succ n ih => rw [← Nat.add_assoc, ancestor, ih, Option.bind_none]
    rcases Nat.lt_trichotomy j k with hlt | rfl | hgt
    · obtain ⟨n, rfl⟩ := Nat.exists_eq_add_of_lt hlt
      rw [Nat.add_assoc, hends j n r hj (hroot r hr).2] at hk
      cases hk
    · exact hne (Option.some.inj (hj.symm.trans hk))
    · obtain ⟨n, rfl⟩ := Nat.exists_eq_add_of_lt hgt
      rw [Nat.add_assoc, hends k n s hk (hroot s hs).2] at hj
      cases hj
  · rw [List.mem_flatMap]
    constructor
    · rintro ⟨r, hr, hb⟩
      exact ((h.mem_visit (hroot r hr).1).mp hb).1
    · intro hb
      obtain ⟨r, hr, hnone, k, hk, hancestor⟩ := h.exists_root hb
      exact ⟨r, List.mem_filter.mpr ⟨hr, decide_eq_true hnone⟩,
        (h.mem_visit hr).mpr ⟨hb, k, hk.trans (hlevels b hb), hancestor⟩⟩

end

end IntoMarkdown.Lib.Forest
