import Mathlib

/-! # A stream as its reader gets it

The items in the runs in which they arrive. A read takes a part of the first run,
and gets nothing only at the end. -/

namespace IntoMarkdown.Lib

structure Arrivals (α : Type) where
  runs : List (List α)
  nonempty : ∀ run ∈ runs, run ≠ []
  deriving DecidableEq

namespace Arrivals
variable {α : Type}

def all (a : Arrivals α) : List α := a.runs.flatten

/-- Every item by itself. -/
def singly (items : List α) : Arrivals α where
  runs := items.map fun item => [item]
  nonempty := by
    intro run h
    obtain ⟨item, -, rfl⟩ := List.mem_map.mp h
    exact List.cons_ne_nil _ _

@[simp] theorem all_singly (items : List α) : (singly items).all = items := by
  induction items with
  | nil => rfl
  | cons item items ih => simpa [all, singly] using ih

/-- A read into a buffer of `n` items. -/
def read (n : Nat) : Arrivals α → List α × Arrivals α
  | ⟨[], h⟩ => ([], ⟨[], h⟩)
  | ⟨run :: runs, h⟩ =>
    have hruns : ∀ r ∈ runs, r ≠ [] := fun r hr => h r (List.mem_cons_of_mem _ hr)
    if hlength : run.length ≤ n then (run, ⟨runs, hruns⟩)
    else
      (run.take n, ⟨run.drop n :: runs, by
        intro r hr
        rcases List.mem_cons.mp hr with rfl | hr
        · exact fun hnil => hlength (List.drop_eq_nil_iff.mp hnil)
        · exact hruns r hr⟩)

theorem read_all (n : Nat) (a : Arrivals α) : (a.read n).1 ++ (a.read n).2.all = a.all := by
  obtain ⟨_ | ⟨run, runs⟩, h⟩ := a
  · rfl
  · unfold read
    dsimp only
    split
    · simp [all]
    · simp [all, ← List.append_assoc]

theorem read_length (n : Nat) (a : Arrivals α) : (a.read n).1.length ≤ n := by
  obtain ⟨_ | ⟨run, runs⟩, h⟩ := a
  · simp [read]
  · unfold read
    dsimp only
    split
    · assumption
    · simp

theorem read_eq_nil {n : Nat} (hn : 0 < n) (a : Arrivals α) :
    (a.read n).1 = [] ↔ a.all = [] := by
  obtain ⟨_ | ⟨run, runs⟩, h⟩ := a
  · simp [read, all]
  · have hrun : run ≠ [] := h run List.mem_cons_self
    have hall : (⟨run :: runs, h⟩ : Arrivals α).all ≠ [] := by simp [all, hrun]
    refine iff_of_false ?_ hall
    unfold read
    dsimp only
    split
    · exact hrun
    · simpa [hrun] using by omega

theorem all_read_lt {n : Nat} {a : Arrivals α} (h : (a.read n).1 ≠ []) :
    (a.read n).2.all.length < a.all.length := by
  have hall := congrArg List.length (read_all n a)
  have hpos := List.length_pos_iff.mpr h
  rw [List.length_append] at hall
  omega

end Arrivals

end IntoMarkdown.Lib
