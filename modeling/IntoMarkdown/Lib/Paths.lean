import IntoMarkdown.Lib.MarkdownCode

/-! # Components joined by a separator

A text split at a separator, its components joined again, and the paths that a path
descends through. -/

namespace IntoMarkdown.Lib.Paths
open Strings MarkdownCode

/-- The components with the separator between them. -/
def joined (c : Char) : List Text → Text
  | [] => []
  | first :: rest => first ++ rest.flatMap fun part => c :: part

variable {c : Char}

theorem joined_concat {parts : List Text} (h : parts ≠ []) (part : Text) :
    joined c (parts ++ [part]) = joined c parts ++ c :: part := by
  cases parts with
  | nil => exact absurd rfl h
  | cons first rest => simp [joined, List.flatMap_append]

theorem joined_singleton (part : Text) : joined c [part] = part := List.append_nil _

theorem joined_cons_cons (first next : Text) (rest : List Text) :
    joined c (first :: next :: rest) = first ++ c :: joined c (next :: rest) := rfl

theorem joined_splitOn (c : Char) (text : Text) : joined c (splitOn c text) = text := by
  induction text with
  | nil => rfl
  | cons d text ih =>
    rw [splitOn_cons]
    obtain ⟨part, parts, hparts⟩ := List.exists_cons_of_ne_nil (splitOn_ne_nil c text)
    rw [hparts] at ih ⊢
    split
    · rename_i hd
      rw [joined_cons_cons, ih, hd]
      rfl
    · exact congrArg (d :: ·) ih

theorem not_mem_of_splitOn (c : Char) (text : Text) : ∀ part ∈ splitOn c text, c ∉ part := by
  induction text with
  | nil => exact List.forall_mem_singleton.mpr List.not_mem_nil
  | cons d text ih =>
    rw [splitOn_cons]
    obtain ⟨part, parts, hparts⟩ := List.exists_cons_of_ne_nil (splitOn_ne_nil c text)
    rw [hparts] at ih ⊢
    obtain ⟨hpart, hrest⟩ := List.forall_mem_cons.mp ih
    split
    · exact List.forall_mem_cons.mpr ⟨List.not_mem_nil, ih⟩
    · rename_i hd
      refine List.forall_mem_cons.mpr ⟨fun hmem => ?_, hrest⟩
      rcases List.mem_cons.mp hmem with heq | hmem
      · exact hd heq.symm
      · exact hpart hmem

/-- Core's split is the same one. -/
theorem splitOn_eq (c : Char) (text : Text) : text.splitOn c = splitOn c text := by
  induction text with
  | nil => rfl
  | cons d text ih =>
    rw [List.splitOn_cons_eq_if_modifyHead, splitOn_cons, ih]
    obtain ⟨part, parts, hparts⟩ := List.exists_cons_of_ne_nil (splitOn_ne_nil c text)
    simp only [hparts, beq_iff_eq, List.modifyHead_cons, List.headD_cons, List.tail_cons]

theorem splitOn_of_not_mem {text : Text} (h : c ∉ text) : splitOn c text = [text] := by
  induction text with
  | nil => rfl
  | cons d text ih =>
    obtain ⟨hd, htext⟩ := not_or.mp (mt List.mem_cons.mpr h)
    rw [splitOn_cons, if_neg (Ne.symm hd), ih htext]
    rfl

theorem splitOn_joined_parts {parts : List Text} (hne : parts ≠ [])
    (h : ∀ part ∈ parts, c ∉ part) : splitOn c (joined c parts) = parts := by
  induction parts with
  | nil => exact absurd rfl hne
  | cons first rest ih =>
    obtain ⟨hfirst, hrest⟩ := List.forall_mem_cons.mp h
    cases rest with
    | nil => rw [joined_singleton, splitOn_of_not_mem hfirst]
    | cons next rest =>
      rw [joined_cons_cons, splitOn_joined, splitOn_of_not_mem hfirst,
        ih (List.cons_ne_nil _ _) hrest]
      rfl

/-- Paths are told apart by their text. -/
theorem joined_injective {parts parts' : List Text} (hne : parts ≠ []) (hne' : parts' ≠ [])
    (h : ∀ part ∈ parts, c ∉ part) (h' : ∀ part ∈ parts', c ∉ part)
    (heq : joined c parts = joined c parts') : parts = parts' := by
  rw [← splitOn_joined_parts hne h, heq, splitOn_joined_parts hne' h']

/-- A path has a longer text than each path it descends through. -/
theorem length_joined_lt {parts more : List Text} (hne : parts ≠ []) (hmore : more ≠ []) :
    (joined c parts).length < (joined c (parts ++ more)).length := by
  induction more using List.reverseRecOn with
  | nil => exact absurd rfl hmore
  | append_singleton more part ih =>
    rw [← List.append_assoc, joined_concat (by simp [hne]), List.length_append, List.length_cons]
    by_cases hnil : more = []
    · subst hnil
      simp only [List.append_nil]
      omega
    · have := ih hnil
      omega

end IntoMarkdown.Lib.Paths
