import Mathlib.Data.List.Infix

/-! # Decoding

Bytes as the codes of characters one after the other, with what is broken in between. Given a
prefix code and a rule for what is broken, bytes are read in one way. -/

namespace IntoMarkdown.Lib
section
variable {κ β : Type}

/-- A character, or so many bytes that are part of none. -/
inductive Found (κ : Type) where
  | good (c : κ)
  | bad (length : Nat)
  deriving DecidableEq, Repr

/-- How bytes are read: `Bad` tells what is broken, given what follows it. -/
inductive Decodes (code : κ → List β) (Bad : List β → List β → Prop) :
    List β → List (Found κ) → Prop where
  | nil : Decodes code Bad [] []
  | good {rest : List β} {found : List (Found κ)} (c : κ) (h : Decodes code Bad rest found) :
      Decodes code Bad (code c ++ rest) (.good c :: found)
  | bad {piece rest : List β} {found : List (Found κ)} (hbad : Bad piece rest)
      (h : Decodes code Bad rest found) :
      Decodes code Bad (piece ++ rest) (.bad piece.length :: found)

/-- A prefix code, and a rule that tells one broken piece at most, only where no code begins. -/
structure LawfulCode (code : κ → List β) (Bad : List β → List β → Prop) : Prop where
  code_ne : ∀ c, code c ≠ []
  code_inj : ∀ c c', code c <+: code c' → c = c'
  bad_ne : ∀ piece rest, Bad piece rest → piece ≠ []
  broken : ∀ piece rest, Bad piece rest → ∀ c, ¬ code c <+: piece ++ rest
  bad_inj : ∀ piece rest piece' rest', Bad piece rest → Bad piece' rest' →
    piece ++ rest = piece' ++ rest' → piece = piece'

def Found.width (code : κ → List β) : Found κ → Nat
  | .good c => (code c).length
  | .bad length => length

def Found.isGood : Found κ → Bool
  | .good _ => true
  | .bad _ => false

variable {code : κ → List β} {Bad : List β → List β → Prop} {bytes : List β}
  {found found' : List (Found κ)}

theorem LawfulCode.code_append_inj (h : LawfulCode code Bad) {c c' : κ} {rest rest' : List β}
    (heq : code c ++ rest = code c' ++ rest') : c = c' ∧ rest = rest' := by
  have hc : c = c' := by
    rcases List.prefix_or_prefix_of_prefix (List.prefix_append (code c) rest)
      (heq ▸ List.prefix_append (code c') rest') with hle | hle
    · exact h.code_inj c c' hle
    · exact (h.code_inj c' c hle).symm
  subst hc
  exact ⟨rfl, List.append_cancel_left heq⟩

/-- Bytes are read in one way. -/
theorem LawfulCode.unique (hlaw : LawfulCode code Bad) (h : Decodes code Bad bytes found)
    (h' : Decodes code Bad bytes found') : found = found' := by
  induction h generalizing found' with
  | nil =>
    generalize hnil : ([] : List β) = empty at h'
    cases h' with
    | nil => rfl
    | good c =>
      exact absurd (List.append_eq_nil_iff.mp hnil.symm).1 (hlaw.code_ne c)
    | bad hbad =>
      exact absurd (List.append_eq_nil_iff.mp hnil.symm).1 (hlaw.bad_ne _ _ hbad)
  | @good rest found c h ih =>
    generalize hbytes : code c ++ rest = bytes at h'
    cases h' with
    | nil => exact absurd (List.append_eq_nil_iff.mp hbytes).1 (hlaw.code_ne c)
    | good c' h' =>
      obtain ⟨rfl, rfl⟩ := hlaw.code_append_inj hbytes
      rw [ih h']
    | bad hbad =>
      exact absurd (hbytes ▸ List.prefix_append (code c) rest) (hlaw.broken _ _ hbad c)
  | @bad piece rest found hbad h ih =>
    generalize hbytes : piece ++ rest = bytes at h'
    cases h' with
    | nil => exact absurd (List.append_eq_nil_iff.mp hbytes).1 (hlaw.bad_ne _ _ hbad)
    | good c =>
      exact absurd (hbytes ▸ List.prefix_append (code c) _) (hlaw.broken _ _ hbad c)
    | bad hbad' h' =>
      obtain rfl := hlaw.bad_inj _ _ _ _ hbad hbad' hbytes
      obtain rfl := List.append_cancel_left hbytes
      rw [ih h']

theorem decodes_code (text : List κ) :
    Decodes code Bad (text.flatMap code) (text.map Found.good) := by
  induction text with
  | nil => exact .nil
  | cons c text ih => exact .good c ih

theorem Decodes.append_code {rest : List β} (h : Decodes code Bad rest found) (text : List κ) :
    Decodes code Bad (text.flatMap code ++ rest) (text.map Found.good ++ found) := by
  induction text with
  | nil => exact h
  | cons c text ih =>
    rw [List.flatMap_cons, List.append_assoc]
    exact .good c ih

/-- Where nothing is broken, the bytes are the codes. -/
theorem Decodes.of_good (h : Decodes code Bad bytes found) (hgood : found.all Found.isGood = true) :
    ∃ text : List κ, found = text.map Found.good ∧ bytes = text.flatMap code := by
  induction h with
  | nil => exact ⟨[], rfl, rfl⟩
  | good c h ih =>
    obtain ⟨text, rfl, rfl⟩ := ih (Bool.and_eq_true_iff.mp hgood).2
    exact ⟨c :: text, rfl, rfl⟩
  | bad hbad h ih => cases hgood

end

end IntoMarkdown.Lib
