import IntoMarkdown.Lib.Strings

/-! # What a rewriting leaves in place

A text carries another one when every stretch of plain characters in that one is in it too.
Rewritings that only touch other characters carry what they were given. -/

namespace IntoMarkdown.Lib
open Strings

/-- Every stretch of characters in `p` that is in one text is in the other. -/
def Carries (p : Char → Bool) (a b : Text) : Prop :=
  ∀ t : Text, t ≠ [] → t.all p = true → t <:+: a → t <:+: b

namespace Carries
variable {p : Char → Bool} {a b : Text}

@[refl] theorem refl (a : Text) : Carries p a a := fun _ _ _ h => h

theorem trans {c : Text} (h : Carries p a b) (h' : Carries p b c) : Carries p a c :=
  fun t hne hall hin => h' t hne hall (h t hne hall hin)

theorem of_inside (h : a <:+: b) : Carries p a b := fun _ _ _ hin => hin.trans h

theorem nil (b : Text) : Carries p [] b := fun _ hne _ hin =>
  absurd (List.infix_nil.mp hin) hne

theorem append_left (a b : Text) : Carries p b (a ++ b) := of_inside (List.suffix_append a b).isInfix

theorem append_right (a b : Text) : Carries p a (a ++ b) := of_inside (List.prefix_append a b).isInfix

theorem flatMap {f : Char → Text} (h : ∀ c, p c = true → f c = [c]) (a : Text) :
    Carries p a (a.flatMap f) := by
  rintro t - hall ⟨front, back, rfl⟩
  have hsame : t.flatMap f = t := by
    induction t with
    | nil => rfl
    | cons c t ih =>
      rw [List.all_cons, Bool.and_eq_true] at hall
      rw [List.flatMap_cons, h c hall.1, ih hall.2]
      rfl
  rw [List.flatMap_append, List.flatMap_append, hsame]
  exact List.infix_append _ _ _

theorem replaceChar {d : Char} (hd : p d = false) (by' a : Text) :
    Carries p a (Strings.replaceChar d by' a) := by
  refine flatMap (fun c hc => if_neg fun heq => ?_) a
  rw [heq, hd] at hc
  cases hc

theorem replacePair_cons {c d e : Char} (by' rest : Text) (hc : e ≠ c) :
    Strings.replacePair c d by' (e :: rest) = e :: Strings.replacePair c d by' rest := by
  cases rest with
  | nil => rfl
  | cons b rest => exact if_neg fun hpair => hc hpair.1

theorem replacePair_append {c d e : Char} (by' front back : Text) (hc : e ≠ c) (hd : e ≠ d) :
    Strings.replacePair c d by' (front ++ e :: back) =
      Strings.replacePair c d by' front ++ e :: Strings.replacePair c d by' back := by
  induction front using Strings.replacePair.induct c d with
  | case1 => exact replacePair_cons by' back hc
  | case2 a =>
    rw [← replacePair_cons by' back hc]
    exact if_neg fun hpair => hd hpair.2
  | case3 a b rest hpair ih =>
    rw [List.cons_append, List.cons_append, Strings.replacePair, if_pos hpair, ih,
      Strings.replacePair, if_pos hpair, List.append_assoc]
  | case4 a b rest hpair ih =>
    rw [List.cons_append, List.cons_append, Strings.replacePair, if_neg hpair,
      Strings.replacePair, if_neg hpair]
    exact congrArg (a :: ·) ih

theorem replacePair_stretch {c d : Char} (by' front back : Text) {t : Text} (hne : t ≠ [])
    (ht : ∀ e ∈ t, e ≠ c ∧ e ≠ d) : Strings.replacePair c d by' (front ++ (t ++ back)) =
      Strings.replacePair c d by' front ++ (t ++ Strings.replacePair c d by' back) := by
  induction t generalizing front with
  | nil => exact absurd rfl hne
  | cons e t ih =>
    obtain ⟨⟨hc, hd⟩, ht⟩ := List.forall_mem_cons.mp ht
    rw [List.cons_append, replacePair_append by' front (t ++ back) hc hd]
    cases t with
    | nil => rfl
    | cons e' t =>
      have hrest := ih [] (List.cons_ne_nil e' t) ht
      rw [List.nil_append] at hrest
      rw [hrest]
      rfl

theorem replacePair {c d : Char} (hc : p c = false) (hd : p d = false) (by' a : Text) :
    Carries p a (Strings.replacePair c d by' a) := by
  rintro t hne hall ⟨front, back, rfl⟩
  have hplain : ∀ e ∈ t, e ≠ c ∧ e ≠ d := by
    intro e he
    have hp := List.all_eq_true.mp hall e he
    refine ⟨fun heq => ?_, fun heq => ?_⟩
    · rw [heq, hc] at hp
      cases hp
    · rw [heq, hd] at hp
      cases hp
  rw [List.append_assoc, replacePair_stretch by' front back hne hplain, ← List.append_assoc]
  exact List.infix_append _ _ _

/-- What starts with other characters is carried without them. -/
theorem tail {c : Char} (hc : p c = false) (a : Text) : Carries p (c :: a) a := by
  rintro t hne hall ⟨front, back, h⟩
  cases front with
  | nil =>
    obtain ⟨e, t, rfl⟩ := List.exists_cons_of_ne_nil hne
    rw [List.nil_append, List.cons_append] at h
    rw [List.all_cons, (List.cons.inj h).1, hc] at hall
    cases hall
  | cons d front => exact ⟨front, back, (List.cons.inj h).2⟩

theorem dropWhile {q : Char → Bool} (h : ∀ c, p c = true → q c = false) (a : Text) :
    Carries p a (a.dropWhile q) := by
  induction a with
  | nil => exact refl []
  | cons c a ih =>
    rw [List.dropWhile_cons]
    split
    · rename_i hq
      have hc : p c = false := Bool.eq_false_iff.mpr fun hp => by
        rw [h c hp] at hq
        cases hq
      exact (tail hc a).trans ih
    · exact refl _

theorem reverse (h : Carries p a.reverse b.reverse) : Carries p a b := by
  intro t hne hall hin
  have hback := h t.reverse (mt List.reverse_eq_nil_iff.mp hne) (by rwa [List.all_reverse])
    (List.reverse_infix.mpr hin)
  exact List.reverse_infix.mp hback

theorem dropWhileEnd {q : Char → Bool} (h : ∀ c, p c = true → q c = false) (a : Text) :
    Carries p a (a.reverse.dropWhile q).reverse := by
  refine reverse ?_
  rw [List.reverse_reverse]
  exact dropWhile h a.reverse

end Carries

end IntoMarkdown.Lib
