import IntoMarkdown.Sheet.Reading

/-! # Text that stays as it is

Where nothing that is read moves, the loop copies a text and goes on behind it. -/

namespace IntoMarkdown.Sheet
open Lib Strings

section
variable {rowDelta columnDelta : Int} {previous : Option Char} {reference : Reference}
  {text rest : Text}

/-- The last character, or else the one before the text. -/
def lastOf (previous : Option Char) (text : Text) : Option Char := text.getLast?.or previous

@[simp] theorem lastOf_nil : lastOf previous [] = previous := rfl

theorem lastOf_append (front back : Text) :
    lastOf previous (front ++ back) = lastOf (lastOf previous front) back := by
  simp only [lastOf, List.getLast?_append]
  cases back.getLast? <;> rfl

theorem lastOf_cons (c : Char) (text : Text) :
    lastOf previous (c :: text) = lastOf (some c) text :=
  lastOf_append [c] text

theorem lastOf_concat (front : Text) (c : Char) : lastOf previous (front ++ [c]) = some c := by
  rw [lastOf, List.getLast?_concat]
  rfl

theorem isBreak_false_of_mem (hspelled : reference.Spelled) {c : Char} (h : c ∈ reference.text) :
    isBreak c = false := by
  have sign (isAbsolute : Bool) (h : c ∈ dollar isAbsolute) : isBreak c = false := by
    cases isAbsolute with
    | true =>
      rw [List.mem_singleton.mp h]
      decide
    | false => cases h
  have identifier (h : isFormulaIdentifier c = true) : isBreak c = false := by
    rw [isBreak, h]
    rfl
  simp only [Reference.text, List.mem_append] at h
  rcases h with ((h | h) | h) | h
  · exact sign _ h
  · exact identifier (isFormulaIdentifier_of_alphabetic (List.all_eq_true.mp hspelled.letters c h))
  · exact sign _ h
  · exact identifier (isFormulaIdentifier_of_digit (List.all_eq_true.mp hspelled.digits c h))

/-- What is read before a break ends before it. -/
theorem text_of_read {behind : Text} (hspelled : reference.Spelled)
    (hbreak : ∀ c ∈ behind.head?, isBreak c = true)
    (h : text ++ behind = reference.text ++ rest) :
    ∃ between, text = reference.text ++ between ∧ rest = between ++ behind := by
  rcases List.append_eq_append_iff.mp h with ⟨excess, htext, hbehind⟩ | ⟨between, htext, hrest⟩
  · cases excess with
    | nil => exact ⟨[], by simpa using htext.symm, by simpa using hbehind.symm⟩
    | cons c excess =>
      have hc : isBreak c = true := hbreak c (by rw [hbehind]; rfl)
      rw [isBreak_false_of_mem hspelled (by rw [htext]; simp)] at hc
      cases hc
  · exact ⟨between, htext, hrest⟩

theorem getLast_text (hspelled : reference.Spelled) :
    lastOf previous reference.text = reference.digits.getLast? := by
  obtain ⟨c, hc⟩ : ∃ c, reference.digits.getLast? = some c :=
    Option.isSome_iff_exists.mp (List.getLast?_isSome.mpr hspelled.some_digit)
  rw [lastOf, Reference.text, List.getLast?_append, hc]
  rfl

/-- What is read in a text ends there, and does not move. -/
def Still (rowDelta columnDelta : Int) (previous : Option Char) (text behind : Text) : Prop :=
  ∀ front back reference rest translated, text = front ++ back → back ≠ [] →
    readReference (lastOf previous front) (back ++ behind) = some (reference, rest) →
    reference.translate rowDelta columnDelta = some translated →
      translated = reference.text ∧ reference.text <+: back

theorem Still.append_right (front : Text) {back behind : Text}
    (h : Still rowDelta columnDelta previous (front ++ back) behind) :
    Still rowDelta columnDelta (lastOf previous front) back behind := by
  intro front' back' reference rest translated hback hsome hread
  refine h (front ++ front') back' reference rest translated (by rw [hback]; simp) hsome ?_
  rwa [lastOf_append]

/-- **Copy.** -/
theorem scan_still {behind : Text} (hquotes : text.any isQuote = false)
    (hstill : Still rowDelta columnDelta previous text behind) :
    scan rowDelta columnDelta previous (text ++ behind) =
      text ++ scan rowDelta columnDelta (lastOf previous text) behind := by
  induction hn : text.length using Nat.strong_induction_on generalizing previous text with
  | _ n ih =>
    cases text with
    | nil => rfl
    | cons c text =>
      rw [List.any_cons, Bool.or_eq_false_iff] at hquotes
      cases hread : translatedReferenceAt rowDelta columnDelta previous (c :: text ++ behind) with
      | none =>
        rw [List.cons_append] at hread ⊢
        have hstill' : Still rowDelta columnDelta (some c) text behind :=
          Still.append_right [c] hstill
        rw [scan_copy hquotes.1 hread, ih text.length (by rw [← hn]; exact Nat.lt_succ_self _)
          hquotes.2 hstill' rfl, lastOf_cons]
        rfl
      | some found =>
        obtain ⟨translated, rest, last⟩ := found
        obtain ⟨reference, href, htranslate, rfl⟩ := translatedReferenceAt_some hread
        obtain ⟨-, hspelled, htext, -⟩ := readReference_eq_some_iff.mp href
        obtain ⟨rfl, between, hbetween⟩ :=
          hstill [] (c :: text) reference _ translated rfl (List.cons_ne_nil _ _) href htranslate
        have hbetween : c :: text = reference.text ++ between := hbetween.symm
        obtain rfl : rest = between ++ behind := by
          rw [hbetween, List.append_assoc] at htext
          exact (List.append_cancel_left htext).symm
        have hlength := congrArg List.length hbetween
        have hpos := List.length_pos_iff.mpr (Reference.text_ne_nil hspelled)
        rw [List.length_append] at hlength
        have hquotes' : between.any isQuote = false := by
          have hall : (c :: text).any isQuote = false := by
            rw [List.any_cons, hquotes.1, hquotes.2]
            rfl
          rw [hbetween, List.any_append, Bool.or_eq_false_iff] at hall
          exact hall.2
        have hstill' := Still.append_right reference.text (hbetween ▸ hstill)
        rw [getLast_text hspelled] at hstill'
        rw [List.cons_append] at hread ⊢
        rw [scan_read hread, ih between.length (by omega) hquotes' hstill' rfl, hbetween,
          lastOf_append, getLast_text hspelled, List.append_assoc]

end

end IntoMarkdown.Sheet
