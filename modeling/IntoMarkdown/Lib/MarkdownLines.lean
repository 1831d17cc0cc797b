import IntoMarkdown.Lib.Strings

/-! # Block starts of Markdown lines

What a line of a paragraph may not look like if the paragraph is to go on. -/

namespace IntoMarkdown.Lib.MarkdownLines
open Strings

def isSpaceOrTab (c : Char) : Bool := c = ' ' || c = '\t'

def isBlank (line : Text) : Bool := line.all isSpaceOrTab

theorem spaced_of_whitespace {c : Char} (h : isWhitespace c = false) : isSpaceOrTab c = false := by
  rw [isSpaceOrTab, Bool.or_eq_false_iff, decide_eq_false_iff_not, decide_eq_false_iff_not]
  constructor
  · rintro rfl
    exact absurd h (by decide)
  · rintro rfl
    exact absurd h (by decide)

/-- A space, a tab or the end. -/
def spaced (text : Text) : Bool := text.head?.all isSpaceOrTab

/-- Four columns or more; a tab before the fourth column reaches it. -/
def isIndented (line : Text) : Bool :=
  let lead := line.takeWhile isSpaceOrTab
  '\t' ∈ lead || 4 ≤ lead.length

def spaces (line : Text) : Nat := (line.takeWhile (· = ' ')).length

def body (line : Text) : Text := line.dropWhile (· = ' ')

def isAtxHeading (body : Text) : Bool :=
  let level := (body.takeWhile (· = '#')).length
  1 ≤ level && level ≤ 6 && spaced (body.drop level)

def isBlockQuote (body : Text) : Bool := body.head? = some '>'

def isBulletMarker (body : Text) : Bool :=
  body.head?.any (fun c => c = '-' || c = '+' || c = '*') && spaced body.tail

def isOrderedMarker (body : Text) : Bool :=
  let digits := body.takeWhile isAsciiDigit
  let rest := body.dropWhile isAsciiDigit
  1 ≤ digits.length && digits.length ≤ 9 && rest.head?.any (fun c => c = '.' || c = ')') &&
    spaced rest.tail

def isFence (body : Text) : Bool :=
  ['\x60', '\x60', '\x60'] <+: body || ['~', '~', '~'] <+: body

def isThematicBreak (body : Text) : Bool :=
  body.head?.any fun c => (c = '*' || c = '-' || c = '_') &&
    body.all (fun d => d = c || isSpaceOrTab d) && 3 ≤ body.count c

def isSetextUnderline (line : Text) : Bool :=
  spaces line ≤ 3 && (body line).head?.any fun c =>
    (c = '=' || c = '-') && ((body line).dropWhile (· = c)).all isSpaceOrTab

/-- The line starts a block, whatever is before it. -/
def startsBlock (line : Text) : Bool :=
  spaces line ≤ 3 && (isAtxHeading (body line) || isBlockQuote (body line) ||
    isBulletMarker (body line) || isOrderedMarker (body line) || isFence (body line) ||
    isThematicBreak (body line))

/-! ## Lines in a row -/

/-- How lines are looked at. -/
structure Look (α : Type) where
  blank : α → Bool
  indented : α → Bool
  starts : α → Bool
  underline : α → Bool

def markdown : Look Text := ⟨isBlank, isIndented, startsBlock, isSetextUnderline⟩

/-- The lines are one paragraph: code does not start it, and nothing ends it. -/
structure OneParagraph {α : Type} (look : Look α) (lines : List α) : Prop where
  indent : ∀ line, lines.find? (fun line => !look.blank line) = some line →
    look.indented line = false
  starts : ∀ line ∈ lines, look.starts line = false
  underline : lines.IsChain fun a b => look.blank a = false → look.underline b = false

/-- Two looks that agree on two values. -/
structure Agree {α β : Type} (look : Look α) (look' : Look β) (a : α) (b : β) : Prop where
  blank : look.blank a = look'.blank b
  indented : look.indented a = look'.indented b
  starts : look.starts a = look'.starts b
  underline : look.underline a = look'.underline b

section
variable {α β : Type} {look : Look α} {look' : Look β} {lines : List α} {views : List β}

theorem Agree.symm {a : α} {b : β} (h : Agree look look' a b) : Agree look' look b a where
  blank := h.blank.symm
  indented := h.indented.symm
  starts := h.starts.symm
  underline := h.underline.symm

theorem OneParagraph.transfer (h : List.Forall₂ (Agree look look') lines views)
    (hlines : OneParagraph look lines) : OneParagraph look' views where
  indent := by
    have hindent := hlines.indent
    clear hlines
    induction h with
    | nil =>
      intro line hline
      cases hline
    | @cons a b lines views hab _ ih =>
      intro line hline
      rw [List.find?_cons] at hline
      simp only [List.find?_cons, hab.blank] at hindent
      cases hblank : look'.blank b with
      | true =>
        simp only [hblank, Bool.not_true] at hline hindent
        exact ih hindent line hline
      | false =>
        simp only [hblank, Bool.not_false, Option.some.injEq, forall_eq'] at hline hindent
        rw [← hline, ← hab.indented]
        exact hindent
  starts := by
    have hstarts := hlines.starts
    clear hlines
    induction h with
    | nil => exact List.forall_mem_nil _
    | cons hab _ ih =>
      obtain ⟨hfirst, hrest⟩ := List.forall_mem_cons.mp hstarts
      exact List.forall_mem_cons.mpr ⟨hab.starts ▸ hfirst, ih hrest⟩
  underline := by
    have hunderline := hlines.underline
    clear hlines
    induction h with
    | nil => exact .nil
    | @cons a b lines views hab hrest ih =>
      cases hrest with
      | nil => exact .singleton b
      | cons hnext _ =>
        obtain ⟨hfirst, hmore⟩ := List.isChain_cons_cons.mp hunderline
        refine .cons_cons ?_ (ih hmore)
        rw [← hab.blank, ← hnext.underline]
        exact hfirst

theorem oneParagraph_iff (h : List.Forall₂ (Agree look look') lines views) :
    OneParagraph look lines ↔ OneParagraph look' views :=
  ⟨.transfer h, .transfer (List.Forall₂.flip h |>.imp fun _ _ hab => hab.symm)⟩

end

/-! ## Splitting into lines -/

theorem splitOn_of_not_mem {c : Char} {text : Text} (h : c ∉ text) : splitOn c text = [text] := by
  induction text with
  | nil => rfl
  | cons d text ih =>
    obtain ⟨hne, hrest⟩ := List.ne_and_not_mem_of_not_mem_cons h
    have hrest' := ih hrest
    unfold splitOn at hrest' ⊢
    rw [List.foldr_cons, hrest', if_neg hne.symm]
    rfl

theorem splitOn_append {c : Char} {line : Text} (h : c ∉ line) (rest : Text) :
    splitOn c (line ++ c :: rest) = line :: splitOn c rest := by
  induction line with
  | nil =>
    unfold splitOn
    rw [List.nil_append, List.foldr_cons, if_pos rfl]
  | cons d line ih =>
    obtain ⟨hne, hrest⟩ := List.ne_and_not_mem_of_not_mem_cons h
    have hrest' := ih hrest
    unfold splitOn at hrest' ⊢
    rw [List.cons_append, List.foldr_cons, hrest', if_neg hne.symm]
    rfl

/-- The first line, and what ends it with all that follows. -/
theorem exists_first (c : Char) (text : Text) :
    ∃ line rest, text = line ++ rest ∧ c ∉ line ∧ ∀ d ∈ rest.head?, d = c := by
  refine ⟨text.takeWhile (· ≠ c), text.dropWhile (· ≠ c),
    (List.takeWhile_append_dropWhile).symm, fun h => ?_, fun d hd => ?_⟩
  · have hne := List.mem_takeWhile_imp h
    exact absurd rfl (of_decide_eq_true hne)
  · have h := List.head?_dropWhile_not (fun d => decide (d ≠ c)) text
    rw [Option.mem_def.mp hd] at h
    simpa using h

theorem splitOn_first {c : Char} {line rest : Text} (hline : c ∉ line)
    (hrest : ∀ d ∈ rest.head?, d = c) :
    splitOn c (line ++ rest) = line :: if rest = [] then [] else splitOn c rest.tail := by
  cases rest with
  | nil => rw [List.append_nil, splitOn_of_not_mem hline, if_pos rfl]
  | cons d rest =>
    rw [hrest d rfl, splitOn_append hline, if_neg (List.cons_ne_nil _ _), List.tail_cons]

/-! ## A line in two parts -/

section
variable {p : Char → Bool} {literal tail : Text}

theorem takeWhile_append_of_head (h : ∀ c ∈ tail.head?, p c = false) :
    (literal ++ tail).takeWhile p = literal.takeWhile p := by
  induction literal with
  | nil =>
    cases tail with
    | nil => rfl
    | cons c tail => exact List.takeWhile_cons_of_neg (Bool.eq_false_iff.mp (h c rfl))
  | cons d literal ih => simp only [List.cons_append, List.takeWhile_cons, ih]

theorem dropWhile_append_of_head (h : ∀ c ∈ tail.head?, p c = false) :
    (literal ++ tail).dropWhile p = literal.dropWhile p ++ tail := by
  induction literal with
  | nil =>
    cases tail with
    | nil => rfl
    | cons c tail => exact List.dropWhile_cons_of_neg (Bool.eq_false_iff.mp (h c rfl))
  | cons d literal ih =>
    simp only [List.cons_append, List.dropWhile_cons, ih]
    split <;> rfl

end

end IntoMarkdown.Lib.MarkdownLines
