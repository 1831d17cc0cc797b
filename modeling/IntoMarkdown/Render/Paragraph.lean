import IntoMarkdown.Render.Inline
import IntoMarkdown.Lib.MarkdownLines

/-! # Paragraphs

What the lines of a paragraph of text start with, told from the inlines, and when they
are read as one paragraph. -/

namespace IntoMarkdown.Render
open Ir Lib Lib.Strings Lib.MarkdownLines

/-- The paragraph branch of `render_block`, outside of tables. -/
def renderParagraph (u : Unicode) (content : List Inline) : Except RenderError Text :=
  (renderInlines u content .normal).map protectParagraphIndent

/-! ## Runs of text -/

/-- Neighbours of the same marks, with the first character of the first of them. -/
structure Run where
  value : Text
  marks : List InlineMark
  first : Option Char

def Run.of (parts : Text × List InlineMark) : Run := ⟨parts.1, parts.2, parts.1.head?⟩

/-- The texts between line breaks. -/
def segments : List Inline → List (List (Text × List InlineMark))
  | [] => [[]]
  | inline :: rest =>
    match textParts inline with
    | some parts => (parts :: (segments rest).headD []) :: (segments rest).tail
    | none => [] :: segments rest

def runsFrom (pending : Option Run) : List (Text × List InlineMark) → List Run
  | [] => pending.toList
  | parts :: rest =>
    if pending.any fun run => sameMarks run.marks parts.2 then
      runsFrom (pending.map fun run => { run with value := run.value ++ parts.1 }) rest
    else pending.toList ++ runsFrom (some (.of parts)) rest

def nextOf (runs : List Run) : Option Char := runs.head?.bind Run.first

/-- The text of the runs after a character. -/
def emit (u : Unicode) : Option Char → List Run → Text
  | _, [] => []
  | previous, run :: rest =>
    let text := renderMarkedText u run.value run.marks previous (nextOf rest)
    text ++ emit u (text.getLast?.or previous) rest

def emitLines (u : Unicode) (previous : Option Char) (pending : Option Run) :
    List (List (Text × List InlineMark)) → Text
  | [] => []
  | [segment] => emit u previous (runsFrom pending segment)
  | segment :: more => emit u previous (runsFrom pending segment) ++ lineBreak .normal ++
    emitLines u (some '\n') none more

/-- Text of any marks, and line breaks. -/
def IsTextual (content : List Inline) : Prop :=
  ∀ inline ∈ content, (textParts inline).isSome ∨ inline = .lineBreak

/-! ## Line starts -/

/-- What a line starts with up to the first escape or markup, and whether there is one. -/
structure LineStart where
  literal : Text
  marked : Bool

/-- The white space before a marked run stays in front of its delimiters. -/
def keepsLead (u : Unicode) (run : Run) (next : Option Char) : Bool :=
  let value := singleLine run.value
  let next := (trailing value).head?.or next
  let htmlMarks := (run.marks.contains .strikethrough && 1 < run.marks.length) ||
    run.marks.any isHtmlMark
  nativeBoundaries u (trim value) (leading value).getLast? next &&
    (!htmlMarks || separating next)

def isSpecial (c : Char) : Bool := c = '&' || isEscaped c

/-- The start of a line of these runs, with what ends the line. -/
def lineStart (u : Unicode) (stop : Text) : List Run → LineStart
  | [] => ⟨stop, false⟩
  | run :: rest =>
    let value := singleLine run.value
    if trim value = [] ∨ run.marks = [] then
      if value.any isSpecial then ⟨value.takeWhile fun c => !isSpecial c, true⟩
      else ⟨value ++ (lineStart u stop rest).literal, (lineStart u stop rest).marked⟩
    else ⟨if keepsLead u run (nextOf rest) then leading value else [], true⟩

def lineStarts (u : Unicode) : List (List (Text × List InlineMark)) → List LineStart
  | [] => []
  | [segment] => [lineStart u [] (runsFrom none segment)]
  | segment :: more => lineStart u [' ', ' '] (runsFrom none segment) :: lineStarts u more

namespace LineStart

def isBlank (v : LineStart) : Bool := !v.marked && MarkdownLines.isBlank v.literal

def isIndented (v : LineStart) : Bool := MarkdownLines.isIndented v.literal

/-- One to nine digits and a closing parenthesis, with a space or the end after it. -/
def isListMarker (v : LineStart) : Bool :=
  let digits := (body v.literal).takeWhile isAsciiDigit
  let rest := (body v.literal).dropWhile isAsciiDigit
  spaces v.literal ≤ 3 && 1 ≤ digits.length && digits.length ≤ 9 && rest.head? = some ')' &&
    (rest.tail.head?.any isSpaceOrTab || (rest.tail = [] && !v.marked))

/-- Nothing but equals signs. -/
def isUnderline (v : LineStart) : Bool :=
  !v.marked && spaces v.literal ≤ 3 && (body v.literal).head? = some '=' &&
    ((body v.literal).dropWhile (· = '=')).all isSpaceOrTab

def look : Look LineStart := ⟨isBlank, isIndented, isListMarker, isUnderline⟩

end LineStart

/-- Some text is more than white space. -/
def isVisible (content : List Inline) : Bool :=
  content.any fun inline => (textParts inline).any fun parts => parts.1.any fun c =>
    !isWhitespace c

/-- Indentation before visible text starts with a character reference. -/
def shielded (visible : Bool) : List LineStart → List LineStart
  | [] => []
  | v :: more => (if visible && v.isIndented then ⟨[], true⟩ else v) :: more

/-- The inlines keep to one paragraph: no line starts with a number and a closing
parenthesis, no line of equals signs is under text, and no blank line is first with
indentation under it. -/
def KeepsParagraph (u : Unicode) (content : List Inline) : Prop :=
  OneParagraph LineStart.look (shielded (isVisible content) (lineStarts u (segments content)))

/-! ## What markup does at the start of a line -/

/-- Markup that starts no block: an escape, a reference, a tag, or delimiters before
something else. -/
inductive Opens : Text → Prop where
  | escape (rest : Text) : Opens ('\\' :: rest)
  | reference (rest : Text) : Opens ('&' :: rest)
  | tag (rest : Text) : Opens ('<' :: rest)
  | strike (c : Char) (rest : Text) (hc : c ≠ '~') : Opens ('~' :: '~' :: c :: rest)
  | stars (n : Nat) (c : Char) (rest : Text) (hc : c ≠ '*') (hspace : isSpaceOrTab c = false) :
      Opens (List.replicate (n + 1) '*' ++ c :: rest)

/-- What markup starts with. -/
def openers : List Char := ['\\', '&', '<', '~', '*']

theorem openers_not_spaced : ∀ c ∈ openers, isSpaceOrTab c = false := by
  simp [openers, isSpaceOrTab]

theorem openers_visible : ∀ c ∈ openers, isWhitespace c = false := by
  intro c hc
  simp only [openers, List.mem_cons, List.not_mem_nil, or_false] at hc
  rcases hc with rfl | rfl | rfl | rfl | rfl <;> rfl

theorem Opens.head {tail : Text} (h : Opens tail) :
    ∃ c rest, tail = c :: rest ∧ c ∈ openers := by
  cases h with
  | escape rest => exact ⟨_, rest, rfl, by simp [openers]⟩
  | reference rest => exact ⟨_, rest, rfl, by simp [openers]⟩
  | tag rest => exact ⟨_, rest, rfl, by simp [openers]⟩
  | strike c rest => exact ⟨_, _, rfl, by simp [openers]⟩
  | stars n c rest => exact ⟨'*', List.replicate n '*' ++ c :: rest, rfl, by simp [openers]⟩

/-- Nothing that the lines are searched for starts with one of these characters. -/
theorem Opens.head_fails {tail : Text} (h : Opens tail) {p : Char → Bool}
    (hp : ∀ c ∈ openers, p c = false) : ∀ c ∈ tail.head?, p c = false := by
  obtain ⟨c, rest, rfl, hc⟩ := h.head
  intro d hd
  rw [← Option.some.inj hd]
  exact hp c hc

theorem Opens.not_blockStart {tail : Text} (h : Opens tail) :
    isAtxHeading tail = false ∧ isBlockQuote tail = false ∧ isBulletMarker tail = false ∧
      isOrderedMarker tail = false ∧ isFence tail = false ∧ isThematicBreak tail = false := by
  cases h with
  | escape rest =>
    simp [isAtxHeading, isBlockQuote, isBulletMarker, isOrderedMarker, isFence,
      isThematicBreak, isAsciiDigit]
  | reference rest =>
    simp [isAtxHeading, isBlockQuote, isBulletMarker, isOrderedMarker, isFence,
      isThematicBreak, isAsciiDigit]
  | tag rest =>
    simp [isAtxHeading, isBlockQuote, isBulletMarker, isOrderedMarker, isFence,
      isThematicBreak, isAsciiDigit]
  | strike c rest hc =>
    simp [isAtxHeading, isBlockQuote, isBulletMarker, isOrderedMarker, isFence,
      isThematicBreak, isAsciiDigit, hc.symm]
  | stars n c rest hc hspace =>
    have hbullet : spaced (List.replicate n '*' ++ c :: rest) = false := by
      cases n with
      | zero => simpa [spaced] using hspace
      | succ n => simp [spaced, List.replicate_succ, isSpaceOrTab]
    simp only [isSpaceOrTab, Bool.or_eq_false_iff, decide_eq_false_iff_not] at hspace
    rw [List.replicate_succ, List.cons_append]
    simp [isAtxHeading, isBlockQuote, isBulletMarker, isOrderedMarker, isFence,
      isThematicBreak, isAsciiDigit, hbullet, isSpaceOrTab, hc, hspace]

/-! ## Lines and their starts -/

/-- The line is what its start says, and markup if it says so. -/
structure Reads (line : Text) (v : LineStart) : Prop where
  split : ∃ tail, line = v.literal ++ tail ∧ (v.marked = false → tail = []) ∧
    (v.marked = true → Opens tail)
  plain : ∀ c ∈ v.literal, isSpecial c = false

theorem Opens.blank {tail : Text} (h : Opens tail) : MarkdownLines.isBlank tail = false := by
  obtain ⟨c, rest, rfl, hc⟩ := h.head
  simp [MarkdownLines.isBlank, openers_not_spaced c hc]

namespace Reads
variable {line : Text} {v : LineStart}

theorem of_marked {literal tail : Text} (hopens : Opens tail)
    (hplain : ∀ c ∈ literal, isSpecial c = false) : Reads (literal ++ tail) ⟨literal, true⟩ where
  split := ⟨tail, rfl, fun h => (Bool.true_eq_false.mp h).elim, fun _ => hopens⟩
  plain := hplain

theorem of_unmarked {literal : Text} (hplain : ∀ c ∈ literal, isSpecial c = false) :
    Reads literal ⟨literal, false⟩ where
  split := ⟨[], (List.append_nil _).symm, fun _ => rfl, fun h => (Bool.false_eq_true.mp h).elim⟩
  plain := hplain

/-- Past the literal part comes nothing, or markup that the search does not look for. -/
theorem parts (h : Reads line v) : ∃ tail, line = v.literal ++ tail ∧
    (v.marked = false → tail = []) ∧ (v.marked = true → Opens tail) ∧
    ∀ p : Char → Bool, (∀ c ∈ openers, p c = false) →
      ∀ c ∈ tail.head?, p c = false := by
  obtain ⟨tail, hline, hunmarked, hmarked⟩ := h.split
  refine ⟨tail, hline, hunmarked, hmarked, fun p hp => ?_⟩
  cases hv : v.marked with
  | false =>
    rw [hunmarked hv]
    intro c hc
    cases hc
  | true => exact (hmarked hv).head_fails hp

theorem blank (h : Reads line v) : MarkdownLines.isBlank line = v.isBlank := by
  obtain ⟨tail, rfl, hunmarked, hmarked, -⟩ := h.parts
  cases hv : v.marked with
  | false => simp [LineStart.isBlank, hv, hunmarked hv]
  | true =>
    have hblank : tail.all isSpaceOrTab = false := (hmarked hv).blank
    simp [LineStart.isBlank, MarkdownLines.isBlank, hv, hblank]

theorem indented (h : Reads line v) : MarkdownLines.isIndented line = v.isIndented := by
  obtain ⟨tail, rfl, -, -, hhead⟩ := h.parts
  simp only [LineStart.isIndented, MarkdownLines.isIndented,
    takeWhile_append_of_head (hhead isSpaceOrTab openers_not_spaced)]

theorem spaces_body (h : Reads line v) : ∃ tail, spaces line = spaces v.literal ∧
    body line = body v.literal ++ tail ∧ (v.marked = false → tail = []) ∧
    (v.marked = true → Opens tail) ∧
    ∀ p : Char → Bool, (∀ c ∈ openers, p c = false) →
      ∀ c ∈ tail.head?, p c = false := by
  obtain ⟨tail, rfl, hunmarked, hmarked, hhead⟩ := h.parts
  have hspace := hhead (fun c => decide (c = ' ')) (by simp [openers])
  exact ⟨tail, by rw [spaces, takeWhile_append_of_head hspace, spaces],
    by rw [body, dropWhile_append_of_head hspace, body], hunmarked, hmarked, hhead⟩

/-- A number and a parenthesis, before a space, the end, or markup. -/
theorem orderedMarker_append {text tail : Text} {marked : Bool}
    (hplain : ∀ c ∈ text, isSpecial c = false) (hunmarked : marked = false → tail = [])
    (hmarked : marked = true → Opens tail)
    (hhead : ∀ p : Char → Bool, (∀ c ∈ openers, p c = false) → ∀ c ∈ tail.head?, p c = false) :
    isOrderedMarker (text ++ tail) =
      (let digits := text.takeWhile isAsciiDigit
       let rest := text.dropWhile isAsciiDigit
       1 ≤ digits.length && digits.length ≤ 9 && rest.head? = some ')' &&
         (rest.tail.head?.any isSpaceOrTab || (rest.tail = [] && !marked))) := by
  have hdigit := hhead isAsciiDigit (by simp [openers, isAsciiDigit])
  have hstop := hhead (fun c => c = '.' || c = ')') (by simp [openers])
  have hspace := hhead isSpaceOrTab openers_not_spaced
  simp only [isOrderedMarker, takeWhile_append_of_head hdigit, dropWhile_append_of_head hdigit]
  have hrest : ∀ c ∈ text.dropWhile isAsciiDigit, isSpecial c = false := fun c hc =>
    hplain c ((List.dropWhile_sublist _).subset hc)
  revert hrest
  generalize text.dropWhile isAsciiDigit = rest
  intro hrest
  cases rest with
  | nil =>
    cases tail with
    | nil => simp
    | cons c tail =>
      have hc := hstop c rfl
      simp only [Bool.or_eq_false_iff, decide_eq_false_iff_not] at hc
      simp [hc]
  | cons c rest =>
    have hc := hrest c List.mem_cons_self
    have hdot : c ≠ '.' := by
      rintro rfl
      simp [isSpecial, isEscaped] at hc
    cases rest with
    | nil =>
      cases hm : marked with
      | false => simp [hunmarked hm, spaced, hdot]
      | true =>
        obtain ⟨d, more, rfl, -⟩ := (hmarked hm).head
        simp [spaced, hspace d rfl]
    | cons d rest => simp [spaced, hdot]

/-- The other block starts begin with a character that is escaped. -/
theorem otherStarts_append {text tail : Text} {marked : Bool}
    (hplain : ∀ c ∈ text, isSpecial c = false) (hunmarked : marked = false → tail = [])
    (hmarked : marked = true → Opens tail) :
    isAtxHeading (text ++ tail) = false ∧ isBlockQuote (text ++ tail) = false ∧
      isBulletMarker (text ++ tail) = false ∧ isFence (text ++ tail) = false ∧
      isThematicBreak (text ++ tail) = false := by
  cases text with
  | nil =>
    cases hm : marked with
    | false =>
      rw [hunmarked hm]
      decide
    | true =>
      obtain ⟨hatx, hquote, hbullet, -, hfence, hthematic⟩ := (hmarked hm).not_blockStart
      exact ⟨hatx, hquote, hbullet, hfence, hthematic⟩
  | cons c text =>
    have hc := hplain c List.mem_cons_self
    simp only [isSpecial, isEscaped, List.mem_cons, List.not_mem_nil, or_false,
      Bool.or_eq_false_iff, decide_eq_false_iff_not, not_or] at hc
    simp [isAtxHeading, isBlockQuote, isBulletMarker, isFence, isThematicBreak, hc, Ne.symm]

theorem starts (h : Reads line v) : startsBlock line = v.isListMarker := by
  obtain ⟨tail, hspaces, hbody, hunmarked, hmarked, hhead⟩ := h.spaces_body
  have hplain : ∀ c ∈ body v.literal, isSpecial c = false := fun c hc =>
    h.plain c ((List.dropWhile_sublist _).subset hc)
  have hordered := orderedMarker_append hplain hunmarked hmarked hhead
  obtain ⟨hatx, hquote, hbullet, hfence, hthematic⟩ :=
    otherStarts_append hplain hunmarked hmarked
  simp only [startsBlock, LineStart.isListMarker, hspaces, hbody, hordered, hatx, hquote,
    hbullet, hfence, hthematic, Bool.or_false, Bool.false_or, Bool.and_assoc]

theorem underline (h : Reads line v) : isSetextUnderline line = v.isUnderline := by
  obtain ⟨tail, hspaces, hbody, hunmarked, hmarked, hhead⟩ := h.spaces_body
  have hplain : ∀ c ∈ body v.literal, isSpecial c = false := fun c hc =>
    h.plain c ((List.dropWhile_sublist _).subset hc)
  simp only [isSetextUnderline, LineStart.isUnderline, hspaces, hbody]
  revert hplain
  generalize body v.literal = text
  intro hplain
  cases text with
  | nil =>
    have hedge := hhead (fun c => c = '=' || c = '-') (by simp [openers])
    cases tail with
    | nil => simp
    | cons c tail => simp [hedge c rfl]
  | cons c text =>
    have hc := hplain c List.mem_cons_self
    have hdash : c ≠ '-' := by
      rintro rfl
      simp [isSpecial, isEscaped] at hc
    by_cases heq : c = '='
    · subst heq
      have hedge := hhead (fun c => c = '=') (by simp [openers])
      have hdrop : ('=' :: text ++ tail).dropWhile (fun c => c = '=') =
          ('=' :: text).dropWhile (fun c => c = '=') ++ tail := dropWhile_append_of_head hedge
      rw [List.cons_append] at hdrop ⊢
      simp only [List.head?_cons, Option.any_some, hdrop]
      cases hm : v.marked with
      | false => simp [hunmarked hm]
      | true =>
        have hblank : tail.all isSpaceOrTab = false := (hmarked hm).blank
        simp [hblank]
    · simp [heq, hdash]

theorem agree (h : Reads line v) : Agree markdown LineStart.look line v :=
  ⟨h.blank, h.indented, h.starts, h.underline⟩

end Reads

/-! ## Escaped and marked text -/

theorem Opens.append {tail : Text} (h : Opens tail) (more : Text) : Opens (tail ++ more) := by
  cases h with
  | escape rest => exact .escape (rest ++ more)
  | reference rest => exact .reference (rest ++ more)
  | tag rest => exact .tag (rest ++ more)
  | strike c rest hc => exact .strike c (rest ++ more) hc
  | stars n c rest hc hspace =>
    rw [List.append_assoc, List.cons_append]
    exact .stars n c (rest ++ more) hc hspace

theorem escapeText_plain {value : Text} (h : value.any isSpecial = false) :
    escapeText value = value := by
  induction value with
  | nil => rfl
  | cons c value ih =>
    rw [List.any_cons, Bool.or_eq_false_iff] at h
    obtain ⟨hc, hrest⟩ := h
    simp only [isSpecial, Bool.or_eq_false_iff, decide_eq_false_iff_not] at hc
    have hmore := ih hrest
    unfold escapeText at hmore ⊢
    simp [hmore, escapeChar, hc]

theorem escapeChar_special {c : Char} (h : isSpecial c = true) : Opens (escapeChar c) := by
  by_cases hc : c = '&'
  · rw [escapeChar, if_pos hc]
    exact .reference _
  · have hescaped : isEscaped c = true := by simpa [isSpecial, hc] using h
    rw [escapeChar, if_neg hc, if_pos hescaped]
    exact .escape _

theorem escapeText_special {value : Text} (h : value.any isSpecial = true) :
    ∃ tail, escapeText value = value.takeWhile (fun c => !isSpecial c) ++ tail ∧ Opens tail := by
  induction value with
  | nil => cases h
  | cons c value ih =>
    by_cases hc : isSpecial c = true
    · refine ⟨escapeChar c ++ escapeText value, ?_, (escapeChar_special hc).append _⟩
      simp [hc, escapeText]
    · have hrest : value.any isSpecial = true := by simpa [hc] using h
      obtain ⟨tail, htail, hopens⟩ := ih hrest
      refine ⟨tail, ?_, hopens⟩
      have hplain : escapeText [c] = [c] := escapeText_plain (by simpa using hc)
      rw [show c :: value = [c] ++ value from rfl, escapeText, List.flatMap_append]
      change escapeText [c] ++ escapeText value = _
      rw [hplain, htail]
      simp [hc]

/-- Text after delimiters: neither one of them nor a space. -/
def Quiet (text : Text) : Prop :=
  ∃ c rest, text = c :: rest ∧ c ≠ '*' ∧ c ≠ '~' ∧ isSpaceOrTab c = false

theorem escapeText_quiet {value : Text} (hne : value ≠ [])
    (hhead : ∀ c ∈ value.head?, isWhitespace c = false) (more : Text) :
    Quiet (escapeText value ++ more) := by
  obtain ⟨c, value, rfl⟩ := List.exists_cons_of_ne_nil hne
  have hspace := spaced_of_whitespace (hhead c rfl)
  rw [escapeText, List.flatMap_cons]
  by_cases hspecial : isSpecial c = true
  · have hopens := escapeChar_special hspecial
    by_cases hc : c = '&'
    · exact ⟨'&', _, by rw [escapeChar, if_pos hc]; rfl, by decide, by decide, by decide⟩
    · have hescaped : isEscaped c = true := by simpa [isSpecial, hc] using hspecial
      exact ⟨'\\', _, by rw [escapeChar, if_neg hc, if_pos hescaped]; rfl, by decide, by decide,
        by decide⟩
  · have hplain : escapeChar c = [c] := by
      have h := escapeText_plain (show [c].any isSpecial = false by simpa using hspecial)
      simpa [escapeText] using h
    refine ⟨c, _, by rw [hplain]; rfl, ?_, ?_, hspace⟩
    · rintro rfl
      exact hspecial (by decide)
    · rintro rfl
      exact hspecial (by decide)

/-- The delimiter of a mark, if there is one. -/
def openIf (p : InlineMark → Bool) (mark : InlineMark) : Text :=
  if p mark then openMark true mark else []

theorem openings_eq (p : InlineMark → Bool) :
    (wrapperOrder.filter p).reverse.flatMap (openMark true) =
      openIf p .strikethrough ++ (openIf p .bold ++ (openIf p .italic ++
        (openIf p .underline ++ (openIf p .superscript ++ openIf p .subscript)))) := by
  have hfilter : ∀ marks : List InlineMark,
      (marks.filter p).flatMap (openMark true) = marks.flatMap (openIf p) := by
    intro marks
    induction marks with
    | nil => rfl
    | cons mark marks ih =>
      by_cases h : p mark = true
      · simp [openIf, h, ih]
      · simp [openIf, h, ih]
  rw [← List.filter_reverse, hfilter]
  simp [wrapperOrder]

theorem openIf_quiet {p : InlineMark → Bool} {mark : InlineMark} (hmark : isHtmlMark mark = true)
    {rest : Text} (h : Quiet rest) : Quiet (openIf p mark ++ rest) := by
  unfold openIf
  split
  · cases mark with
    | bold => cases hmark
    | italic => cases hmark
    | strikethrough => cases hmark
    | underline => exact ⟨'<', _, rfl, by decide, by decide, by decide⟩
    | superscript => exact ⟨'<', _, rfl, by decide, by decide, by decide⟩
    | subscript => exact ⟨'<', _, rfl, by decide, by decide, by decide⟩
  · exact h

theorem openIf_bold (p : InlineMark → Bool) (rest : Text) :
    openIf p .bold ++ rest = if p .bold then '*' :: '*' :: rest else rest := by
  unfold openIf
  split <;> rfl

theorem openIf_italic (p : InlineMark → Bool) (rest : Text) :
    openIf p .italic ++ rest = if p .italic then '*' :: rest else rest := by
  unfold openIf
  split <;> rfl

theorem Quiet.stars {rest : Text} (h : Quiet rest) (n : Nat) :
    Opens (List.replicate (n + 1) '*' ++ rest) := by
  obtain ⟨c, rest, rfl, hstar, -, hspace⟩ := h
  exact .stars n c rest hstar hspace

theorem mem_wrapperOrder (mark : InlineMark) : mark ∈ wrapperOrder := by
  cases mark <;> decide

theorem exists_first_mark {p : InlineMark → Bool} (hp : ∃ mark, p mark = true) :
    ∃ first more, (wrapperOrder.filter p).reverse = first :: more ∧ p first = true := by
  obtain ⟨mark, hmark⟩ := hp
  have hmem : mark ∈ (wrapperOrder.filter p).reverse :=
    List.mem_reverse.mpr (List.mem_filter.mpr ⟨mem_wrapperOrder mark, hmark⟩)
  obtain ⟨first, more, hlist⟩ := List.exists_cons_of_ne_nil (List.ne_nil_of_mem hmem)
  have hfirst : first ∈ (wrapperOrder.filter p).reverse := hlist ▸ List.mem_cons_self
  exact ⟨first, more, hlist, (List.mem_filter.mp (List.mem_reverse.mp hfirst)).2⟩

theorem opens_html {p : InlineMark → Bool} (hp : ∃ mark, p mark = true) (rest : Text) :
    Opens ((wrapperOrder.filter p).reverse.flatMap (openMark false) ++ rest) := by
  obtain ⟨first, more, hlist, -⟩ := exists_first_mark hp
  rw [hlist]
  cases first <;> exact .tag _

theorem openMark_html {mark : InlineMark} (h : isHtmlMark mark = true) :
    ∃ rest, openMark true mark = '<' :: rest := by
  cases mark with
  | bold => cases h
  | italic => cases h
  | strikethrough => cases h
  | underline => exact ⟨_, rfl⟩
  | superscript => exact ⟨_, rfl⟩
  | subscript => exact ⟨_, rfl⟩

theorem opens_native {p : InlineMark → Bool} (hp : ∃ mark, p mark = true) {rest : Text}
    (h : Quiet rest) : Opens ((wrapperOrder.filter p).reverse.flatMap (openMark true) ++ rest) := by
  by_cases hhtml : ∀ mark, p mark = true → isHtmlMark mark = true
  · obtain ⟨first, more, hlist, hfirst⟩ := exists_first_mark hp
    obtain ⟨tag, htag⟩ := openMark_html (hhtml first hfirst)
    rw [hlist, List.flatMap_cons, htag]
    exact .tag _
  have hsub : Quiet (openIf p .subscript ++ rest) := openIf_quiet rfl h
  have hsuper : Quiet (openIf p .superscript ++ (openIf p .subscript ++ rest)) :=
    openIf_quiet rfl hsub
  have hinner : Quiet (openIf p .underline ++ (openIf p .superscript ++
      (openIf p .subscript ++ rest))) := openIf_quiet rfl hsuper
  simp only [openings_eq, List.append_assoc]
  revert hinner
  generalize openIf p .underline ++ (openIf p .superscript ++ (openIf p .subscript ++ rest))
    = inner
  intro hinner
  have hitalics := openIf_italic p inner
  have hbolds := openIf_bold p (openIf p .italic ++ inner)
  cases hstrike : p .strikethrough with
  | true =>
    have hbefore : ∃ c more,
        openIf p .bold ++ (openIf p .italic ++ inner) = c :: more ∧ c ≠ '~' := by
      obtain ⟨c, more, rfl, -, htilde, -⟩ := hinner
      rw [hbolds, hitalics]
      cases p .bold with
      | true => exact ⟨'*', _, rfl, by decide⟩
      | false =>
        cases p .italic with
        | true => exact ⟨'*', _, rfl, by decide⟩
        | false => exact ⟨c, more, rfl, htilde⟩
    obtain ⟨c, more, hmore, hc⟩ := hbefore
    rw [hmore, openIf, hstrike]
    exact .strike c more hc
  | false =>
    rw [openIf, hstrike, if_neg Bool.false_ne_true, List.nil_append, hbolds, hitalics]
    cases hbold : p .bold with
    | true =>
      cases p .italic with
      | true => exact hinner.stars 2
      | false => exact hinner.stars 1
    | false =>
      cases hitalic : p .italic with
      | true => exact hinner.stars 0
      | false =>
        refine absurd (fun mark hmark => ?_) hhtml
        cases mark with
        | bold => rw [hbold] at hmark; cases hmark
        | italic => rw [hitalic] at hmark; cases hmark
        | strikethrough => rw [hstrike] at hmark; cases hmark
        | underline => rfl
        | superscript => rfl
        | subscript => rfl

theorem trim_ne_nil_iff {value : Text} :
    trim value ≠ [] ↔ ∃ c ∈ value, isWhitespace c = false := by
  have hstart : trimStart value = [] ↔ ∀ c ∈ value, isWhitespace c = true :=
    List.dropWhile_eq_nil_iff
  rw [trim, trimEnd, ne_eq, List.reverse_eq_nil_iff, List.dropWhile_eq_nil_iff]
  simp only [List.mem_reverse]
  constructor
  · intro h
    by_contra hall
    refine h fun c hc => ?_
    by_contra hspace
    exact hall ⟨c, (List.dropWhile_sublist _).subset hc, by simpa using hspace⟩
  · rintro ⟨c, hc, hspace⟩ hall
    have hnil : trimStart value = [] := by
      cases hv : trimStart value with
      | nil => rfl
      | cons d more =>
        have hd := hall d (by rw [hv]; exact List.mem_cons_self)
        have hne : isWhitespace d = false := by
          have h := List.head?_dropWhile_not isWhitespace value
          unfold trimStart at hv
          rw [hv] at h
          simpa using h
        rw [hne] at hd
        cases hd
    rw [hstart.mp hnil c hc] at hspace
    cases hspace

theorem head_trim {value : Text} : ∀ c ∈ (trim value).head?, isWhitespace c = false := by
  intro c hc
  obtain ⟨more, hmore⟩ := List.rdropWhile_prefix isWhitespace (trimStart value)
  have hhead : (trimStart value).head? = some c := by
    rw [← hmore, List.head?_append, show (List.rdropWhile isWhitespace (trimStart value)).head? =
      some c from hc, Option.some_or]
  have h := List.head?_dropWhile_not isWhitespace value
  unfold trimStart at hhead
  rw [hhead] at h
  simpa using h

theorem separating_of_leading {value : Text} {c : Char} (h : (leading value).getLast? = some c) :
    separating (some c) = true := by
  have hc : isWhitespace c = true :=
    List.mem_takeWhile_imp (List.mem_of_getLast? h)
  simp [separating, hc]

/-- Marked text is its leading white space, if that stays in front, and markup. -/
theorem renderMarkedText_marked (u : Unicode) {run : Run} (previous next : Option Char)
    (htrim : trim (singleLine run.value) ≠ []) (hmarks : run.marks ≠ []) :
    ∃ tail, renderMarkedText u run.value run.marks previous next =
      (if keepsLead u run next then leading (singleLine run.value) else []) ++ tail ∧
        Opens tail := by
  have hsome : ∃ mark, run.marks.contains mark = true := by
    obtain ⟨mark, more, hlist⟩ := List.exists_cons_of_ne_nil hmarks
    exact ⟨mark, by simp [hlist]⟩
  unfold renderMarkedText
  dsimp only
  rw [if_neg (not_or.mpr ⟨htrim, hmarks⟩)]
  generalize hnative : (nativeBoundaries u (trim (singleLine run.value))
    ((leading (singleLine run.value)).getLast?.or previous)
    ((trailing (singleLine run.value)).head?.or next) && _) = native
  -- without leading white space it does not matter whether it would stay in front
  have hkeeps : leading (singleLine run.value) ≠ [] → keepsLead u run next = native := by
    intro hlead
    obtain ⟨c, hc⟩ := Option.isSome_iff_exists.mp (List.getLast?_isSome.mpr hlead)
    rw [← hnative, hc, Option.some_or]
    simp only [keepsLead, hc, separating_of_leading hc, Bool.true_and]
  have hfront : (if native then leading (singleLine run.value) else []) =
      if keepsLead u run next then leading (singleLine run.value) else [] := by
    by_cases hlead : leading (singleLine run.value) = []
    · rw [hlead, ite_self, ite_self]
    · rw [hkeeps hlead]
  rw [hfront]
  simp only [List.append_assoc]
  refine ⟨_, rfl, ?_⟩
  cases native with
  | true => exact opens_native hsome (escapeText_quiet htrim head_trim _)
  | false => exact opens_html hsome _

theorem renderMarkedText_plain (u : Unicode) {run : Run} (previous next : Option Char)
    (h : trim (singleLine run.value) = [] ∨ run.marks = []) :
    renderMarkedText u run.value run.marks previous next = escapeText (singleLine run.value) := by
  unfold renderMarkedText
  dsimp only
  rw [if_pos h]

theorem not_special_of_whitespace {c : Char} (h : isWhitespace c = true) : isSpecial c = false := by
  refine Bool.eq_false_iff.mpr fun hspecial => ?_
  simp only [isSpecial, isEscaped, Bool.or_eq_true, decide_eq_true_eq, List.mem_cons,
    List.not_mem_nil, or_false] at hspecial
  rcases hspecial with rfl | rfl | rfl | rfl | rfl | rfl | rfl | rfl | rfl | rfl | rfl | rfl |
    rfl | rfl | rfl | rfl | rfl | rfl
  all_goals exact absurd h (by decide)

/-! ## Lines -/

theorem emit_reads (u : Unicode) {stop : Text} (hstop : ∀ c ∈ stop, isSpecial c = false)
    (previous : Option Char) (runs : List Run) :
    Reads (emit u previous runs ++ stop) (lineStart u stop runs) := by
  induction runs generalizing previous with
  | nil => exact .of_unmarked hstop
  | cons run rest ih =>
    simp only [emit, lineStart]
    by_cases hplain : trim (singleLine run.value) = [] ∨ run.marks = []
    · rw [if_pos hplain, renderMarkedText_plain u _ _ hplain]
      by_cases hspecial : (singleLine run.value).any isSpecial = true
      · obtain ⟨tail, htail, hopens⟩ := escapeText_special hspecial
        rw [if_pos hspecial, htail, List.append_assoc, List.append_assoc]
        refine .of_marked (hopens.append _) fun c hc => ?_
        simpa using List.mem_takeWhile_imp hc
      · have hnone := Bool.eq_false_iff.mpr hspecial
        obtain ⟨⟨tail, htail, hunmarked, hmarked⟩, hliteral⟩ :=
          ih ((singleLine run.value).getLast?.or previous)
        rw [if_neg hspecial, escapeText_plain hnone, List.append_assoc, htail]
        refine ⟨⟨tail, (List.append_assoc ..).symm, hunmarked, hmarked⟩, fun c hc => ?_⟩
        rcases List.mem_append.mp hc with hc | hc
        · exact Bool.eq_false_iff.mpr fun h => hspecial (List.any_eq_true.mpr ⟨c, hc, h⟩)
        · exact hliteral c hc
    · rw [if_neg hplain]
      obtain ⟨htrim, hmarks⟩ := not_or.mp hplain
      obtain ⟨tail, htail, hopens⟩ :=
        renderMarkedText_marked u previous (nextOf rest) htrim hmarks
      rw [htail, List.append_assoc, List.append_assoc]
      refine .of_marked (hopens.append _) fun c hc => ?_
      split at hc
      · exact not_special_of_whitespace (List.mem_takeWhile_imp hc)
      · cases hc

theorem segments_ne_nil (content : List Inline) : segments content ≠ [] := by
  cases content with
  | nil => exact List.cons_ne_nil _ _
  | cons inline rest =>
    unfold segments
    split <;> exact List.cons_ne_nil _ _

theorem segments_text {inline : Inline} {parts : Text × List InlineMark} {rest : List Inline}
    (h : textParts inline = some parts) {segment : List (Text × List InlineMark)}
    {more : List (List (Text × List InlineMark))} (hrest : segments rest = segment :: more) :
    segments (inline :: rest) = (parts :: segment) :: more := by
  simp [segments, h, hrest]

/-- What comes after the first line. -/
def restLines (u : Unicode) (more : List (List (Text × List InlineMark))) : Text :=
  if more = [] then [] else lineBreak .normal ++ emitLines u (some '\n') none more

theorem emitLines_cons (u : Unicode) (previous : Option Char) (pending : Option Run)
    (segment : List (Text × List InlineMark)) (more : List (List (Text × List InlineMark))) :
    emitLines u previous pending (segment :: more) =
      emit u previous (runsFrom pending segment) ++ restLines u more := by
  cases more with
  | nil => simp [emitLines, restLines]
  | cons next more => simp [emitLines, restLines]

theorem nextOf_runsFrom (run : Run) (segment : List (Text × List InlineMark)) :
    nextOf (runsFrom (some run) segment) = run.first := by
  induction segment generalizing run with
  | nil => rfl
  | cons parts segment ih =>
    unfold runsFrom
    split
    · exact ih _
    · rfl

/-- The text of pending runs, as `renderFrom` keeps it. -/
def pendingOf (pending : Option Run) : Pending := pending.map fun run => (run.value, run.marks)

theorem renderFrom_eq (u : Unicode) {content : List Inline} (h : IsTextual content)
    (output : Text) (pending : Option Run) :
    renderFrom u .normal output (pendingOf pending) content =
      .ok (output ++ emitLines u output.getLast? pending (segments content)) := by
  induction content generalizing output pending with
  | nil =>
    cases pending with
    | none => simp [renderFrom, pendingOf, flush, segments, emitLines, runsFrom, emit]
    | some run =>
      simp [renderFrom, pendingOf, flush, segments, emitLines, runsFrom, emit, nextOf]
  | cons inline rest ih =>
    obtain ⟨hfirst, hrest⟩ := List.forall_mem_cons.mp h
    obtain ⟨segment, more, hsegments⟩ := List.exists_cons_of_ne_nil (segments_ne_nil rest)
    cases hparts : textParts inline with
    | some parts =>
      rw [segments_text hparts hsegments, emitLines_cons]
      unfold renderFrom runsFrom
      simp only [hparts]
      cases pending with
      | none =>
        have hrun := ih hrest output (some (.of parts))
        rw [hsegments, emitLines_cons] at hrun
        exact hrun
      | some run =>
        by_cases hsame : sameMarks run.marks parts.2 = true
        · have hrun := ih hrest output (some { run with value := run.value ++ parts.1 })
          rw [hsegments, emitLines_cons] at hrun
          simpa [pendingOf, hsame] using hrun
        · have hrun := ih hrest (flush u output (pendingOf (some run)) parts.1.head?)
            (some (.of parts))
          rw [hsegments, emitLines_cons] at hrun
          have hnext : nextOf (runsFrom (some (.of parts)) segment) = parts.1.head? :=
            nextOf_runsFrom _ _
          simp only [pendingOf, Option.map_some, Option.any_some, hsame, Bool.false_eq_true,
            if_false, flush, Run.of] at hrun hnext ⊢
          rw [hrun]
          simp [emit, hnext, List.getLast?_append, Option.toList]
    | none =>
      have hbreak : inline = .lineBreak := by
        rcases hfirst with hsome | hbreak
        · rw [hparts] at hsome
          cases hsome
        · exact hbreak
      subst hbreak
      have hrun := ih hrest (flush u output (pendingOf pending) none ++ lineBreak .normal) none
      rw [hsegments] at hrun
      unfold renderFrom segments
      simp only [hparts, renderInline, hsegments, bind, Except.bind]
      refine hrun.trans (congrArg Except.ok ?_)
      have hlast : (flush u output (pendingOf pending) none ++ lineBreak .normal).getLast? =
          some '\n' := by
        rw [List.getLast?_append, show (lineBreak .normal).getLast? = some '\n' by decide,
          Option.some_or]
      have hflush : flush u output (pendingOf pending) none =
          output ++ emit u output.getLast? (runsFrom pending []) := by
        cases pending with
        | none => simp [pendingOf, flush, runsFrom, emit]
        | some run => simp [pendingOf, flush, runsFrom, emit, nextOf]
      rw [hlast, emitLines_cons u _ pending, hflush, restLines, if_neg (List.cons_ne_nil _ _),
        List.append_assoc, List.append_assoc]

theorem newline_not_mem_singleLine (value : Text) : '\n' ∉ singleLine value := by
  intro h
  obtain ⟨c, -, hc⟩ := List.mem_flatMap.mp h
  split at hc
  · cases List.mem_singleton.mp hc
  · next hne => exact hne (List.mem_singleton.mp hc).symm

theorem newline_mem_escapeText {value : Text} (h : '\n' ∈ escapeText value) : '\n' ∈ value := by
  obtain ⟨c, hc, hescape⟩ := List.mem_flatMap.mp h
  unfold escapeChar at hescape
  split at hescape
  · exact absurd hescape (by decide)
  · split at hescape
    · rcases List.mem_pair.mp hescape with h | h
      · cases h
      · exact h ▸ hc
    · exact List.mem_singleton.mp hescape ▸ hc

theorem newline_not_mem_marks (native : Bool) (mark : InlineMark) :
    '\n' ∉ openMark native mark ∧ '\n' ∉ closeMark native mark := by
  cases native <;> cases mark <;> decide

theorem newline_not_mem_renderMarkedText (u : Unicode) (value : Text) (marks : List InlineMark)
    (previous next : Option Char) : '\n' ∉ renderMarkedText u value marks previous next := by
  have hvalue := newline_not_mem_singleLine value
  have hescape : ∀ text : Text, text.Sublist (singleLine value) → '\n' ∉ escapeText text :=
    fun text hsub h => hvalue (hsub.subset (newline_mem_escapeText h))
  have hlead : '\n' ∉ leading (singleLine value) := fun h =>
    hvalue ((List.takeWhile_sublist _).subset h)
  have htrail : '\n' ∉ trailing (singleLine value) := fun h =>
    hvalue (List.mem_reverse.mp ((List.takeWhile_sublist _).subset (List.mem_reverse.mp h)))
  have htrim : (trim (singleLine value)).Sublist (singleLine value) :=
    (List.rdropWhile_prefix isWhitespace _).sublist.trans (List.dropWhile_sublist _)
  have hopens : ∀ (native : Bool) (l : List InlineMark), '\n' ∉ l.flatMap (openMark native) := by
    intro native l h
    obtain ⟨mark, -, hmark⟩ := List.mem_flatMap.mp h
    exact (newline_not_mem_marks native mark).1 hmark
  have hcloses : ∀ (native : Bool) (l : List InlineMark),
      '\n' ∉ l.flatMap (closeMark native) := by
    intro native l h
    obtain ⟨mark, -, hmark⟩ := List.mem_flatMap.mp h
    exact (newline_not_mem_marks native mark).2 hmark
  unfold renderMarkedText
  dsimp only
  split
  · exact hescape _ (List.Sublist.refl _)
  · generalize (nativeBoundaries u _ _ _ && _) = native
    simp only [List.mem_append, not_or]
    cases native with
    | true => exact ⟨⟨⟨⟨hlead, hopens _ _⟩, hescape _ htrim⟩, hcloses _ _⟩, htrail⟩
    | false =>
      exact ⟨⟨⟨⟨List.not_mem_nil, hopens _ _⟩, hescape _ (List.Sublist.refl _)⟩, hcloses _ _⟩,
        List.not_mem_nil⟩

theorem newline_not_mem_emit (u : Unicode) (previous : Option Char) (runs : List Run) :
    '\n' ∉ emit u previous runs := by
  induction runs generalizing previous with
  | nil => exact List.not_mem_nil
  | cons run rest ih =>
    intro h
    rcases List.mem_append.mp h with h | h
    · exact newline_not_mem_renderMarkedText u _ _ _ _ h
    · exact ih _ h

theorem lines_read (u : Unicode) (previous : Option Char)
    {segs : List (List (Text × List InlineMark))} (h : segs ≠ []) :
    List.Forall₂ Reads (splitOn '\n' (emitLines u previous none segs)) (lineStarts u segs) := by
  induction segs generalizing previous with
  | nil => exact absurd rfl h
  | cons segment more ih =>
    rw [emitLines_cons]
    have hline := newline_not_mem_emit u previous (runsFrom none segment)
    cases more with
    | nil =>
      rw [restLines, if_pos rfl, splitOn_of_not_mem (by simpa using hline)]
      exact .cons (emit_reads u (List.forall_mem_nil _) previous _) .nil
    | cons next more =>
      have hstop : ∀ c ∈ [' ', ' '], isSpecial c = false := by simp [isSpecial, isEscaped]
      have hbreak : '\n' ∉ emit u previous (runsFrom none segment) ++ [' ', ' '] := by
        simpa using hline
      rw [restLines, if_neg (List.cons_ne_nil _ _),
        show lineBreak .normal = [' ', ' '] ++ ['\n'] by decide, List.append_assoc,
        ← List.append_assoc, List.singleton_append, splitOn_append hbreak]
      exact .cons (emit_reads u hstop previous _) (ih (some '\n') (List.cons_ne_nil _ _))

/-! ## Visible text -/

def visible (text : Text) : Bool := text.any fun c => !isWhitespace c

@[simp] theorem visible_append (a b : Text) : visible (a ++ b) = (visible a || visible b) :=
  List.any_append

theorem visible_replaceChar {c : Char} {text' : Text} (h : visible text' = !isWhitespace c)
    (text : Text) : visible (replaceChar c text' text) = visible text := by
  induction text with
  | nil => rfl
  | cons d text ih =>
    have hd : visible (if d = c then text' else [d]) = !isWhitespace d := by
      split
      · next heq => rw [h, heq]
      · simp [visible]
    rw [replaceChar, List.flatMap_cons, visible_append, hd]
    exact congrArg ((!isWhitespace d) || ·) ih

theorem visible_replacePair {c d : Char} {text' : Text}
    (h : visible text' = ((!isWhitespace c) || !isWhitespace d)) (text : Text) :
    visible (replacePair c d text' text) = visible text := by
  fun_induction replacePair c d text' text with
  | case1 => rfl
  | case2 a => rfl
  | case3 a b rest heq ih =>
    rw [visible_append, ih, h, heq.1, heq.2, Bool.or_assoc]
    rfl
  | case4 a b rest hne ih => exact congrArg ((!isWhitespace a) || ·) ih

theorem visible_singleLine (value : Text) : visible (singleLine value) = visible value := by
  rw [singleLine, visible_replaceChar (by decide), normalizeLf, visible_replaceChar (by decide),
    visible_replacePair (by decide)]

theorem visible_escapeText (value : Text) : visible (escapeText value) = visible value := by
  induction value with
  | nil => rfl
  | cons c value ih =>
    have hc : visible (escapeChar c) = !isWhitespace c := by
      by_cases hspecial : isSpecial c = true
      · obtain ⟨d, rest, hd, hmem⟩ := (escapeChar_special hspecial).head
        have hspace : isWhitespace c = false := by
          by_contra h
          rw [not_special_of_whitespace (by simpa using h)] at hspecial
          cases hspecial
        simp [hd, visible, openers_visible d hmem, hspace]
      · have h := escapeText_plain (show [c].any isSpecial = false by simpa using hspecial)
        have hplain : escapeChar c = [c] := by simpa [escapeText] using h
        simp [hplain, visible]
    rw [escapeText, List.flatMap_cons, visible_append, hc]
    exact congrArg ((!isWhitespace c) || ·) ih

theorem visible_iff {text : Text} : visible text = true ↔ trim text ≠ [] := by
  rw [trim_ne_nil_iff]
  simp [visible]

theorem visible_renderMarkedText (u : Unicode) (run : Run) (previous next : Option Char) :
    visible (renderMarkedText u run.value run.marks previous next) = visible run.value := by
  by_cases hplain : trim (singleLine run.value) = [] ∨ run.marks = []
  · rw [renderMarkedText_plain u _ _ hplain, visible_escapeText, visible_singleLine]
  · obtain ⟨htrim, hmarks⟩ := not_or.mp hplain
    obtain ⟨tail, htail, hopens⟩ := renderMarkedText_marked u previous next htrim hmarks
    obtain ⟨d, rest, rfl, hmem⟩ := hopens.head
    have hvalue := visible_iff.mpr htrim
    rw [visible_singleLine] at hvalue
    rw [htail, hvalue, visible_append]
    simp [visible, openers_visible d hmem]

theorem visible_emit (u : Unicode) (previous : Option Char) (runs : List Run) :
    visible (emit u previous runs) = runs.any fun run => visible run.value := by
  induction runs generalizing previous with
  | nil => rfl
  | cons run rest ih =>
    simp only [emit, visible_append, List.any_cons, visible_renderMarkedText, ih]

theorem visible_runsFrom (pending : Option Run) (segment : List (Text × List InlineMark)) :
    (runsFrom pending segment).any (fun run => visible run.value) =
      (pending.any (fun run => visible run.value) || segment.any fun parts => visible parts.1) := by
  induction segment generalizing pending with
  | nil => cases pending <;> simp [runsFrom]
  | cons parts segment ih =>
    unfold runsFrom
    split
    · rw [ih]
      cases pending with
      | none => simp_all
      | some run => simp [Bool.or_assoc]
    · cases pending with
      | none => simp [ih, Run.of]
      | some run => simp [ih, Run.of]

theorem visible_emitLines (u : Unicode) (previous : Option Char)
    (segs : List (List (Text × List InlineMark))) :
    visible (emitLines u previous none segs) =
      segs.any fun segment => segment.any fun parts => visible parts.1 := by
  induction segs generalizing previous with
  | nil => rfl
  | cons segment more ih =>
    have hbreak : visible (lineBreak .normal) = false := by decide
    rw [emitLines_cons, visible_append, visible_emit, visible_runsFrom, List.any_cons]
    congr 1
    cases more with
    | nil => rfl
    | cons next more =>
      rw [restLines, if_neg (List.cons_ne_nil _ _), visible_append, hbreak, ih, Bool.false_or]

theorem isVisible_eq (content : List Inline) :
    isVisible content =
      (segments content).any fun segment => segment.any fun parts => visible parts.1 := by
  induction content with
  | nil => rfl
  | cons inline rest ih =>
    obtain ⟨segment, more, hsegments⟩ := List.exists_cons_of_ne_nil (segments_ne_nil rest)
    rw [hsegments] at ih
    unfold isVisible at ih ⊢
    cases hparts : textParts inline with
    | some parts =>
      rw [segments_text hparts hsegments, List.any_cons, ih]
      simp [hparts, visible, Bool.or_assoc]
    | none =>
      have hnone : segments (inline :: rest) = [] :: segment :: more := by
        simp [segments, hparts, hsegments]
      rw [hnone, List.any_cons, ih]
      simp [hparts]

/-! ## The paragraph -/

theorem shielded_reads {out : Text} {views : List LineStart}
    (h : List.Forall₂ Reads (splitOn '\n' out) views) :
    List.Forall₂ Reads (splitOn '\n' (protectParagraphIndent out))
      (shielded (visible out) views) := by
  obtain ⟨line, rest, rfl, hline, hrest⟩ := exists_first '\n' out
  rw [splitOn_first hline hrest] at h
  cases h with
  | @cons _ v _ more hfirst hmore =>
    have hspace : ∀ c ∈ rest.head?, isSpaceOrTab c = false := fun c hc => by
      rw [hrest c hc]
      decide
    have hlead : (line ++ rest).takeWhile (fun c => c = ' ' || c = '\t') =
        line.takeWhile isSpaceOrTab := takeWhile_append_of_head hspace
    have hindented : ('\t' ∈ line.takeWhile isSpaceOrTab ∨
        4 ≤ (line.takeWhile isSpaceOrTab).length) ↔ v.isIndented = true := by
      rw [← hfirst.indented]
      simp [MarkdownLines.isIndented]
    unfold protectParagraphIndent shielded
    simp only [hlead, hindented, ← visible_iff]
    by_cases hshield : visible (line ++ rest) = true ∧ v.isIndented = true
    · obtain ⟨c, line, rfl⟩ : ∃ c line', line = c :: line' := by
        refine List.exists_cons_of_ne_nil ?_
        rintro rfl
        exact absurd (hfirst.indented ▸ hshield.2) (by decide)
      rw [if_pos hshield, if_pos (Bool.and_eq_true_iff.mpr hshield), List.cons_append,
        List.tail_cons, ← List.append_assoc]
      have hrest' : '\n' ∉ line := fun h => hline (List.mem_cons_of_mem _ h)
      rw [splitOn_first ?_ hrest]
      · refine .cons ?_ hmore
        rw [← List.nil_append (_ ++ line)]
        refine .of_marked ?_ (List.forall_mem_nil _)
        split <;> exact .reference _
      · split <;> simpa using hrest'
    · rw [if_neg hshield, if_neg (fun h => hshield (Bool.and_eq_true_iff.mp h)),
        splitOn_first hline hrest]
      exact .cons hfirst hmore

/-- If the output has a character that is not blank, its lines are one paragraph. -/
def StaysParagraph (out : Text) : Prop :=
  (∃ line ∈ splitOn '\n' out, MarkdownLines.isBlank line = false) →
    OneParagraph markdown (splitOn '\n' out)

theorem blank_reads {line : Text} (h : MarkdownLines.isBlank line = true) :
    Reads line ⟨line, false⟩ := by
  refine .of_unmarked fun c hc => ?_
  have hspace := List.all_eq_true.mp h c hc
  simp only [isSpaceOrTab, Bool.or_eq_true, decide_eq_true_eq] at hspace
  rcases hspace with rfl | rfl
  · decide
  · decide

theorem blank_starts {line : Text} (h : MarkdownLines.isBlank line = true) :
    startsBlock line = false := by
  have hdigits : (body line).takeWhile isAsciiDigit = [] := by
    cases hbody : body line with
    | nil => rfl
    | cons c rest =>
      have hmem : c ∈ body line := hbody ▸ List.mem_cons_self
      have hspace := List.all_eq_true.mp h c ((List.dropWhile_sublist _).subset hmem)
      simp only [isSpaceOrTab, Bool.or_eq_true, decide_eq_true_eq] at hspace
      rcases hspace with rfl | rfl
      · rfl
      · rfl
  rw [(blank_reads h).starts, LineStart.isListMarker]
  simp [hdigits]

theorem staysParagraph_iff {out : Text} :
    StaysParagraph out ↔ OneParagraph markdown (splitOn '\n' out) := by
  refine ⟨fun h => ?_, fun h _ => h⟩
  by_cases hsome : ∃ line ∈ splitOn '\n' out, MarkdownLines.isBlank line = false
  · exact h hsome
  · have hblank : ∀ line ∈ splitOn '\n' out, MarkdownLines.isBlank line = true := by
      simpa using hsome
    refine ⟨fun line hline => ?_, fun line hline => blank_starts (hblank line hline), ?_⟩
    · have hmem := List.mem_of_find?_eq_some hline
      have hnot := List.find?_some hline
      simp [markdown, hblank line hmem] at hnot
    · refine (List.pairwise_of_forall_mem_list fun a ha b _ hnot => ?_).isChain
      exact absurd (hblank a ha) (Bool.eq_false_iff.mp hnot)

/-- A paragraph of text is rendered, and stays one paragraph just when the inlines
keep to one. -/
theorem paragraph_stays_iff (u : Unicode) {content : List Inline} (h : IsTextual content) :
    ∃ out, renderParagraph u content = .ok out ∧
      (StaysParagraph out ↔ KeepsParagraph u content) := by
  have hrender := renderFrom_eq u h [] none
  rw [List.nil_append] at hrender
  have hlines := shielded_reads (lines_read u none (segments_ne_nil content))
  rw [visible_emitLines, ← isVisible_eq] at hlines
  exact ⟨_, congrArg (Except.map protectParagraphIndent) hrender,
    staysParagraph_iff.trans (oneParagraph_iff (hlines.imp fun _ _ hreads => hreads.agree))⟩

/-- Two lines in bold and plain text. -/
theorem two_lines_stay : ∃ out, renderParagraph ⟨isAsciiAlphanumeric⟩
    [.text "a".toList [.bold], .lineBreak, .text "- b".toList []] = .ok out ∧
      (StaysParagraph out ↔ KeepsParagraph ⟨isAsciiAlphanumeric⟩
        [.text "a".toList [.bold], .lineBreak, .text "- b".toList []]) :=
  paragraph_stays_iff _ (by simp [IsTextual, textParts])

/-- A closing parenthesis after a number is not escaped. -/
theorem numbered_paragraph_leaves :
    ¬ ∀ (u : Unicode) (content : List Inline), IsTextual content →
      ∀ out, renderParagraph u content = .ok out → StaysParagraph out := by
  intro h
  have hrender : renderParagraph ⟨isAsciiAlphanumeric⟩ [.text "1) a".toList []] =
      .ok "1) a".toList := by decide
  have hstays := staysParagraph_iff.mp (h _ _ (by simp [IsTextual, textParts]) _ hrender)
  exact absurd (hstays.starts "1) a".toList (by decide)) (by decide)

end IntoMarkdown.Render
