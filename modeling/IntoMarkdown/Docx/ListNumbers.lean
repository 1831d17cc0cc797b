import IntoMarkdown.Docx.WordNumbers

/-! # When the numbers are Word's

The converter's number and Word's counter, paragraph by paragraph. -/

namespace IntoMarkdown.Docx
open Lib Ir
open Lib.Strings (Text)

/-! ## Both counters -/

section
variable {scan : NumberingScan} {numbering : List (ListKey × Numbering)} {counters : Counters}
  {prev : Option (ListKey × Nat)}

def wordNumber (scan : NumberingScan) (counters : Counters) (key : ListKey) : Nat :=
  (counters key).elim (wordStart scan key) (· + 1)

/-- The counters after these paragraphs. -/
def countersAfter (scan : NumberingScan) : Counters → List Paragraph → Counters
  | counters, [] => counters
  | counters, p :: rest =>
    match p.key with
    | none => countersAfter scan counters rest
    | some key => countersAfter scan (counters.advance key (wordNumber scan counters key)) rest

/-- The list that the paragraph before is in. -/
def keyBefore (prev : Option (ListKey × Nat)) (before : List Paragraph) : Option ListKey :=
  before.getLast?.elim (prev.map Prod.fst) Paragraph.key

theorem keyBefore_cons (prev : Option (ListKey × Nat)) (p : Paragraph) (before : List Paragraph)
    (prev' : Option (ListKey × Nat)) (h : prev'.map Prod.fst = p.key) :
    keyBefore prev (p :: before) = keyBefore prev' before := by
  cases before with
  | nil => exact h.symm
  | cons q before => rw [keyBefore, keyBefore, List.getLast?_cons_cons]; rfl

/-- Between paragraphs: the number before is a counter, and no counter is below its start. -/
structure InStep (scan : NumberingScan) (counters : Counters) (prev : Option (ListKey × Nat)) :
    Prop where
  prev : ∀ key number, prev = some (key, number) → counters key = some number
  low : ∀ key number, counters key = some number → wordStart scan key ≤ number

theorem advance_self (counters : Counters) (key : ListKey) (number : Nat) :
    counters.advance key number key = some number := if_pos rfl

theorem InStep.advance (h : InStep scan counters prev) (key : ListKey) :
    InStep scan (counters.advance key (wordNumber scan counters key))
      (some (key, wordNumber scan counters key)) where
  prev := by
    rintro key' number heq
    obtain ⟨rfl, rfl⟩ := Prod.mk.inj (Option.some.inj heq)
    exact advance_self _ _ _
  low := by
    intro key' number hnumber
    rw [Counters.advance] at hnumber
    split at hnumber
    · rename_i hkey
      rw [hkey, ← Option.some.inj hnumber, wordNumber]
      cases hcounter : counters key with
      | none => exact Nat.le_refl _
      | some n => exact Nat.le_succ_of_le (h.low key n hcounter)
    · split at hnumber
      · cases hnumber
      · exact h.low key' number hnumber

theorem InStep.unnumbered (h : InStep scan counters prev) : InStep scan counters none where
  prev := fun _ _ heq => by cases heq
  low := h.low

/-- The two numbers of a paragraph agree just when it continues no level, or does so directly. -/
theorem nextNumber_eq_iff {p : Paragraph} {key : ListKey} (h : InStep scan counters prev)
    (hstart : (descriptorOf numbering key).start.toNat = wordStart scan key) :
    nextNumber numbering prev p key = wordNumber scan counters key ↔
      (counters key ≠ none → p.media = [] ∧ prev.map Prod.fst = some key) := by
  have hother : ¬ (p.media = [] ∧ prev.map Prod.fst = some key) →
      nextNumber numbering prev p key = wordStart scan key := by
    intro hne
    unfold nextNumber
    split
    · rename_i before number
      rw [if_neg fun ⟨hnil, heq⟩ => hne ⟨hnil, congrArg some heq⟩, hstart]
    · exact hstart
  by_cases hadjacent : p.media = [] ∧ prev.map Prod.fst = some key
  · obtain ⟨hnil, hkey⟩ := hadjacent
    obtain ⟨⟨before, number⟩, rfl, rfl⟩ := Option.map_eq_some_iff.mp hkey
    have hcounter : counters before = some number := h.prev before number rfl
    have hnext : nextNumber numbering (some (before, number)) p before = number + 1 :=
      if_pos ⟨hnil, rfl⟩
    dsimp only
    rw [hnext, wordNumber, hcounter]
    exact ⟨fun _ _ => ⟨hnil, rfl⟩, fun _ => rfl⟩
  · rw [hother hadjacent, wordNumber]
    cases hcounter : counters key with
    | none => exact ⟨fun _ hne => absurd rfl hne, fun _ => rfl⟩
    | some number =>
      have hlow := h.low key number hcounter
      constructor
      · intro heq
        rw [Option.elim_some] at heq
        omega
      · exact fun hsome => absurd (hsome (Option.some_ne_none number)) hadjacent

/-- The lists of these paragraphs are ordered, and start where Word starts them. -/
def Agree (scan : NumberingScan) (numbering : List (ListKey × Numbering))
    (paragraphs : List Paragraph) : Prop :=
  ∀ p ∈ paragraphs, ∀ key ∈ p.key, key.1 ≠ noList ∧
    (descriptorOf numbering key).kind = .ordered ∧
    (descriptorOf numbering key).start.toNat = wordStart scan key

theorem forall_split_cons {α : Type} {a : α} {as : List α} {P : List α → α → Prop} :
    (∀ before x after, a :: as = before ++ x :: after → P before x) ↔
      P [] a ∧ ∀ before x after, as = before ++ x :: after → P (a :: before) x := by
  constructor
  · intro h
    refine ⟨h [] a as rfl, fun before x after hsplit => ?_⟩
    exact h (a :: before) x after (by rw [hsplit, List.cons_append])
  · rintro ⟨hfirst, hrest⟩ before x after hsplit
    cases before with
    | nil =>
      obtain ⟨rfl, -⟩ := List.cons.inj hsplit
      exact hfirst
    | cons b before =>
      obtain ⟨rfl, hmore⟩ := List.cons.inj hsplit
      exact hrest before x after hmore

theorem convertedNumbers_eq_iff {paragraphs : List Paragraph}
    (hagree : Agree scan numbering paragraphs) (h : InStep scan counters prev) :
    convertedNumbers numbering prev paragraphs = wordNumbers scan counters paragraphs ↔
      ∀ before p after, paragraphs = before ++ p :: after → ∀ key, p.key = some key →
        countersAfter scan counters before key ≠ none →
        p.media = [] ∧ keyBefore prev before = some key := by
  induction paragraphs generalizing counters prev with
  | nil =>
    refine ⟨fun _ before p after hsplit => ?_, fun _ => rfl⟩
    exact absurd hsplit.symm (List.append_ne_nil_of_right_ne_nil _ (List.cons_ne_nil _ _))
  | cons p paragraphs ih =>
    obtain ⟨hp, hrest⟩ := List.forall_mem_cons.mp hagree
    rw [forall_split_cons]
    cases hkey : p.key with
    | none =>
      have htail := ih hrest h.unnumbered
      rw [convertedNumbers, wordNumbers, hkey, htail]
      simp only [keyBefore_cons prev p _ none hkey.symm, countersAfter, hkey,
        reduceCtorEq, false_implies, implies_true, true_and]
    | some key =>
      obtain ⟨hzero, hordered, hstart⟩ := hp key hkey
      have hhead := nextNumber_eq_iff (p := p) h hstart
      have hfirst : (∀ key', some key = some key' → countersAfter scan counters [] key' ≠ none →
            p.media = [] ∧ keyBefore prev [] = some key') ↔
          (counters key ≠ none → p.media = [] ∧ prev.map Prod.fst = some key) := by
        constructor
        · exact fun hall => hall key rfl
        · rintro hone key' heq
          obtain rfl := Option.some.inj heq
          exact hone
      rw [convertedNumbers, wordNumbers, hkey]
      simp only [if_neg hzero]
      rw [List.cons.injEq, hfirst, ← hhead]
      by_cases heq : nextNumber numbering prev p key = wordNumber scan counters key
      · have htail := ih hrest (h.advance key)
        rw [heq]
        rw [show (counters key).elim (wordStart scan key) (· + 1) =
          wordNumber scan counters key from rfl, htail]
        simp only [keyBefore_cons prev p _
            (some (key, wordNumber scan counters key)) hkey.symm,
          countersAfter, hkey, entryOf, if_pos hordered]
      · refine iff_of_false (fun hboth => heq ?_) fun hboth => heq hboth.1
        have hentry := hboth.1
        rw [entryOf, if_pos hordered] at hentry
        exact Option.some.inj (Prod.mk.inj hentry).2

/-! ## Counters that go on -/

/-- The paragraph is of a level of this list above this one. -/
def Shallower (p : Paragraph) (key : ListKey) : Prop :=
  ∃ k ∈ p.key, k.1 = key.1 ∧ k.2 < key.2

theorem countersAfter_iff {paragraphs : List Paragraph} {key : ListKey} :
    countersAfter scan counters paragraphs key ≠ none ↔
      Continued paragraphs key ∨
        (counters key ≠ none ∧ ∀ p ∈ paragraphs, ¬ Shallower p key) := by
  have hnot : ∀ r : Paragraph, (∀ k ∈ r.key, k.1 = key.1 → key.2 ≤ k.2) ↔ ¬ Shallower r key := by
    intro r
    constructor
    · rintro h ⟨k, hk, hlist, hlt⟩
      exact absurd (h k hk hlist) (Nat.not_le.mpr hlt)
    · intro h k hk hlist
      exact Nat.not_lt.mp fun hlt => h ⟨k, hk, hlist, hlt⟩
  have hcontinued : ∀ (p : Paragraph) (rest : List Paragraph), Continued (p :: rest) key ↔
      Continued rest key ∨ (p.key = some key ∧ ∀ r ∈ rest, ¬ Shallower r key) := by
    intro p rest
    constructor
    · rintro ⟨a, q, b, hsplit, hq, hb⟩
      cases a with
      | nil =>
        obtain ⟨rfl, rfl⟩ := List.cons.inj hsplit
        exact .inr ⟨hq, fun r hr => (hnot r).mp (hb r hr)⟩
      | cons x a =>
        obtain ⟨-, hrest⟩ := List.cons.inj hsplit
        exact .inl ⟨a, q, b, hrest, hq, hb⟩
    · rintro (⟨a, q, b, rfl, hq, hb⟩ | ⟨hp, hrest⟩)
      · exact ⟨p :: a, q, b, rfl, hq, hb⟩
      · exact ⟨[], p, rest, rfl, hp, fun r hr => (hnot r).mpr (hrest r hr)⟩
  induction paragraphs generalizing counters with
  | nil =>
    have hnone : ¬ Continued [] key := by
      rintro ⟨a, q, b, hsplit, -⟩
      exact List.append_ne_nil_of_right_ne_nil _ (List.cons_ne_nil _ _) hsplit.symm
    simp [countersAfter, hnone]
  | cons p paragraphs ih =>
    rw [hcontinued, List.forall_mem_cons]
    cases hkey : p.key with
    | none =>
      have hp : ¬ Shallower p key := by
        rintro ⟨k, hk, -⟩
        rw [hkey] at hk
        cases hk
      rw [countersAfter, hkey]
      refine (@ih counters).trans ?_
      simp [hp]
    | some k =>
      have hp : Shallower p key ↔ k.1 = key.1 ∧ k.2 < key.2 := by
        simp [Shallower, hkey]
      have hadvance : counters.advance k (wordNumber scan counters k) key ≠ none ↔
          k = key ∨ (counters key ≠ none ∧ ¬ Shallower p key) := by
        rw [Counters.advance, hp]
        by_cases heq : key = k
        · simp [heq]
        · rw [if_neg heq]
          by_cases hdeeper : key.1 = k.1 ∧ k.2 < key.2
          · simp [hdeeper, Ne.symm heq]
          · rw [if_neg hdeeper]
            have hshallow : ¬ (k.1 = key.1 ∧ k.2 < key.2) :=
              fun h => hdeeper ⟨h.1.symm, h.2⟩
            simp [hshallow, Ne.symm heq]
      rw [countersAfter, hkey]
      refine (@ih (counters.advance k (wordNumber scan counters k))).trans ?_
      rw [hadvance, Option.some.injEq]
      tauto

theorem continued_iff {paragraphs : List Paragraph} {key : ListKey} :
    countersAfter scan (fun _ => none) paragraphs key ≠ none ↔ Continued paragraphs key := by
  simp [countersAfter_iff]

/-! ## Paragraphs taken out of their list -/

theorem length_convertedNumbers (paragraphs : List Paragraph) :
    (convertedNumbers numbering prev paragraphs).length =
      paragraphs.countP fun p => p.key.isSome := by
  induction paragraphs generalizing prev with
  | nil => rfl
  | cons p paragraphs ih =>
    rw [convertedNumbers, List.countP_cons]
    cases hkey : p.key with
    | none => simp [ih]
    | some key => simp [ih]

theorem length_wordNumbers (paragraphs : List Paragraph) :
    (wordNumbers scan counters paragraphs).length =
      paragraphs.countP fun p => p.key.any fun key => key.1 ≠ noList := by
  induction paragraphs generalizing counters with
  | nil => rfl
  | cons p paragraphs ih =>
    rw [wordNumbers, List.countP_cons]
    cases hkey : p.key with
    | none => simp [ih]
    | some key =>
      by_cases hzero : key.1 = noList
      · simp [ih, hzero]
      · simp [ih, hzero]

theorem numbers_ne_of_zero {paragraphs : List Paragraph} {p : Paragraph} (hp : p ∈ paragraphs)
    (hzero : p.numId = some noList) :
    convertedNumbers numbering prev paragraphs ≠ wordNumbers scan counters paragraphs := by
  intro heq
  have hlength := congrArg List.length heq
  rw [length_convertedNumbers, length_wordNumbers] at hlength
  obtain ⟨before, after, rfl⟩ := List.append_of_mem hp
  have hle : ∀ l : List Paragraph, (l.countP fun p => p.key.any fun key => key.1 ≠ noList) ≤
      l.countP fun p => p.key.isSome := by
    intro l
    refine List.countP_mono_left fun q _ hq => ?_
    cases hkey : q.key with
    | none =>
      rw [hkey] at hq
      cases hq
    | some key => rfl
  have hkey : p.key = some (noList, p.level) := by rw [Paragraph.key, hzero]; rfl
  have hbefore := hle before
  have hafter := hle after
  rw [List.countP_append, List.countP_append, List.countP_cons_of_pos (by rw [hkey]; rfl),
    List.countP_cons_of_neg (by rw [hkey]; simp)] at hlength
  omega

end

/-! ## The document -/

/-- A numbered paragraph is of an ordered level, or taken out of its list. -/
def Numbered (scan : NumberingScan) (p : Paragraph) : Prop :=
  ∀ key ∈ p.key, key.1 = noList ∨ ∃ level, scan.level key = some level ∧ level.kind = .ordered

/-- One list whose first level counts from three, and another that overrides this with five. -/
def sampleEvents : List XmlEvent :=
  [.startTag "abstractNum" [("abstractNumId", ['7'])], .startTag "lvl" [("ilvl", ['0'])],
    .emptyTag "start" [("val", ['3'])], .emptyTag "numFmt" [("val", "decimal".toList)],
    .emptyTag "lvlText" [("val", "%1.".toList)], .endTag "lvl", .endTag "abstractNum",
    .startTag "num" [("numId", ['1'])], .emptyTag "abstractNumId" [("val", ['7'])], .endTag "num",
    .startTag "num" [("numId", ['2'])], .emptyTag "abstractNumId" [("val", ['7'])],
    .startTag "lvlOverride" [("ilvl", ['0'])], .emptyTag "startOverride" [("val", ['5'])],
    .endTag "lvlOverride", .endTag "num"]

def sampleParagraph (numId : Option Text) : Paragraph := ⟨[.text ['a'] []], none, numId, 0, []⟩

theorem sample_numbered {num : Text} (h : num = ['1'] ∨ num = ['2']) :
    Numbered (NumberingScan.of sampleEvents) (sampleParagraph (some num)) := by
  intro key hkey
  obtain rfl := Option.some.inj hkey
  rcases h with rfl | rfl <;> exact .inr ⟨_, rfl, rfl⟩

end IntoMarkdown.Docx
