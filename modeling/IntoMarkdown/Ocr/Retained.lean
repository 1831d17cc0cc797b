import IntoMarkdown.Ocr.Dedup

/-! # What the suppression retains

The sweep marks what a comparison of all pairs marks, so that the retained candidates
are those that no other one beats and no native span repeats. -/

namespace IntoMarkdown.Ocr
open Lib Strings

section
variable {σ Polygon : Type} {engine : Engine σ Polygon}

/-! ## Canonical texts -/

def canonicalOf (engine : Engine σ Polygon) (text : Text) : CanonicalText :=
  let value := (engine.nfc text).filter fun c => !isWhitespace c
  { value := value, scalarCount := value.length }

theorem copyText_ok {text : Text} {output : CanonicalText} {world : σ} {done : CanonicalText × σ}
    (h : copyText engine text output world = .ok done) :
    done.1 = { value := output.value ++ text.filter fun c => !isWhitespace c
               scalarCount := output.scalarCount + (text.filter fun c => !isWhitespace c).length } := by
  induction text generalizing output world with
  | nil =>
    obtain rfl := Except.ok.inj h
    simp
  | cons c rest ih =>
    rw [copyText] at h
    obtain ⟨next, _, h⟩ := ok_bind h
    rw [ih h]
    cases hc : isWhitespace c <;> simp [hc, Nat.add_assoc, Nat.add_comm 1]

theorem canonicalText_ok {text : Text} {world : σ} {done : CanonicalText × σ}
    (h : canonicalText engine text world = .ok done) : done.1 = canonicalOf engine text := by
  obtain ⟨planned, _, h⟩ := ok_bind h
  obtain ⟨next, _, h⟩ := ok_bind h
  rw [copyText_ok h]
  simp [canonicalOf]

/-- The regions of the candidates, numbered from the start. -/
def regionsOf (engine : Engine σ Polygon) (candidates : List (Candidate Polygon)) (start : Nat) :
    List (Region Polygon) :=
  (candidates.zipIdx start).map fun entry =>
    { index := entry.2, candidate := entry.1, canonical := canonicalOf engine entry.1.text }

theorem regionsFrom_ok {candidates : List (Candidate Polygon)} {start : Nat} {world : σ}
    {done : List (Region Polygon) × σ} (h : regionsFrom engine candidates start world = .ok done) :
    done.1 = regionsOf engine candidates start := by
  induction candidates generalizing start world done with
  | nil =>
    obtain rfl := Except.ok.inj h
    rfl
  | cons candidate rest ih =>
    rw [regionsFrom] at h
    obtain ⟨canonical, hcanonical, h⟩ := ok_bind h
    obtain ⟨more, hmore, h⟩ := ok_bind h
    obtain rfl := Except.ok.inj h
    rw [canonicalText_ok hcanonical, ih hmore]
    rfl

/-! ## Marks -/

def Sifted.Marked (sifted : Sifted σ) (index : Nat) : Prop :=
  sifted.suppressed.getD index false = true

theorem marked_suppress {sifted : Sifted σ} {index other : Nat}
    (h : index < sifted.suppressed.length) :
    (sifted.suppress index).Marked other ↔ sifted.Marked other ∨ other = index := by
  unfold Sifted.Marked Sifted.suppress
  rw [List.getD_eq_getElem?_getD, List.getD_eq_getElem?_getD, List.getElem?_set]
  by_cases hsame : index = other
  · subst hsame
    simp [h]
  · simp [hsame, Ne.symm hsame]

/-- The pairs after the break cannot overlap. -/
def Apart (engine : Engine σ Polygon) (left right : Region Polygon) : Prop :=
  left.candidate.bounds.x + left.candidate.bounds.width < right.candidate.bounds.x →
    repeats engine left right = false

theorem sweepRight_ok {left : Region Polygon} {rest : List (Region Polygon)} {s s' : Sifted σ}
    (h : sweepRight engine left rest s = .ok s')
    (hsorted : rest.Pairwise Region.sortsBefore) (hapart : ∀ right ∈ rest, Apart engine left right)
    (hleft : left.index < s.suppressed.length)
    (hrest : ∀ right ∈ rest, right.index < s.suppressed.length) :
    s'.suppressed.length = s.suppressed.length ∧ ∀ k, s'.Marked k ↔
      s.Marked k ∨ ∃ right ∈ rest, repeats engine left right = true ∧ k = dropped left right := by
  induction rest generalizing s with
  | nil =>
    obtain rfl := Except.ok.inj h
    exact ⟨rfl, by simp⟩
  | cons right rest ih =>
    obtain ⟨hbefore, hsorted⟩ := List.pairwise_cons.mp hsorted
    obtain ⟨hfirst, hapart'⟩ := List.forall_mem_cons.mp hapart
    obtain ⟨hright, hrest⟩ := List.forall_mem_cons.mp hrest
    rw [sweepRight] at h
    split at h
    · rename_i hbreak
      obtain rfl := Except.ok.inj h
      -- the later regions start right of this one
      have hnone : ∀ r ∈ right :: rest, repeats engine left r = false := by
        refine List.forall_mem_cons.mpr ⟨hfirst hbreak, fun r hr => hapart' r hr ?_⟩
        rcases hbefore r hr with hlt | ⟨heq, _⟩
        · exact hbreak.trans hlt
        · exact heq ▸ hbreak
      refine ⟨rfl, fun k => ⟨.inl, ?_⟩⟩
      rintro (hmarked | ⟨r, hr, hrepeats, _⟩)
      · exact hmarked
      · rw [hnone r hr] at hrepeats
        cases hrepeats
    · obtain ⟨budget, _, h⟩ := ok_bind h
      split at h
      · rename_i hrepeats
        have hdropped : dropped left right < s.suppressed.length := by
          unfold dropped
          split
          · exact hright
          · exact hleft
        have hlength : (s.suppress (dropped left right)).suppressed.length =
            s.suppressed.length := List.length_set
        obtain ⟨hlength', hmarks⟩ := ih h hsorted hapart' (by simpa [Sifted.suppress] using hleft)
          (by simpa [Sifted.suppress] using hrest)
        refine ⟨hlength'.trans hlength, fun k => ?_⟩
        rw [hmarks k]
        have hstep : ({ s with budget := budget }.suppress (dropped left right)).Marked k ↔
            s.Marked k ∨ k = dropped left right := marked_suppress hdropped
        rw [hstep]
        simp only [List.mem_cons, exists_eq_or_imp, hrepeats, true_and, or_assoc]
      · rename_i hrepeats
        obtain ⟨hlength', hmarks⟩ := ih h hsorted hapart' hleft hrest
        refine ⟨hlength', fun k => ?_⟩
        rw [hmarks k]
        simp only [List.mem_cons, exists_eq_or_imp, hrepeats, Bool.false_eq_true, false_and,
          false_or]
        rfl

theorem sweep_ok {ordered : List (Region Polygon)} {s s' : Sifted σ}
    (h : sweep engine ordered s = .ok s') (hsorted : ordered.Pairwise Region.sortsBefore)
    (hapart : ∀ left ∈ ordered, ∀ right ∈ ordered, Apart engine left right)
    (hindex : ∀ region ∈ ordered, region.index < s.suppressed.length) :
    s'.suppressed.length = s.suppressed.length ∧ ∀ k, s'.Marked k ↔
      s.Marked k ∨ ∃ left right, [left, right].Sublist ordered ∧
        repeats engine left right = true ∧ k = dropped left right := by
  induction ordered generalizing s with
  | nil =>
    obtain rfl := Except.ok.inj h
    exact ⟨rfl, by simp⟩
  | cons left rest ih =>
    obtain ⟨_, hsorted⟩ := List.pairwise_cons.mp hsorted
    obtain ⟨hleft, hrest⟩ := List.forall_mem_cons.mp hindex
    obtain ⟨swept, hswept, h⟩ := ok_bind h
    obtain ⟨hlength, hmarks⟩ := sweepRight_ok hswept hsorted
      (fun right hr => hapart left (by simp) right (by simp [hr])) hleft hrest
    rw [← hlength] at hrest
    obtain ⟨hlength', hmarks'⟩ := ih h hsorted
      (fun l hl r hr => hapart l (by simp [hl]) r (by simp [hr])) hrest
    refine ⟨hlength'.trans hlength, fun k => ?_⟩
    rw [hmarks' k, hmarks k]
    constructor
    · rintro ((hmarked | ⟨right, hr, hrepeats, hk⟩) | ⟨l, r, hpair, hrepeats, hk⟩)
      · exact .inl hmarked
      · exact .inr ⟨left, right, (List.singleton_sublist.mpr hr).cons_cons left, hrepeats, hk⟩
      · exact .inr ⟨l, r, hpair.cons left, hrepeats, hk⟩
    · rintro (hmarked | ⟨l, r, hpair, hrepeats, hk⟩)
      · exact .inl (.inl hmarked)
      · rcases List.cons_sublist_cons'.mp hpair with hlater | ⟨rfl, hlast⟩
        · exact .inr ⟨l, r, hlater, hrepeats, hk⟩
        · exact .inl (.inr ⟨r, List.singleton_sublist.mp hlast, hrepeats, hk⟩)

/-! ## Native text -/

/-- The span is native text that the candidate repeats. -/
def covers (engine : Engine σ Polygon) (span : NativeSpan) (c : Candidate Polygon) : Bool :=
  9 / 20 ≤ rectOverlapRatio c.bounds span.bounds &&
    textEquivalent (canonicalOf engine c.text) span.canonical

theorem scanNative_ok {frame : PageFrame} {region : Region Polygon} {native : List NativeSpan}
    {s s' : Sifted σ} (h : scanNative engine frame region native s = .ok s')
    (hcanonical : region.canonical = canonicalOf engine region.candidate.text)
    (hindex : region.index < s.suppressed.length) :
    s'.suppressed.length = s.suppressed.length ∧ ∀ k, s'.Marked k ↔
      s.Marked k ∨ (k = region.index ∧ native.any (covers engine · region.candidate) = true) := by
  induction native generalizing s with
  | nil =>
    obtain rfl := Except.ok.inj h
    exact ⟨rfl, by simp⟩
  | cons span rest ih =>
    rw [scanNative] at h
    split at h
    · rename_i hratio
      obtain ⟨hlength, hmarks⟩ := ih h hindex
      have hcovers : covers engine span region.candidate = false := by
        rw [covers, decide_eq_false (not_le.mpr hratio), Bool.false_and]
      exact ⟨hlength, fun k => by rw [hmarks k, List.any_cons, hcovers, Bool.false_or]⟩
    · rename_i hratio
      obtain ⟨budget, _, h⟩ := ok_bind h
      have hcovers : covers engine span region.candidate =
          textEquivalent region.canonical span.canonical := by
        rw [covers, decide_eq_true (not_lt.mp hratio), Bool.true_and, hcanonical]
      split at h
      · rename_i hequivalent
        obtain rfl := Except.ok.inj h
        refine ⟨List.length_set, fun k => ?_⟩
        have hmark : ({ s with budget := budget }.suppress region.index).Marked k ↔
            s.Marked k ∨ k = region.index := marked_suppress hindex
        simp only [List.any_cons, hcovers, hequivalent, Bool.true_or, and_true]
        exact hmark
      · rename_i hequivalent
        obtain ⟨hlength, hmarks⟩ := ih h hindex
        refine ⟨hlength, fun k => ?_⟩
        rw [hmarks k, List.any_cons, hcovers, Bool.eq_false_iff.mpr hequivalent, Bool.false_or]
        rfl

theorem scanRegions_ok {frame : PageFrame} {native : List NativeSpan}
    {regions : List (Region Polygon)} {s s' : Sifted σ}
    (h : scanRegions engine frame native regions s = .ok s')
    (hcanonical : ∀ region ∈ regions, region.canonical = canonicalOf engine region.candidate.text)
    (hindex : ∀ region ∈ regions, region.index < s.suppressed.length) :
    ∀ k, s'.Marked k ↔ s.Marked k ∨ ∃ region ∈ regions, k = region.index ∧
      native.any (covers engine · region.candidate) = true := by
  induction regions generalizing s with
  | nil =>
    obtain rfl := Except.ok.inj h
    simp
  | cons region rest ih =>
    obtain ⟨hfirst, hcanonical⟩ := List.forall_mem_cons.mp hcanonical
    obtain ⟨hregion, hrest⟩ := List.forall_mem_cons.mp hindex
    intro k
    rw [scanRegions] at h
    split at h
    · rename_i hmarked
      rw [ih h hcanonical hrest k]
      simp only [List.mem_cons, exists_eq_or_imp]
      constructor
      · rintro (hk | hk)
        · exact .inl hk
        · exact .inr (.inr hk)
      · rintro (hk | ⟨rfl, _⟩ | hk)
        · exact .inl hk
        · exact .inl hmarked
        · exact .inr hk
    · obtain ⟨scanned, hscanned, h⟩ := ok_bind h
      obtain ⟨hlength, hmarks⟩ := scanNative_ok hscanned hfirst hregion
      rw [← hlength] at hrest
      rw [ih h hcanonical hrest k, hmarks k]
      simp only [List.mem_cons, exists_eq_or_imp, or_assoc]

end

end IntoMarkdown.Ocr
