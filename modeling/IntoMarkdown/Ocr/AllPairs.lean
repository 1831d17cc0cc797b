import IntoMarkdown.Ocr.Retained

/-! # Comparing all pairs

Which candidates a comparison of all pairs keeps, in any order of the list, and where
the text of a dropped candidate went. -/

namespace IntoMarkdown.Ocr
open Lib Strings

section
variable {σ Polygon : Type} (engine : Engine σ Polygon)

def edgesBefore (a b : Candidate Polygon) : Bool :=
  a.bounds.x < b.bounds.x || (a.bounds.x = b.bounds.x && a.sourceIndex ≤ b.sourceIndex)

/-- The ratio of two candidates, whichever comes first. -/
def pairRatio (a b : Candidate Polygon) : ℚ :=
  if edgesBefore a b then engine.polygonOverlapRatio a.polygon b.polygon
  else engine.polygonOverlapRatio b.polygon a.polygon

/-- Another candidate in the same place, with an equivalent text, that comes before. -/
def beats (a b : Candidate Polygon) : Bool :=
  a.sourceIndex ≠ b.sourceIndex &&
    (textEquivalent (canonicalOf engine a.text) (canonicalOf engine b.text) &&
      (11 / 20 ≤ pairRatio engine a b && candidatePrecedes a b))

def kept (candidates : List (Candidate Polygon)) (native : List NativeSpan)
    (c : Candidate Polygon) : Bool :=
  !(candidates.any (beats engine · c) || native.any (covers engine · c))

def allPairs (candidates : List (Candidate Polygon)) (native : List NativeSpan) :
    List (Candidate Polygon) :=
  candidates.filter (kept engine candidates native)

/-- The bounding boxes have a point in common. -/
def Rect.Meets (a b : Rect) : Prop :=
  a.x ≤ b.x + b.width ∧ b.x ≤ a.x + a.width ∧ a.y ≤ b.y + b.height ∧ b.y ≤ a.y + a.height

/-- What a list of candidates has to be: its polygons overlap only where their boxes meet, and
its regions are told apart by their index. -/
structure Detected (candidates : List (Candidate Polygon)) : Prop where
  meets : ∀ a ∈ candidates, ∀ b ∈ candidates,
    0 < engine.polygonOverlapRatio a.polygon b.polygon → a.bounds.Meets b.bounds
  indices : (candidates.map Candidate.sourceIndex).Nodup

end

section
variable {σ Polygon : Type} {engine : Engine σ Polygon}

theorem textEquivalent_comm (a b : CanonicalText) : textEquivalent a b = textEquivalent b a := by
  have hsame : decide (a.value = b.value) = decide (b.value = a.value) :=
    decide_eq_decide.mpr ⟨Eq.symm, Eq.symm⟩
  unfold textEquivalent
  rw [hsame, Bool.and_comm (decide (a.value ≠ [])), Bool.or_assoc, Bool.or_assoc,
    Bool.or_comm (decide (4 ≤ a.scalarCount) && _)]

theorem candidatePrecedes_iff {a b : Candidate Polygon} : candidatePrecedes a b = true ↔
    confidence b < confidence a ∨ (confidence a = confidence b ∧ a.sourceIndex < b.sourceIndex) := by
  simp [candidatePrecedes]

theorem candidatePrecedes_total {a b : Candidate Polygon} (h : a.sourceIndex ≠ b.sourceIndex) :
    candidatePrecedes a b = false ↔ candidatePrecedes b a = true := by
  rw [Bool.eq_false_iff, ne_eq, candidatePrecedes_iff, candidatePrecedes_iff]
  rcases lt_trichotomy (confidence a) (confidence b) with hlt | heq | hgt
  · exact iff_of_true (by rintro (h1 | ⟨h1, _⟩) <;> linarith) (.inl hlt)
  · simp only [heq, lt_irrefl, false_or, true_and]
    omega
  · exact iff_of_false (fun hnot => hnot (.inl hgt)) (by rintro (h1 | ⟨h1, _⟩) <;> linarith)

theorem edgesBefore_iff {a b : Candidate Polygon} : edgesBefore a b = true ↔
    a.bounds.x < b.bounds.x ∨ (a.bounds.x = b.bounds.x ∧ a.sourceIndex ≤ b.sourceIndex) := by
  simp [edgesBefore]

theorem edgesBefore_total {a b : Candidate Polygon} (h : a.sourceIndex ≠ b.sourceIndex)
    (hbefore : edgesBefore a b = true) : edgesBefore b a = false := by
  rw [edgesBefore_iff] at hbefore
  rw [Bool.eq_false_iff, ne_eq, edgesBefore_iff]
  rintro (hlt | ⟨heq, hle⟩)
  · rcases hbefore with hlt' | ⟨heq', _⟩
    · exact lt_asymm hlt hlt'
    · exact hlt.ne heq'.symm
  · rcases hbefore with hlt' | ⟨_, hle'⟩
    · exact hlt'.ne heq.symm
    · exact h (le_antisymm hle' hle)

/-- Two elements of a list stand in it one after the other. -/
theorem pair_sublist {α : Type} {xs : List α} {a b : α} (ha : a ∈ xs) (hb : b ∈ xs) (h : a ≠ b) :
    [a, b].Sublist xs ∨ [b, a].Sublist xs := by
  induction xs with
  | nil => cases ha
  | cons x xs ih =>
    rcases List.mem_cons.mp ha with rfl | hlater
    · have hb' := List.mem_of_ne_of_mem h.symm hb
      exact .inl ((List.singleton_sublist.mpr hb').cons_cons a)
    · rcases List.mem_cons.mp hb with rfl | hb'
      · exact .inr ((List.singleton_sublist.mpr hlater).cons_cons b)
      · exact (ih hlater hb').imp (·.cons x) (·.cons x)

/-! ## The regions of a list -/

theorem mem_regionsOf {candidates : List (Candidate Polygon)} {region : Region Polygon}
    (h : region ∈ regionsOf engine candidates 0) :
    candidates[region.index]? = some region.candidate ∧
      region.canonical = canonicalOf engine region.candidate.text := by
  obtain ⟨entry, hentry, rfl⟩ := List.mem_map.mp h
  exact ⟨List.mem_zipIdx_iff_getElem?.mp hentry, rfl⟩

theorem exists_region {candidates : List (Candidate Polygon)} {c : Candidate Polygon}
    (h : c ∈ candidates) : ∃ region ∈ regionsOf engine candidates 0, region.candidate = c := by
  obtain ⟨i, hi⟩ := List.mem_iff_getElem?.mp h
  exact ⟨_, List.mem_map.mpr ⟨(c, i), List.mem_zipIdx_iff_getElem?.mpr hi, rfl⟩, rfl⟩

theorem regionsOf_nodup (candidates : List (Candidate Polygon)) :
    (regionsOf engine candidates 0).Nodup := by
  have hindices : (regionsOf engine candidates 0).map Region.index =
      List.range candidates.length := by
    rw [regionsOf, List.map_map]
    exact (List.zipIdx_map_snd 0 candidates).trans List.range_eq_range'.symm
  exact .of_map Region.index (hindices ▸ List.nodup_range)

theorem region_ext {candidates : List (Candidate Polygon)} {a b : Region Polygon}
    (ha : a ∈ regionsOf engine candidates 0) (hb : b ∈ regionsOf engine candidates 0)
    (h : a.index = b.index) : a = b := by
  obtain ⟨hca, hta⟩ := mem_regionsOf ha
  obtain ⟨hcb, htb⟩ := mem_regionsOf hb
  rw [h] at hca
  have hcandidate := Option.some.inj (hca.symm.trans hcb)
  cases a
  cases b
  simp_all

/-- Different regions have different source indices. -/
theorem sourceIndex_ne {candidates : List (Candidate Polygon)}
    (hdetected : Detected engine candidates) {a b : Region Polygon}
    (ha : a ∈ regionsOf engine candidates 0) (hb : b ∈ regionsOf engine candidates 0)
    (h : a ≠ b) : a.candidate.sourceIndex ≠ b.candidate.sourceIndex := by
  intro heq
  refine h (region_ext ha hb ?_)
  obtain ⟨hia, _⟩ := List.getElem?_eq_some_iff.mp (mem_regionsOf ha).1
  refine (List.getElem?_inj (by simpa using hia) hdetected.indices).mp ?_
  rw [List.getElem?_map, List.getElem?_map, (mem_regionsOf ha).1, (mem_regionsOf hb).1,
    Option.map_some, Option.map_some, heq]

/-! ## What the sweep marks -/

theorem repeats_eq {candidates : List (Candidate Polygon)} {a b : Region Polygon}
    (ha : a ∈ regionsOf engine candidates 0) (hb : b ∈ regionsOf engine candidates 0) :
    repeats engine a b = (textEquivalent (canonicalOf engine a.candidate.text)
        (canonicalOf engine b.candidate.text) &&
      decide (11 / 20 ≤ engine.polygonOverlapRatio a.candidate.polygon b.candidate.polygon)) := by
  rw [repeats, (mem_regionsOf ha).2, (mem_regionsOf hb).2]

/-- A region is dropped in some pair just when another candidate beats it. -/
theorem dropped_iff {candidates : List (Candidate Polygon)} {ordered : List (Region Polygon)}
    (hdetected : Detected engine candidates)
    (hperm : ordered.Perm (regionsOf engine candidates 0))
    (hsorted : ordered.Pairwise Region.sortsBefore) {q : Region Polygon}
    (hq : q ∈ regionsOf engine candidates 0) :
    (∃ left right, [left, right].Sublist ordered ∧ repeats engine left right = true ∧
        q.index = dropped left right) ↔
      candidates.any (beats engine · q.candidate) = true := by
  have hnodup : ordered.Nodup := hperm.nodup_iff.mpr (regionsOf_nodup candidates)
  have hpair : ∀ l r, [l, r].Sublist ordered → l ∈ regionsOf engine candidates 0 ∧
      r ∈ regionsOf engine candidates 0 ∧ l ≠ r ∧ edgesBefore l.candidate r.candidate = true := by
    intro l r hlr
    have hbefore := List.pairwise_pair.mp (hsorted.sublist hlr)
    have hne := List.pairwise_pair.mp (hnodup.sublist hlr)
    exact ⟨hperm.mem_iff.mp (hlr.subset (by simp)), hperm.mem_iff.mp (hlr.subset (by simp)), hne,
      edgesBefore_iff.mpr hbefore⟩
  constructor
  · rintro ⟨l, r, hlr, hrepeats, hindex⟩
    obtain ⟨hl, hr, hne, hedges⟩ := hpair l r hlr
    have hsource := sourceIndex_ne hdetected hl hr hne
    rw [repeats_eq hl hr, Bool.and_eq_true, decide_eq_true_eq] at hrepeats
    unfold dropped at hindex
    split at hindex
    · rename_i hprecedes
      obtain rfl := region_ext hq hr hindex
      refine List.any_eq_true.mpr ⟨l.candidate, List.mem_of_getElem? (mem_regionsOf hl).1, ?_⟩
      simp only [beats, pairRatio, hedges, if_true, hprecedes, Bool.and_eq_true, decide_eq_true_eq]
      exact ⟨hsource, hrepeats.1, hrepeats.2, trivial⟩
    · rename_i hprecedes
      obtain rfl := region_ext hq hl hindex
      have hother := (candidatePrecedes_total hsource).mp (Bool.eq_false_iff.mpr hprecedes)
      refine List.any_eq_true.mpr ⟨r.candidate, List.mem_of_getElem? (mem_regionsOf hr).1, ?_⟩
      simp only [beats, pairRatio, edgesBefore_total hsource hedges, Bool.false_eq_true, if_false,
        hother, Bool.and_eq_true, decide_eq_true_eq]
      exact ⟨hsource.symm, (textEquivalent_comm _ _).trans hrepeats.1, hrepeats.2, trivial⟩
  · intro hany
    obtain ⟨c, hc, hbeats⟩ := List.any_eq_true.mp hany
    obtain ⟨p, hp, rfl⟩ := @exists_region σ Polygon engine candidates c hc
    simp only [beats, Bool.and_eq_true, decide_eq_true_eq] at hbeats
    obtain ⟨hsource, hequivalent, hratio, hprecedes⟩ := hbeats
    have hne : p ≠ q := fun heq => hsource (by rw [heq])
    rcases pair_sublist (hperm.mem_iff.mpr hp) (hperm.mem_iff.mpr hq) hne with hpq | hqp
    · obtain ⟨_, _, _, hedges⟩ := hpair p q hpq
      rw [pairRatio, if_pos hedges] at hratio
      refine ⟨p, q, hpq, ?_, ?_⟩
      · rw [repeats_eq hp hq, hequivalent, decide_eq_true hratio]
        rfl
      · rw [dropped, if_pos hprecedes]
    · obtain ⟨_, _, _, hedges⟩ := hpair q p hqp
      rw [pairRatio, edgesBefore_total hsource.symm hedges, if_neg (by decide)] at hratio
      refine ⟨q, p, hqp, ?_, ?_⟩
      · rw [repeats_eq hq hp, textEquivalent_comm, hequivalent, decide_eq_true hratio]
        rfl
      · have hother := (candidatePrecedes_total hsource.symm).mpr hprecedes
        rw [dropped, hother, if_neg (by decide)]

/-- The sweep breaks only where no pair overlaps any more. -/
theorem apart_of_detected {candidates : List (Candidate Polygon)}
    (hdetected : Detected engine candidates) {l r : Region Polygon}
    (hl : l ∈ regionsOf engine candidates 0) (hr : r ∈ regionsOf engine candidates 0) :
    Apart engine l r := by
  intro hbreak
  rw [repeats, Bool.and_eq_false_iff]
  refine .inr (decide_eq_false fun hratio => ?_)
  have hmeets := hdetected.meets l.candidate (List.mem_of_getElem? (mem_regionsOf hl).1)
    r.candidate (List.mem_of_getElem? (mem_regionsOf hr).1) (lt_of_lt_of_le (by norm_num) hratio)
  exact absurd hmeets.2.1 (not_le.mpr hbreak)

instance : Std.Total (@Region.sortsBefore Polygon) where
  total a b := by
    unfold Region.sortsBefore
    rcases lt_trichotomy a.candidate.bounds.x b.candidate.bounds.x with hlt | heq | hgt
    · exact .inl (.inl hlt)
    · rcases Nat.le_total a.candidate.sourceIndex b.candidate.sourceIndex with hle | hle
      · exact .inl (.inr ⟨heq, hle⟩)
      · exact .inr (.inr ⟨heq.symm, hle⟩)
    · exact .inr (.inl hgt)

instance : IsTrans (Region Polygon) Region.sortsBefore where
  trans a b c hab hbc := by
    rcases hab with hab | ⟨hab, hle⟩
    · rcases hbc with hbc | ⟨hbc, _⟩
      · exact .inl (hab.trans hbc)
      · exact .inl (hbc ▸ hab)
    · rcases hbc with hbc | ⟨hbc, hle'⟩
      · exact .inl (hab ▸ hbc)
      · exact .inr ⟨hab.trans hbc, hle.trans hle'⟩

/-- The sweep keeps what a comparison of all pairs keeps. -/
theorem suppressDuplicates_ok {candidates : List (Candidate Polygon)} {native : List NativeSpan}
    {frame : PageFrame} {budget : MergeBudget σ} {diagnostics : List Diagnostic}
    {done : List (Candidate Polygon) × List Diagnostic × MergeBudget σ}
    (hdetected : Detected engine candidates)
    (h : suppressDuplicates engine candidates native frame budget diagnostics = .ok done) :
    done.1 = allPairs engine candidates native := by
  obtain ⟨_, _, h⟩ := ok_bind h
  obtain ⟨regions, hregions, h⟩ := ok_bind h
  obtain ⟨_, _, h⟩ := ok_bind h
  obtain ⟨_, _, h⟩ := ok_bind h
  obtain ⟨swept, hswept, h⟩ := ok_bind h
  obtain ⟨sifted, hsifted, h⟩ := ok_bind h
  obtain ⟨_, _, h⟩ := ok_bind h
  obtain rfl := Except.ok.inj h
  rw [regionsFrom_ok hregions] at hswept hsifted ⊢
  have hperm := List.perm_insertionSort Region.sortsBefore (regionsOf engine candidates 0)
  have hsorted := List.pairwise_insertionSort Region.sortsBefore (regionsOf engine candidates 0)
  have hindex : ∀ region ∈ regionsOf engine candidates 0, region.index < candidates.length :=
    fun region hr => (List.getElem?_eq_some_iff.mp (mem_regionsOf hr).1).1
  obtain ⟨hlength, hmarks⟩ := sweep_ok hswept hsorted
    (fun l hl r hr => apart_of_detected hdetected (hperm.mem_iff.mp hl) (hperm.mem_iff.mp hr))
    (fun r hr => by simpa using hindex r (hperm.mem_iff.mp hr))
  have hscanned := scanRegions_ok hsifted (fun r hr => (mem_regionsOf hr).2)
    (fun r hr => by simpa [hlength] using hindex r hr)
  have hflag : ∀ region ∈ regionsOf engine candidates 0,
      (!sifted.suppressed.getD region.index false) = kept engine candidates native region.candidate := by
    intro region hr
    refine congrArg (!·) (Bool.eq_iff_iff.mpr ?_)
    rw [Bool.or_eq_true, ← dropped_iff hdetected hperm hsorted hr]
    refine (hscanned region.index).trans ?_
    rw [hmarks region.index]
    have hnone : (List.replicate candidates.length false).getD region.index false ≠ true := by
      rw [List.getD_eq_getElem?_getD, List.getElem?_replicate]
      split <;> simp
    constructor
    · rintro ((hmarked | hpair) | ⟨other, ho, hsame, hnative⟩)
      · exact absurd hmarked hnone
      · exact .inl hpair
      · obtain rfl := region_ext hr ho hsame
        exact .inr hnative
    · rintro (hpair | hnative)
      · exact .inl (.inr hpair)
      · exact .inr ⟨region, hr, rfl, hnative⟩
  rw [List.filter_congr hflag, regionsOf, List.filter_map, List.map_map, allPairs]
  have hzip : candidates = candidates.zipIdx.map Prod.fst := (List.zipIdx_map_fst 0 candidates).symm
  conv_rhs => rw [hzip, List.filter_map]
  rw [← hzip]
  rfl

/-! ## Where a dropped text went -/

/-- Reached over candidates each of which the next one beats: a retained candidate, or one that
native text covers. -/
inductive Accounted (engine : Engine σ Polygon) (candidates : List (Candidate Polygon))
    (native : List NativeSpan) : Candidate Polygon → Prop where
  | retained {c : Candidate Polygon} (h : c ∈ allPairs engine candidates native) :
      Accounted engine candidates native c
  | native {c : Candidate Polygon} {span : NativeSpan} (hspan : span ∈ native)
      (hcovers : covers engine span c = true) : Accounted engine candidates native c
  | beaten {c better : Candidate Polygon} (hbetter : better ∈ candidates)
      (hbeats : beats engine better c = true) (h : Accounted engine candidates native better) :
      Accounted engine candidates native c

theorem candidatePrecedes_trans {a b c : Candidate Polygon} (hab : candidatePrecedes a b = true)
    (hbc : candidatePrecedes b c = true) : candidatePrecedes a c = true := by
  rw [candidatePrecedes_iff] at *
  rcases hab with hab | ⟨hab, hlt⟩
  · rcases hbc with hbc | ⟨hbc, _⟩
    · exact .inl (hbc.trans hab)
    · exact .inl (hbc ▸ hab)
  · rcases hbc with hbc | ⟨hbc, hlt'⟩
    · exact .inl (hab ▸ hbc)
    · exact .inr ⟨hab.trans hbc, hlt.trans hlt'⟩

theorem beats_precedes {a b : Candidate Polygon} (h : beats engine a b = true) :
    candidatePrecedes a b = true := by
  simp only [beats, Bool.and_eq_true] at h
  exact h.2.2.2

/-- Every candidate is accounted for, by induction on how many precede it. -/
theorem candidate_accounted (candidates : List (Candidate Polygon)) (native : List NativeSpan)
    {c : Candidate Polygon} (hc : c ∈ candidates) : Accounted engine candidates native c := by
  generalize hn : (candidates.filter (candidatePrecedes · c)).length = n
  induction n using Nat.strong_induction_on generalizing c with
  | _ n ih =>
    by_cases hkept : kept engine candidates native c = true
    · exact .retained (List.mem_filter.mpr ⟨hc, hkept⟩)
    · rw [kept, Bool.not_eq_true, Bool.not_eq_false', Bool.or_eq_true, List.any_eq_true,
        List.any_eq_true] at hkept
      rcases hkept with ⟨better, hbetter, hbeats⟩ | ⟨span, hspan, hcovers⟩
      · refine .beaten hbetter hbeats (ih _ ?_ hbetter rfl)
        rw [← hn]
        have hprecedes := beats_precedes hbeats
        have hself : better ∉ candidates.filter (candidatePrecedes · better) := fun hmem => by
          have hirrefl := (List.mem_filter.mp hmem).2
          rw [candidatePrecedes_iff] at hirrefl
          rcases hirrefl with hlt | ⟨_, hlt⟩
          · exact lt_irrefl _ hlt
          · exact lt_irrefl _ hlt
        have hsub : (candidates.filter (candidatePrecedes · better)).Sublist
            (candidates.filter (candidatePrecedes · c)) :=
          List.monotone_filter_right candidates fun d hd => candidatePrecedes_trans hd hprecedes
        refine lt_of_le_of_ne hsub.length_le fun heq => hself ?_
        rw [hsub.eq_of_length heq]
        exact List.mem_filter.mpr ⟨hbetter, hprecedes⟩
      · exact .native hspan hcovers

/-- The better text of a pair contains the other, and native text what it covers. -/
structure Aligned (engine : Engine σ Polygon) (candidates : List (Candidate Polygon))
    (native : List NativeSpan) : Prop where
  pairs : ∀ a ∈ candidates, ∀ b ∈ candidates, beats engine a b = true →
    (canonicalOf engine b.text).value <:+: (canonicalOf engine a.text).value
  spans : ∀ span ∈ native, ∀ c ∈ candidates, covers engine span c = true →
    (canonicalOf engine c.text).value <:+: span.canonical.value

/-- A retained candidate or a native span has the text. -/
def TextKept (engine : Engine σ Polygon) (retained : List (Candidate Polygon))
    (native : List NativeSpan) (c : Candidate Polygon) : Prop :=
  (∃ k ∈ retained, (canonicalOf engine c.text).value <:+: (canonicalOf engine k.text).value) ∨
    ∃ span ∈ native, (canonicalOf engine c.text).value <:+: span.canonical.value

theorem Accounted.textKept {candidates : List (Candidate Polygon)} {native : List NativeSpan}
    {c : Candidate Polygon} (h : Accounted engine candidates native c)
    (haligned : Aligned engine candidates native) (hc : c ∈ candidates) :
    TextKept engine (allPairs engine candidates native) native c := by
  induction h with
  | @retained c h => exact .inl ⟨c, h, List.infix_rfl⟩
  | @native c span hspan hcovers => exact .inr ⟨span, hspan, haligned.spans span hspan c hc hcovers⟩
  | @beaten c better hbetter hbeats _ ih =>
    have hstep := haligned.pairs better hbetter c hc hbeats
    rcases ih hbetter with ⟨k, hk, hin⟩ | ⟨span, hspan, hin⟩
    · exact .inl ⟨k, hk, hstep.trans hin⟩
    · exact .inr ⟨span, hspan, hstep.trans hin⟩

/-- In any order of the list the same candidates are kept. -/
theorem allPairs_perm {candidates candidates' : List (Candidate Polygon)}
    (h : candidates'.Perm candidates) (native : List NativeSpan) :
    (allPairs engine candidates' native).Perm (allPairs engine candidates native) := by
  have hkept : kept engine candidates' native = kept engine candidates native := by
    funext c
    rw [kept, kept, Bool.eq_iff_iff]
    simp only [Bool.not_eq_true', Bool.or_eq_false_iff, List.any_eq_false, h.mem_iff]
  rw [allPairs, allPairs, hkept]
  exact h.filter _

theorem Detected.perm {candidates candidates' : List (Candidate Polygon)}
    (h : candidates'.Perm candidates) (hdetected : Detected engine candidates) :
    Detected engine candidates' where
  meets a ha b hb := hdetected.meets a (h.mem_iff.mp ha) b (h.mem_iff.mp hb)
  indices := (h.map Candidate.sourceIndex).nodup_iff.mpr hdetected.indices

/-- The sweep keeps what comparing all pairs keeps, in any order of the list, and every dropped
candidate is accounted for; its text is kept where the better texts are the longer ones. -/
theorem suppression_accounted (engine : Engine σ Polygon) (candidates : List (Candidate Polygon))
    (native : List NativeSpan) (frame : PageFrame) (budget : MergeBudget σ)
    (diagnostics : List Diagnostic)
    (done : List (Candidate Polygon) × List Diagnostic × MergeBudget σ)
    (hdetected : Detected engine candidates)
    (h : suppressDuplicates engine candidates native frame budget diagnostics = .ok done) :
    done.1 = allPairs engine candidates native ∧
    (∀ c ∈ candidates, c ∉ done.1 → Accounted engine candidates native c) ∧
    (Aligned engine candidates native →
      ∀ c ∈ candidates, c ∉ done.1 → TextKept engine done.1 native c) ∧
    ∀ candidates' budget' diagnostics' done', candidates'.Perm candidates →
      suppressDuplicates engine candidates' native frame budget' diagnostics' = .ok done' →
      done'.1.Perm done.1 := by
  have hdone := suppressDuplicates_ok hdetected h
  refine ⟨hdone, fun c hc _ => candidate_accounted candidates native hc, fun haligned c hc _ => ?_, ?_⟩
  · rw [hdone]
    exact (candidate_accounted candidates native hc).textKept haligned hc
  · intro candidates' budget' diagnostics' done' hperm h'
    rw [hdone, suppressDuplicates_ok (hdetected.perm hperm) h']
    exact allPairs_perm hperm native

end

/-! ## Two regions in one place -/

/-- Rectangular regions, and a context that refuses nothing. -/
def plainEngine : Engine Unit Rect where
  checkpoint := .ok
  allocate := fun world _ => some world
  consumeText := fun world _ => .ok world
  nfc := id
  polygonOverlapRatio := rectOverlapRatio

def lineBounds : Rect := ⟨0, 0, 100, 20⟩

def shortRegion : Candidate Rect := ⟨0, "ABCD".toList, 98 / 100, 98 / 100, lineBounds, lineBounds⟩

def longRegion : Candidate Rect := ⟨1, "ABCDEFGH".toList, 97 / 100, 97 / 100, lineBounds, lineBounds⟩

theorem twoRegions_detected : Detected plainEngine [shortRegion, longRegion] where
  meets a ha b hb _ := by
    have hbounds : ∀ c ∈ [shortRegion, longRegion], c.bounds = lineBounds := by
      simp [shortRegion, longRegion]
    rw [hbounds a ha, hbounds b hb]
    norm_num [Rect.Meets, lineBounds]
  indices := by decide

theorem twoRegions_kept : allPairs plainEngine [shortRegion, longRegion] [] = [shortRegion] := by
  decide +kernel

/-- The surer region is kept though the other one has the longer text. -/
theorem longer_text_dropped :
    ¬ ∀ (candidates : List (Candidate Rect)) (native : List NativeSpan) (frame : PageFrame)
      (budget : MergeBudget Unit) (done : List (Candidate Rect) × List Diagnostic × MergeBudget Unit),
      Detected plainEngine candidates →
      suppressDuplicates plainEngine candidates native frame budget [] = .ok done →
      ∀ c ∈ candidates, c ∉ done.1 → TextKept plainEngine done.1 native c := by
  intro h
  obtain ⟨done, hdone⟩ : ∃ done, suppressDuplicates plainEngine [shortRegion, longRegion] []
      ⟨1, 100, 100⟩ ⟨100, 0, ()⟩ [] = .ok done := isOk_iff.mp (by decide +kernel)
  have hkept := suppressDuplicates_ok twoRegions_detected hdone
  rw [twoRegions_kept] at hkept
  have hlost := h _ _ _ _ _ twoRegions_detected hdone longRegion (by simp)
  rw [hkept] at hlost
  rcases hlost (by decide +kernel) with ⟨k, hk, hin⟩ | ⟨span, hspan, _⟩
  · obtain rfl := List.mem_singleton.mp hk
    exact absurd hin (by decide +kernel)
  · cases hspan

theorem suppression_accounted_two :
    ∃ done, suppressDuplicates plainEngine [shortRegion, longRegion] [] ⟨1, 100, 100⟩
      ⟨100, 0, ()⟩ [] = .ok done ∧ done.1 = [shortRegion] ∧
      Accounted plainEngine [shortRegion, longRegion] [] longRegion := by
  obtain ⟨done, hdone⟩ : ∃ done, suppressDuplicates plainEngine [shortRegion, longRegion] []
      ⟨1, 100, 100⟩ ⟨100, 0, ()⟩ [] = .ok done := isOk_iff.mp (by decide +kernel)
  obtain ⟨hkept, haccounted, _⟩ := suppression_accounted plainEngine [shortRegion, longRegion] []
    ⟨1, 100, 100⟩ ⟨100, 0, ()⟩ [] done twoRegions_detected hdone
  rw [twoRegions_kept] at hkept
  refine ⟨done, hdone, hkept, haccounted longRegion (by simp) ?_⟩
  rw [hkept]
  decide +kernel

end IntoMarkdown.Ocr
