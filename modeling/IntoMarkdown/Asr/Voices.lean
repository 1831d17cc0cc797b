import IntoMarkdown.Asr.Assigned
import IntoMarkdown.Asr.Labels

/-! # The passes over speakers

Assignment, relabelling and repair change nothing but speakers, and leave speakers that validation
takes. -/

namespace IntoMarkdown.Asr
open Ir Lib Lib.Strings

section
variable {rules : EvidenceRules} {scores : Scores rules} {segment : Segment}
  {tokens : List TimedToken}

/-- A token with a speaker that validation takes. -/
abbrev TokenVoiced (rules : EvidenceRules) (token : TimedToken) : Prop :=
  VoiceSound rules token.speaker token.speakerConfidence

/-! ## Summaries -/

theorem meanConfidence_unit {confidences : List Text}
    (h : ∀ score ∈ confidences, rules.unitInterval score = true) :
    ∀ score ∈ meanConfidence scores confidences, rules.unitInterval score = true := by
  intro score hscore
  unfold meanConfidence at hscore
  split at hscore
  · cases hscore
  · next hne =>
    obtain rfl := Option.some.inj hscore
    exact scores.mean_unit confidences hne h

theorem confidences_unit (h : ∀ token ∈ tokens, TokenVoiced rules token) :
    ∀ score ∈ tokens.filterMap TimedToken.speakerConfidence, rules.unitInterval score = true := by
  intro score hscore
  obtain ⟨token, htoken, hsome⟩ := List.mem_filterMap.mp hscore
  exact (h token htoken).unit score hsome

theorem bare_summarizeTokenSpeaker (segment : Segment) :
    bare (summarizeTokenSpeaker scores segment) = bare segment := by
  unfold summarizeTokenSpeaker
  dsimp only
  split <;> rfl

theorem voiced_summarizeTokenSpeaker (h : ∀ token ∈ segment.tokens, TokenVoiced rules token) :
    Voiced rules (summarizeTokenSpeaker scores segment) := by
  unfold summarizeTokenSpeaker
  dsimp only
  split
  · next hall =>
    obtain ⟨hsome, hsame⟩ := Bool.and_eq_true_iff.mp hall
    refine ⟨⟨fun label hlabel => ?_, meanConfidence_unit (confidences_unit h), fun hnone => ?_⟩, h,
      fun _ token htoken => of_decide_eq_true (List.all_eq_true.mp hsame token htoken)⟩
    · obtain ⟨first, hfirst, hspeaker⟩ := Option.bind_eq_some_iff.mp hlabel
      exact (h first (List.mem_of_mem_head? hfirst)).label label hspeaker
    · rw [Option.isSome_iff_ne_none] at hsome
      exact absurd hnone hsome
  · exact ⟨voiceSound_none, h, fun hne => absurd rfl hne⟩

/-! ## Assignment -/

/-- Labels and confidences that validation takes. -/
def AssignsSound (rules : EvidenceRules) (assign : Nat → Assignment) : Prop :=
  ∀ index, ∀ voice ∈ assign index, badSpeaker voice.1 = false ∧ rules.unitInterval voice.2 = true

theorem AssignsSound.voice {assign : Nat → Assignment} (h : AssignsSound rules assign)
    (index : Nat) :
    VoiceSound rules (voiceOf (assign index)).1 (voiceOf (assign index)).2 := by
  have hvoice := h index
  rw [voiceOf]
  cases hassign : assign index with
  | none => exact voiceSound_none
  | some voice =>
    obtain ⟨hlabel, hunit⟩ := hvoice voice hassign
    exact voiceSound_some hlabel hunit

theorem bare_assignSegment (assign : Nat → Assignment) (segment : Segment) :
    bare (assignSegment scores assign segment) = bare segment := by
  unfold assignSegment
  dsimp only
  split
  · rfl
  · rw [bare_summarizeTokenSpeaker, bare, bare, bare_assignTurns]

theorem voiced_assignTurns {assign : Nat → Assignment} (hassign : AssignsSound rules assign)
    {range : TimeRange} (hfit : TokensFit range tokens) :
    ∀ token ∈ assignTurns assign 0 (tokenTurns tokens range) tokens, TokenVoiced rules token := by
  intro token htoken
  have hvoices := @voices_assignTurns tokens assign 0 0 _ (tokenTurns_covers hfit)
  have hmem := List.mem_map_of_mem (f := voice) htoken
  rw [hvoices, List.take_zero, List.map_nil, List.nil_append] at hmem
  obtain ⟨index, hindex⟩ := mem_turnVoices _ hmem
  have hsound := hassign.voice index
  rw [← hindex] at hsound
  exact hsound

theorem voiced_assignSegment {assign : Nat → Assignment} (hassign : AssignsSound rules assign)
    (hsound : Sound rules segment) : Voiced rules (assignSegment scores assign segment) := by
  unfold assignSegment
  dsimp only
  split
  · next hnil =>
    have hnone : segment.tokens = [] := (tokenTurns_eq_nil hsound.fit).mp hnil
    refine ⟨hassign.voice 0, ?_, ?_⟩
    · rw [hnone]
      exact List.forall_mem_nil _
    · rw [hnone]
      exact fun _ => List.forall_mem_nil _
  · exact voiced_summarizeTokenSpeaker (voiced_assignTurns hassign hsound.fit)

theorem tokens_summarizeTokenSpeaker (segment : Segment) :
    (summarizeTokenSpeaker scores segment).tokens = segment.tokens := by
  unfold summarizeTokenSpeaker
  dsimp only
  split <;> rfl

/-- **Assignment by turns.** The turns of a segment share out its tokens and follow each other in
time; each token has the voice that its turn was assigned, and nothing else of it changes. -/
theorem assignSegment_turns (scores : Scores rules) (assign : Nat → Assignment)
    (hfit : TokensFit segment.range segment.tokens) (hne : segment.tokens ≠ []) :
    Turned segment.range segment.tokens (tokenTurns segment.tokens segment.range) ∧
      bare (assignSegment scores assign segment) = bare segment ∧
      ∀ k turn, (tokenTurns segment.tokens segment.range)[k]? = some turn →
        ∀ index, turn.start ≤ index → index < turn.stop →
          (assignSegment scores assign segment).tokens[index]?.map voice =
            some (voiceOf (assign k)) := by
  refine ⟨tokenTurns_turned hfit, bare_assignSegment assign segment, ?_⟩
  intro k turn hturn index hle hlt
  have hcovers := tokenTurns_covers hfit
  have hvoices := @voices_assignTurns segment.tokens assign 0 0 _ hcovers
  obtain ⟨-, hvoice⟩ := @getElem?_turnVoices assign 0 _ 0 _ hcovers k turn hturn index hle hlt
  have hturns : tokenTurns segment.tokens segment.range ≠ [] := fun hnil =>
    hne ((tokenTurns_eq_nil hfit).mp hnil)
  unfold assignSegment
  dsimp only
  rw [if_neg hturns, tokens_summarizeTokenSpeaker, ← List.getElem?_map, hvoices, List.take_zero,
    List.map_nil, List.nil_append]
  rw [Nat.sub_zero, Nat.zero_add] at hvoice
  exact hvoice

/-! ### A sample -/

/-- Confidences that are `0.0`, `0.5` or `1.0`. -/
def halfRules : EvidenceRules :=
  { EvidenceRules.plain with
    unitInterval := fun score => score ∈ ["0.0".toList, "0.5".toList, "1.0".toList] }

/-- The arithmetic on confidences that are all the same. -/
def halfScores : Scores halfRules where
  zero := "0.0".toList
  halfOfLeast _ _ := "0.5".toList
  mean scores := scores.headD "0.0".toList
  weighted left _ _ _ := left
  zero_unit := by decide
  halfOfLeast_unit _ _ _ _ := by decide
  mean_unit scores hne h := by
    cases scores with
    | nil => exact absurd rfl hne
    | cons score scores => exact h score List.mem_cons_self
  weighted_unit _ _ _ _ _ _ h _ := h

def sampleToken (startMs endMs : UInt64) (text : Text) : TimedToken :=
  ⟨⟨startMs, endMs⟩, text, none, none, none⟩

def sampleSegment : Segment :=
  ⟨"asr-1".toList, ⟨0, 4000⟩, none, none,
    [sampleToken 0 1500 "Hello ".toList, sampleToken 1600 3900 "there".toList],
    [.text "Hello there".toList []], ⟨"asr".toList, none, "ai".toList⟩, none⟩

theorem fit_sample : TokensFit sampleSegment.range sampleSegment.tokens :=
  ⟨by decide, by decide⟩

/-- The first turn is of one speaker, the others of another. -/
def sampleAssign (turn : Nat) : Assignment :=
  some (if turn = 0 then ("a".toList, "1.0".toList) else ("b".toList, "0.5".toList))

theorem sampleAssign_sound : AssignsSound halfRules sampleAssign := by
  intro index voice hvoice
  obtain rfl := Option.some.inj hvoice
  split <;> exact ⟨by decide, by decide⟩

theorem assignSegment_turns_hello :
    (assignSegment halfScores sampleAssign sampleSegment).tokens[1]?.map voice =
      some (some "b".toList, some "0.5".toList) := by
  obtain ⟨-, -, hvoice⟩ :=
    assignSegment_turns halfScores sampleAssign fit_sample (List.cons_ne_nil _ _)
  exact hvoice 1 ⟨1, 2, ⟨1600, 3900⟩⟩ (by decide) 1 (by decide) (by decide)

/-! ## Relabelling -/

theorem bare_mapSpeaker (f : Text → Text) (segment : Segment) :
    bare (mapSpeaker f segment) = bare segment := by
  rw [bare, mapSpeaker, bare]
  dsimp only
  rw [List.map_map]
  rfl

theorem VoiceSound.map {speaker score : Option Text} (h : VoiceSound rules speaker score)
    {f : Text → Text} (hf : ∀ label, badSpeaker label = false → badSpeaker (f label) = false) :
    VoiceSound rules (speaker.map f) score := by
  refine ⟨fun label hlabel => ?_, h.unit, fun hnone => h.absent (Option.map_eq_none_iff.mp hnone)⟩
  obtain ⟨source, hsource, rfl⟩ := Option.map_eq_some_iff.mp hlabel
  exact hf source (h.label source hsource)

theorem voiced_mapSpeaker {f : Text → Text} (h : Voiced rules segment)
    (hf : ∀ label, badSpeaker label = false → badSpeaker (f label) = false) :
    Voiced rules (mapSpeaker f segment) := by
  refine ⟨h.own.map hf, ?_, fun hne => ?_⟩
  · exact List.forall_mem_map.mpr fun token htoken => (h.each token htoken).map hf
  · refine List.forall_mem_map.mpr fun token htoken => congrArg (Option.map f) (h.same ?_ token htoken)
    intro hnone
    exact hne (congrArg (Option.map f) hnone)

/-! ## Repairs -/

theorem bare_fillGap (before after : Option TimedToken) (gap : List TimedToken) :
    (fillGap scores before after gap).map bareToken = gap.map bareToken := by
  unfold fillGap
  split
  · rfl
  · split
    · rw [List.map_map]
      rfl
    · rfl

theorem bare_repairFrom (before : Option TimedToken) (gap tokens : List TimedToken) :
    (repairFrom scores before gap tokens).map bareToken = (gap ++ tokens).map bareToken := by
  induction tokens generalizing before gap with
  | nil => rw [repairFrom, bare_fillGap, List.append_nil]
  | cons token tokens ih =>
    rw [repairFrom]
    split
    · rw [ih, List.append_assoc]
      rfl
    · rw [List.map_append, bare_fillGap, List.map_cons, ih, List.nil_append, List.map_append]
      rfl

theorem voiced_fillGap {before after : Option TimedToken} {gap : List TimedToken}
    (hbefore : ∀ token ∈ before, TokenVoiced rules token)
    (hafter : ∀ token ∈ after, TokenVoiced rules token)
    (hgap : ∀ token ∈ gap, TokenVoiced rules token) :
    ∀ token ∈ fillGap scores before after gap, TokenVoiced rules token := by
  unfold fillGap
  split
  · exact hgap
  · next id hid =>
    split
    · obtain ⟨first, hfirst, hspeaker⟩ := Option.bind_eq_some_iff.mp hid
      refine List.forall_mem_map.mpr fun token _ =>
        voiceSound_some ((hbefore first hfirst).label id hspeaker) ?_
      split
      · next left right hleft hright =>
        obtain ⟨earlier, hearlier, hleft⟩ := Option.bind_eq_some_iff.mp hleft
        obtain ⟨later, hlater, hright⟩ := Option.bind_eq_some_iff.mp hright
        exact scores.halfOfLeast_unit left right ((hbefore earlier hearlier).unit left hleft)
          ((hafter later hlater).unit right hright)
      · exact scores.zero_unit
    · exact hgap

theorem voiced_repairFrom {before : Option TimedToken} {gap tokens : List TimedToken}
    (hbefore : ∀ token ∈ before, TokenVoiced rules token)
    (hgap : ∀ token ∈ gap, TokenVoiced rules token)
    (h : ∀ token ∈ tokens, TokenVoiced rules token) :
    ∀ token ∈ repairFrom scores before gap tokens, TokenVoiced rules token := by
  induction tokens generalizing before gap with
  | nil => exact voiced_fillGap hbefore (fun _ hnone => by cases hnone) hgap
  | cons token tokens ih =>
    obtain ⟨htoken, hrest⟩ := List.forall_mem_cons.mp h
    have hsome : ∀ other ∈ some token, TokenVoiced rules other := by
      intro other hother
      exact Option.some.inj hother ▸ htoken
    rw [repairFrom]
    split
    · exact ih hbefore
        (List.forall_mem_append.mpr ⟨hgap, List.forall_mem_singleton.mpr htoken⟩) hrest
    · exact List.forall_mem_append.mpr ⟨voiced_fillGap hbefore hsome hgap,
        List.forall_mem_cons.mpr ⟨htoken, ih hsome (List.forall_mem_nil _) hrest⟩⟩

theorem bare_fillUnassigned (id : Text) (token : TimedToken) :
    bareToken (fillUnassigned scores id token) = bareToken token := by
  unfold fillUnassigned
  split <;> rfl

theorem voiced_fillUnassigned {id : Text} (hid : badSpeaker id = false) {token : TimedToken}
    (h : TokenVoiced rules token) : TokenVoiced rules (fillUnassigned scores id token) := by
  unfold fillUnassigned
  split
  · exact voiceSound_some hid scores.zero_unit
  · exact h

/-- The segment whose tokens are repaired, before its speaker is summed up. -/
def repairTokens (scores : Scores rules) (only : Option Text) (segment : Segment) : Segment :=
  match only with
  | some id =>
    if segment.tokens.isEmpty && segment.speaker.isNone then
      { segment with speaker := some id, speakerConfidence := some scores.zero }
    else { segment with tokens := segment.tokens.map (fillUnassigned scores id) }
  | none => { segment with tokens := repairBracketedTokenGaps scores segment.tokens }

theorem repairSegment_eq (only : Option Text) (segment : Segment) :
    repairSegment scores only segment =
      if (repairTokens scores only segment).tokens.isEmpty then repairTokens scores only segment
      else summarizeTokenSpeaker scores (repairTokens scores only segment) := rfl

theorem bare_repairTokens (only : Option Text) (segment : Segment) :
    bare (repairTokens scores only segment) = bare segment := by
  unfold repairTokens
  split
  · next id =>
    split
    · rfl
    · have hall : bareToken ∘ fillUnassigned scores id = bareToken :=
        funext (bare_fillUnassigned id)
      rw [bare, bare]
      dsimp only
      rw [List.map_map, hall]
  · rw [bare, bare]
    dsimp only
    rw [repairBracketedTokenGaps, bare_repairFrom, List.nil_append]

theorem bare_repairSegment (only : Option Text) (segment : Segment) :
    bare (repairSegment scores only segment) = bare segment := by
  rw [repairSegment_eq]
  split
  · exact bare_repairTokens only segment
  · rw [bare_summarizeTokenSpeaker, bare_repairTokens]

theorem voiced_repairTokens {only : Option Text} (h : Voiced rules segment)
    (honly : ∀ id ∈ only, badSpeaker id = false) :
    VoiceSound rules (repairTokens scores only segment).speaker
        (repairTokens scores only segment).speakerConfidence ∧
      ∀ token ∈ (repairTokens scores only segment).tokens, TokenVoiced rules token := by
  unfold repairTokens
  split
  · next id =>
    have hid := honly id rfl
    split
    · exact ⟨voiceSound_some hid scores.zero_unit, h.each⟩
    · exact ⟨h.own, List.forall_mem_map.mpr fun token htoken =>
        voiced_fillUnassigned hid (h.each token htoken)⟩
  · exact ⟨h.own, voiced_repairFrom (fun _ hnone => by cases hnone) (List.forall_mem_nil _) h.each⟩

theorem voiced_repairSegment {only : Option Text} (h : Voiced rules segment)
    (honly : ∀ id ∈ only, badSpeaker id = false) :
    Voiced rules (repairSegment scores only segment) := by
  obtain ⟨hown, htokens⟩ := @voiced_repairTokens rules scores segment only h honly
  rw [repairSegment_eq]
  split
  · next hempty =>
    refine ⟨hown, htokens, fun _ => ?_⟩
    rw [List.isEmpty_iff.mp hempty]
    exact List.forall_mem_nil _
  · exact voiced_summarizeTokenSpeaker htokens

theorem mem_labels {id : Text} (h : Voiced rules segment) (hid : id ∈ labels segment) :
    badSpeaker id = false := by
  rcases List.mem_append.mp hid with hid | hid
  · obtain ⟨token, htoken, hspeaker⟩ := List.mem_filterMap.mp hid
    exact (h.each token htoken).label id hspeaker
  · exact h.own.label id (Option.mem_toList.mp hid)

theorem onlySpeaker_valid {segments : List Segment} (h : ∀ segment ∈ segments, Voiced rules segment) :
    ∀ id ∈ onlySpeaker segments, badSpeaker id = false := by
  intro id hid
  unfold onlySpeaker at hid
  split at hid
  · next only hlabels =>
    obtain rfl := Option.some.inj hid
    have hmem : only ∈ (segments.flatMap labels).dedup := hlabels ▸ List.mem_singleton_self only
    obtain ⟨segment, hsegment, hlabel⟩ := List.mem_flatMap.mp (List.mem_dedup.mp hmem)
    exact mem_labels (h segment hsegment) hlabel
  · cases hid

end

end IntoMarkdown.Asr
