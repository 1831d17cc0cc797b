import IntoMarkdown.Asr.Splitting

/-! # Merging

Neighbours of one speaker are joined. Through all passes the text and the tokens stay, every
segment is one that validation takes, and in the end no two neighbours could still be joined. -/

namespace IntoMarkdown.Asr
open Ir Lib Lib.Strings

/-- Segments of a transcript, their text and tokens as they were. -/
structure Keeps (rules : EvidenceRules) (before after : List Segment) : Prop where
  script : Script rules after
  voiced : ∀ segment ∈ after, Voiced rules segment
  text : after.flatMap Segment.text = before.flatMap Segment.text
  words : after.flatMap Segment.words = before.flatMap Segment.words

section
variable {rules : EvidenceRules} {scores : Scores rules} {segment left right : Segment}
  {segments before between after : List Segment}

theorem Keeps.trans (h : Keeps rules before between) (h' : Keeps rules between after) :
    Keeps rules before after where
  script := h'.script
  voiced := h'.voiced
  text := h'.text.trans h.text
  words := h'.words.trans h.words

theorem keeps_of_bare (h : Script rules before) (heq : after.map bare = before.map bare)
    (hvoiced : ∀ segment ∈ after, Voiced rules segment) : Keeps rules before after where
  script := h.of_bare heq
  voiced := hvoiced
  text := flatMap_text_bare_eq heq
  words := flatMap_words_bare_eq heq

theorem splitTokenSpeakerTurns_keeps (scores : Scores rules) (h : Script rules segments)
    (hvoiced : ∀ segment ∈ segments, Voiced rules segment) :
    Keeps rules segments (splitTokenSpeakerTurns scores segments) := by
  have hpieces (segment : Segment) (hsegment : segment ∈ segments) :
      Pieces rules segment (splitSegment scores segment) :=
    splitSegment_pieces (h.written segment hsegment) (hvoiced segment hsegment)
  have heach (piece : Segment) (hpiece : piece ∈ splitTokenSpeakerTurns scores segments) :
      Written rules piece ∧ Voiced rules piece := by
    obtain ⟨segment, hsegment, hpiece⟩ := List.mem_flatMap.mp hpiece
    exact (hpieces segment hsegment).written piece hpiece
  refine ⟨⟨fun piece hpiece => (heach piece hpiece).1, ?_⟩, fun piece hpiece => (heach piece hpiece).2,
    ?_, ?_⟩
  · rw [splitTokenSpeakerTurns, List.map_flatMap, List.pairwise_flatMap]
    refine ⟨fun segment hsegment => (hpieces segment hsegment).ordered, ?_⟩
    refine (List.pairwise_map.mp h.ordered).imp_of_mem fun {a b} ha hb hbefore => ?_
    intro x hx y hy
    obtain ⟨left, hleft, rfl⟩ := List.mem_map.mp hx
    obtain ⟨right, hright, rfl⟩ := List.mem_map.mp hy
    exact UInt64.le_trans ((hpieces a ha).inside left hleft).2
      (UInt64.le_trans hbefore ((hpieces b hb).inside right hright).1)
  · rw [splitTokenSpeakerTurns, List.flatMap_assoc]
    exact List.flatMap_congr fun segment hsegment => (hpieces segment hsegment).text
  · rw [splitTokenSpeakerTurns, List.flatMap_assoc]
    exact List.flatMap_congr fun segment hsegment => (hpieces segment hsegment).words

/-! ## Two neighbours -/

/-- Segments that can be joined to what is before them alike. -/
structure Alike (a b : Segment) : Prop where
  speaker : a.speaker = b.speaker
  tokens : a.tokens.isEmpty = b.tokens.isEmpty
  start : a.range.startMs = b.range.startMs

theorem Alike.refl (a : Segment) : Alike a a := ⟨rfl, rfl, rfl⟩

theorem Alike.trans {a b c : Segment} (h : Alike a b) (h' : Alike b c) : Alike a c :=
  ⟨h.speaker.trans h'.speaker, h.tokens.trans h'.tokens, h.start.trans h'.start⟩

theorem Alike.canMerge {a b : Segment} (h : Alike a b) (left : Segment) :
    canMergeSpeakerTurns left a = canMergeSpeakerTurns left b := by
  rw [canMergeSpeakerTurns, canMergeSpeakerTurns, h.speaker, h.tokens, h.start]

theorem mergedConfidence_unit (hleft : Voiced rules left) (hright : Voiced rules right) :
    ∀ score ∈ mergedConfidence scores left right, rules.unitInterval score = true := by
  intro score hscore
  have hweight (tokens : List TimedToken) : 0 < weight tokens :=
    Nat.lt_of_lt_of_le Nat.one_pos (Nat.le_max_right _ _)
  unfold mergedConfidence at hscore
  split at hscore
  · next l r hl hr =>
    obtain rfl := Option.some.inj hscore
    exact scores.weighted_unit l _ r _ (hweight _) (hweight _) (hleft.own.unit l hl)
      (hright.own.unit r hr)
  · next value hl _ => exact hleft.own.unit score (hl.trans hscore)
  · next value _ hr => exact hright.own.unit score (hr.trans hscore)
  · cases hscore

theorem isEmpty_append (tokens tokens' : List TimedToken)
    (h : tokens.isEmpty = tokens'.isEmpty) : (tokens ++ tokens').isEmpty = tokens.isEmpty := by
  cases tokens with
  | nil => exact h.symm
  | cons token tokens => rfl

/-- What two neighbours of one speaker are joined to. -/
structure Joins (rules : EvidenceRules) (left right merged : Segment) : Prop where
  written : Written rules merged
  voiced : Voiced rules merged
  alike : Alike left merged
  range : merged.range = ⟨left.range.startMs, right.range.endMs⟩
  text : merged.text = left.text ++ right.text
  words : merged.words = left.words ++ right.words

/-- Two segments of plain text as one. -/
def joined (scores : Scores rules) (left right : Segment) : Segment :=
  { left with
    range := ⟨left.range.startMs, right.range.endMs⟩
    speakerConfidence := mergedConfidence scores left right
    tokens := left.tokens ++ right.tokens
    content := [.text (left.text ++ right.text) []]
    time := some ⟨left.range.startMs, right.range.endMs⟩ }

theorem mergeSpeakerTurn_eq (hleft : left.Plain) (hright : right.Plain) :
    mergeSpeakerTurn scores left right = .ok (joined scores left right) := by
  obtain ⟨leftText, hleftText⟩ := hleft
  obtain ⟨rightText, hrightText⟩ := hright
  rw [mergeSpeakerTurn, joined, Segment.text, Segment.text, hleftText, hrightText]
  rfl

theorem Sound.plain (h : Sound rules segment) : segment.Plain := by
  obtain ⟨value, hvalue, -⟩ := h.spells
  exact ⟨value, hvalue⟩

theorem joined_joins (scores : Scores rules) (hleft : Written rules left) (hright : Written rules right)
    (hvoicedLeft : Voiced rules left) (hvoicedRight : Voiced rules right)
    (hmerge : canMergeSpeakerTurns left right = true) :
    Joins rules left right (joined scores left right) := by
  simp only [canMergeSpeakerTurns, Bool.and_eq_true, decide_eq_true_eq] at hmerge
  obtain ⟨⟨⟨⟨hsome, hspeaker⟩, hempty⟩, hbefore⟩, -⟩ := hmerge
  have hrange : left.range.startMs < right.range.endMs :=
    UInt64.lt_trans hleft.sound.range (UInt64.lt_of_le_of_lt hbefore hright.sound.range)
  refine ⟨⟨hleft.id, fun range hsame => Option.some.inj hsame ▸ hrange, ⟨hrange, ⟨?_, ?_⟩, ?_, ?_⟩⟩,
    ⟨⟨hvoicedLeft.own.label, mergedConfidence_unit hvoicedLeft hvoicedRight, fun hnone => ?_⟩,
      ?_, fun hne => ?_⟩, ⟨rfl, (isEmpty_append _ _ hempty).symm, rfl⟩, rfl, rfl, List.map_append⟩
  · refine List.forall_mem_append.mpr ⟨fun token htoken => ?_, fun token htoken => ?_⟩
    · obtain ⟨hstart, hlt, hend⟩ := hleft.sound.fit.each token htoken
      exact ⟨hstart, hlt, UInt64.le_trans hend (UInt64.le_trans hbefore
        (UInt64.le_of_lt hright.sound.range))⟩
    · obtain ⟨hstart, hlt, hend⟩ := hright.sound.fit.each token htoken
      exact ⟨UInt64.le_trans (UInt64.le_of_lt hleft.sound.range) (UInt64.le_trans hbefore hstart),
        hlt, hend⟩
  · refine List.pairwise_append.mpr ⟨hleft.sound.fit.ordered, hright.sound.fit.ordered,
      fun earlier hearlier later hlater => ?_⟩
    exact UInt64.le_trans (hleft.sound.fit.each earlier hearlier).2.2
      (UInt64.le_trans hbefore (hright.sound.fit.each later hlater).1)
  · exact List.forall_mem_append.mpr ⟨hleft.sound.texts, hright.sound.texts⟩
  · refine ⟨_, rfl, fun hne => ?_⟩
    -- Tokens stand for the text of both segments or of none.
    have hnonempty : left.tokens ≠ [] ∧ right.tokens ≠ [] := by
      rw [← List.isEmpty_eq_false_iff, ← List.isEmpty_eq_false_iff, ← hempty, and_self,
        ← isEmpty_append _ _ hempty]
      exact List.isEmpty_eq_false_iff.mpr hne
    rw [joined, List.flatMap_append, hleft.sound.text_eq hnonempty.1,
      hright.sound.text_eq hnonempty.2]
  · rw [Option.isSome_iff_ne_none] at hsome
    exact absurd hnone hsome
  · exact List.forall_mem_append.mpr ⟨hvoicedLeft.each, hvoicedRight.each⟩
  · refine List.forall_mem_append.mpr ⟨hvoicedLeft.same hne, fun token htoken => ?_⟩
    have hright := hvoicedRight.same (hspeaker ▸ hne) token htoken
    exact hright.trans hspeaker.symm

/-! ## All neighbours -/

/-- No segment can be joined to the one before it. -/
def Parted (segments : List Segment) : Prop :=
  segments.IsChain fun a b => canMergeSpeakerTurns a b = false

theorem script_cons : Script rules (segment :: segments) ↔ Written rules segment ∧
    (∀ next ∈ segments, Before segment.range next.range) ∧ Script rules segments := by
  constructor
  · intro h
    obtain ⟨hsegment, hrest⟩ := List.forall_mem_cons.mp h.written
    obtain ⟨hbefore, hordered⟩ := List.pairwise_cons.mp h.ordered
    exact ⟨hsegment, fun next hnext => hbefore _ (List.mem_map_of_mem hnext), hrest, hordered⟩
  · rintro ⟨hsegment, hbefore, hrest⟩
    exact ⟨List.forall_mem_cons.mpr ⟨hsegment, hrest.written⟩,
      List.pairwise_cons.mpr ⟨List.forall_mem_map.mpr hbefore, hrest.ordered⟩⟩

/-- From one segment on, the rest is behind it. -/
theorem Script.before_of {head : Segment} {tail : List Segment} (h : Script rules (head :: tail))
    {range : TimeRange} (hbefore : Before range head.range) :
    ∀ next ∈ head :: tail, Before range next.range := by
  obtain ⟨hhead, hall, -⟩ := script_cons.mp h
  refine List.forall_mem_cons.mpr ⟨hbefore, fun next hnext => ?_⟩
  exact UInt64.le_trans hbefore
    (UInt64.le_trans (UInt64.le_of_lt hhead.sound.range) (hall next hnext))

theorem mergeFrom_keeps (scores : Scores rules) {previous : Segment} (h : Script rules (previous :: segments))
    (hvoiced : ∀ segment ∈ previous :: segments, Voiced rules segment) :
    ∃ head tail, mergeFrom scores previous segments = .ok (head :: tail) ∧ Alike previous head ∧
      Keeps rules (previous :: segments) (head :: tail) ∧ Parted (head :: tail) := by
  induction segments generalizing previous with
  | nil => exact ⟨previous, [], rfl, .refl previous, ⟨h, hvoiced, rfl, rfl⟩, .singleton previous⟩
  | cons next segments ih =>
    obtain ⟨hprevious, hbefore, hrest⟩ := script_cons.mp h
    obtain ⟨hnext, hnextBefore, hlater⟩ := script_cons.mp hrest
    obtain ⟨hvoicedPrevious, hvoicedRest⟩ := List.forall_mem_cons.mp hvoiced
    obtain ⟨hvoicedNext, hvoicedLater⟩ := List.forall_mem_cons.mp hvoicedRest
    rw [mergeFrom]
    split
    · next hmerge =>
      have hjoins := joined_joins scores hprevious hnext hvoicedPrevious hvoicedNext hmerge
      obtain ⟨head, tail, hok, halike, hkeeps, hparted⟩ := ih
        (script_cons.mpr ⟨hjoins.written, fun later hmem => hnextBefore later hmem, hlater⟩)
        (List.forall_mem_cons.mpr ⟨hjoins.voiced, hvoicedLater⟩)
      refine ⟨head, tail, ?_, hjoins.alike.trans halike, ⟨hkeeps.script, hkeeps.voiced, ?_, ?_⟩,
        hparted⟩
      · rw [mergeSpeakerTurn_eq hprevious.sound.plain hnext.sound.plain]
        exact hok
      · rw [hkeeps.text, List.flatMap_cons, List.flatMap_cons, List.flatMap_cons, hjoins.text,
          List.append_assoc]
      · rw [hkeeps.words, List.flatMap_cons, List.flatMap_cons, List.flatMap_cons, hjoins.words,
          List.append_assoc]
    · next hmerge =>
      obtain ⟨head, tail, hok, halike, hkeeps, hparted⟩ := ih hrest hvoicedRest
      have hhead : Before previous.range head.range := by
        rw [Before, ← halike.start]
        exact hbefore next List.mem_cons_self
      refine ⟨previous, head :: tail, ?_, .refl previous, ⟨script_cons.mpr ⟨hprevious,
        hkeeps.script.before_of hhead, hkeeps.script⟩,
        List.forall_mem_cons.mpr ⟨hvoicedPrevious, hkeeps.voiced⟩, ?_, ?_⟩,
        List.IsChain.cons_cons ?_ hparted⟩
      · rw [hok]
        rfl
      · rw [List.flatMap_cons, hkeeps.text]
        exact List.flatMap_cons.symm
      · rw [List.flatMap_cons, hkeeps.words]
        exact List.flatMap_cons.symm
      · rw [← halike.canMerge]
        exact Bool.not_eq_true _ ▸ hmerge

theorem mergeAdjacentSpeakerTurns_keeps (scores : Scores rules) (h : Script rules segments)
    (hvoiced : ∀ segment ∈ segments, Voiced rules segment) :
    ∃ merged, mergeAdjacentSpeakerTurns scores segments = .ok merged ∧
      Keeps rules segments merged ∧ Parted merged := by
  cases segments with
  | nil => exact ⟨[], rfl, ⟨h, hvoiced, rfl, rfl⟩, .nil⟩
  | cons segment segments =>
    obtain ⟨head, tail, hok, -, hkeeps, hparted⟩ := mergeFrom_keeps scores h hvoiced
    exact ⟨head :: tail, hok, hkeeps, hparted⟩

/-! ## All passes -/

theorem bare_assignSpeakers (assign : Nat → Nat → Assignment) (segments : List Segment) :
    (assignSpeakers scores assign segments).map bare = segments.map bare :=
  List.ext_getElem (by simp [assignSpeakers]) fun index hindex hindex' => by
    simp [assignSpeakers, bare_assignSegment]

theorem bare_remapSpeakers (remap : List (Text × Text)) (segments : List Segment) :
    (remapSpeakers remap segments).map bare = segments.map bare := by
  unfold remapSpeakers
  split
  · rfl
  · rw [List.map_map]
    exact List.map_congr_left fun segment _ => bare_mapSpeaker _ segment

theorem voiced_remapSpeakers {remap : List (Text × Text)}
    (hremap : ∀ pair ∈ remap, badSpeaker pair.2 = false)
    (h : ∀ segment ∈ segments, Voiced rules segment) :
    ∀ segment ∈ remapSpeakers remap segments, Voiced rules segment := by
  unfold remapSpeakers
  split
  · exact h
  · exact List.forall_mem_map.mpr fun segment hsegment =>
      voiced_mapSpeaker (h segment hsegment) fun label => badSpeaker_target hremap

/-- The places where a label can stand. -/
def places (segments : List Segment) : Nat :=
  (segments.map fun segment => segment.tokens.length + 1).sum

theorem places_of_bare (heq : after.map bare = before.map bare) : places after = places before := by
  have hplaces (segments : List Segment) : places (segments.map bare) = places segments := by
    rw [places, List.map_map]
    refine congrArg List.sum (List.map_congr_left fun segment _ => ?_)
    rw [Function.comp, bare, List.length_map]
  rw [← hplaces, heq, hplaces]

theorem length_labels_le (segments : List Segment) :
    (segments.flatMap labels).length ≤ places segments := by
  induction segments with
  | nil => exact Nat.le_refl 0
  | cons segment segments ih =>
    have hlabels : (labels segment).length ≤ segment.tokens.length + 1 := by
      rw [labels, List.length_append]
      refine Nat.add_le_add (List.length_filterMap_le _ _) ?_
      cases segment.speaker <;> simp
    rw [List.flatMap_cons, List.length_append, places, List.map_cons, List.sum_cons]
    exact Nat.add_le_add hlabels ih

theorem bare_relabelled (remap : List (Text × Text)) (expected : Bool) (segments : List Segment) :
    (relabelled remap expected segments).map bare = segments.map bare := by
  unfold relabelled
  dsimp only
  split
  · exact bare_remapSpeakers remap segments
  · rw [compactSpeakerLabels, bare_remapSpeakers, bare_remapSpeakers]

theorem voiced_relabelled {remap : List (Text × Text)} (expected : Bool)
    (hremap : ∀ pair ∈ remap, badSpeaker pair.2 = false)
    (h : ∀ segment ∈ segments, Voiced rules segment) (hplaces : places segments < 2 ^ 64) :
    ∀ segment ∈ relabelled remap expected segments, Voiced rules segment := by
  have hmapped := voiced_remapSpeakers hremap h
  unfold relabelled
  dsimp only
  split
  · exact hmapped
  · refine voiced_remapSpeakers (fun pair => numbered_compactRemap.target_valid ?_) hmapped
    calc (compactRemap (remapSpeakers remap segments)).length
        ≤ ((remapSpeakers remap segments).flatMap labels).length := length_compactRemap
      _ ≤ places (remapSpeakers remap segments) := length_labels_le _
      _ = places segments := places_of_bare (bare_remapSpeakers remap segments)
      _ < 2 ^ 64 := hplaces
      _ < 10 ^ 40 := by decide

theorem repairUnassignedSpeech_keeps (scores : Scores rules) (h : Script rules segments)
    (hvoiced : ∀ segment ∈ segments, Voiced rules segment) :
    Keeps rules segments (repairUnassignedSpeech scores segments) := by
  refine keeps_of_bare h ?_ (List.forall_mem_map.mpr fun segment hsegment =>
    voiced_repairSegment (hvoiced segment hsegment) (onlySpeaker_valid hvoiced))
  rw [repairUnassignedSpeech, List.map_map]
  exact List.map_congr_left fun segment _ => bare_repairSegment _ segment

/-- **Diarization.** Whatever speakers the turns are assigned, the segments can be joined, their
text and tokens stay, each is valid, and no two neighbours could still be joined. -/
theorem diarize_keeps (scores : Scores rules) {assign : Nat → Nat → Assignment}
    {remap : List (Text × Text)} (expected : Bool) (h : Script rules segments)
    (hassign : ∀ index, AssignsSound rules (assign index))
    (hremap : ∀ pair ∈ remap, badSpeaker pair.2 = false) (hplaces : places segments < 2 ^ 64) :
    ∃ diarized, diarize scores assign remap expected segments = .ok diarized ∧
      Keeps rules segments diarized ∧ (∀ segment ∈ diarized, segment.Valid rules) ∧
        Parted diarized := by
  have hassigned : ∀ segment ∈ assignSpeakers scores assign segments, Voiced rules segment := by
    intro segment hsegment
    obtain ⟨index, hindex, rfl⟩ := List.mem_mapIdx.mp hsegment
    exact voiced_assignSegment (hassign index) (h.written _ (List.getElem_mem hindex)).sound
  have hbare : (relabelled remap expected (assignSpeakers scores assign segments)).map bare =
      segments.map bare := by rw [bare_relabelled, bare_assignSpeakers]
  have hvoiced := voiced_relabelled expected hremap hassigned
    (places_of_bare (bare_assignSpeakers assign segments) ▸ hplaces)
  have hrelabelled := keeps_of_bare h hbare hvoiced
  have hrepaired := repairUnassignedSpeech_keeps scores hrelabelled.script hvoiced
  have hsplit := splitTokenSpeakerTurns_keeps scores hrepaired.script hrepaired.voiced
  obtain ⟨diarized, hok, hmerged, hparted⟩ :=
    mergeAdjacentSpeakerTurns_keeps scores hsplit.script hsplit.voiced
  refine ⟨diarized, hok, ((hrelabelled.trans hrepaired).trans hsplit).trans hmerged, ?_, hparted⟩
  intro segment hsegment
  have hwritten := hmerged.script.written segment hsegment
  exact (valid_iff hwritten.sound.plain).mpr ⟨hwritten.id, hwritten.time, hwritten.sound,
    hmerged.voiced segment hsegment⟩

end

/-! ## The sample -/

theorem textSound_sampleToken {startMs endMs : UInt64} {text : Text} (hne : text ≠ [])
    (hshort : byteLength text ≤ 16 * 1024) (hnul : Char.ofNat 0 ∉ text) :
    TextSound halfRules (sampleToken startMs endMs text) :=
  ⟨hne, hshort, hnul, fun _ h => by cases h⟩

theorem script_sample : Script halfRules [sampleSegment] where
  written := by
    refine List.forall_mem_singleton.mpr ⟨by decide, fun _ h => (by cases h), by decide,
      ⟨by decide, by decide⟩, ?_, _, rfl, fun _ => rfl⟩
    exact List.forall_mem_cons.mpr ⟨textSound_sampleToken (by decide) (by decide) (by decide),
      List.forall_mem_singleton.mpr (textSound_sampleToken (by decide) (by decide) (by decide))⟩
  ordered := List.pairwise_singleton _ _

theorem diarize_keeps_hello : ∃ diarized,
    diarize halfScores (fun _ => sampleAssign) [] true [sampleSegment] = .ok diarized ∧
      diarized.flatMap Segment.text = "Hello there".toList := by
  obtain ⟨diarized, hok, hkeeps, -, -⟩ := diarize_keeps halfScores true script_sample
    (fun _ => sampleAssign_sound) (List.forall_mem_nil _) (by decide)
  exact ⟨diarized, hok, hkeeps.text⟩

end IntoMarkdown.Asr
