import IntoMarkdown.Asr.Voices
import IntoMarkdown.Render.Paragraph

/-! # Splitting

A segment is cut where the speaker changes. Its pieces are in order, and have its text and tokens
together. -/

namespace IntoMarkdown.Asr
open Ir Lib Lib.Strings

/-! ## Transcripts -/

def Segment.text (segment : Segment) : Text :=
  match segment.content with
  | [.text value _] => value
  | _ => []

/-- The tokens of a segment without their speakers. -/
def Segment.words (segment : Segment) : List TimedToken := segment.tokens.map bareToken

def Before (a b : TimeRange) : Prop := a.endMs ≤ b.startMs

/-- What validation asks of a node, its speakers apart. -/
structure Written (rules : EvidenceRules) (segment : Segment) : Prop where
  id : trim segment.id ≠ []
  time : ∀ range ∈ segment.time, range.startMs < range.endMs
  sound : Sound rules segment

/-- Segments in the order of their times. -/
structure Script (rules : EvidenceRules) (segments : List Segment) : Prop where
  written : ∀ segment ∈ segments, Written rules segment
  ordered : (segments.map Segment.range).Pairwise Before

section
variable {rules : EvidenceRules} {scores : Scores rules} {segment : Segment}
  {segments segments' : List Segment}

theorem written_bare : Written rules (bare segment) ↔ Written rules segment :=
  ⟨fun h => ⟨h.id, h.time, sound_bare.mp h.sound⟩, fun h => ⟨h.id, h.time, sound_bare.mpr h.sound⟩⟩

theorem script_map_bare : Script rules (segments.map bare) ↔ Script rules segments := by
  have hranges : (segments.map bare).map Segment.range = segments.map Segment.range := by
    rw [List.map_map]
    rfl
  constructor
  · intro h
    exact ⟨fun segment hsegment => written_bare.mp (h.written _ (List.mem_map_of_mem hsegment)),
      hranges ▸ h.ordered⟩
  · intro h
    exact ⟨List.forall_mem_map.mpr fun segment hsegment =>
      written_bare.mpr (h.written segment hsegment), hranges ▸ h.ordered⟩

theorem Script.of_bare (h : Script rules segments) (heq : segments'.map bare = segments.map bare) :
    Script rules segments' := script_map_bare.mp (heq ▸ script_map_bare.mpr h)

theorem flatMap_text_bare_eq (heq : segments'.map bare = segments.map bare) :
    segments'.flatMap Segment.text = segments.flatMap Segment.text := by
  have htext (segments : List Segment) :
      (segments.map bare).flatMap Segment.text = segments.flatMap Segment.text := by
    rw [List.flatMap_map]
    rfl
  rw [← htext, heq, htext]

theorem flatMap_words_bare_eq (heq : segments'.map bare = segments.map bare) :
    segments'.flatMap Segment.words = segments.flatMap Segment.words := by
  have hwords (segments : List Segment) :
      (segments.map bare).flatMap Segment.words = segments.flatMap Segment.words := by
    rw [List.flatMap_map]
    refine List.flatMap_congr fun segment _ => ?_
    rw [Segment.words, Segment.words, bare, List.map_map]
    rfl
  rw [← hwords, heq, hwords]

theorem Sound.text_eq (h : Sound rules segment) (hne : segment.tokens ≠ []) :
    segment.text = segment.tokens.flatMap TimedToken.text := by
  obtain ⟨value, hvalue, hspells⟩ := h.spells
  rw [Segment.text, hvalue, hspells hne]

/-! ## Groups -/

/-- A group of consecutive tokens of one speaker. -/
structure TokenSpeakerGroup.Ok (group : TokenSpeakerGroup) : Prop where
  nonempty : group.tokens ≠ []
  speaker : ∀ token ∈ group.tokens, token.speaker = group.speaker
  confidences : group.confidences = group.tokens.filterMap TimedToken.speakerConfidence
  text : group.text = group.tokens.flatMap TimedToken.text

theorem filterMap_singleton (token : TimedToken) :
    [token].filterMap TimedToken.speakerConfidence = token.speakerConfidence.toList := by
  rw [List.filterMap_cons]
  cases token.speakerConfidence <;> rfl

theorem ok_new (token : TimedToken) : (TokenSpeakerGroup.new token).Ok where
  nonempty := List.cons_ne_nil _ _
  speaker := List.forall_mem_singleton.mpr rfl
  confidences := (filterMap_singleton token).symm
  text := (List.append_nil _).symm

theorem TokenSpeakerGroup.Ok.push {group : TokenSpeakerGroup} (h : group.Ok) {token : TimedToken}
    (hspeaker : group.speaker = token.speaker) : (group.push token).Ok where
  nonempty := List.append_ne_nil_of_left_ne_nil h.nonempty _
  speaker := List.forall_mem_append.mpr ⟨h.speaker, List.forall_mem_singleton.mpr hspeaker.symm⟩
  confidences := by
    rw [TokenSpeakerGroup.push]
    dsimp only
    rw [List.filterMap_append, ← h.confidences, filterMap_singleton]
  text := by
    rw [TokenSpeakerGroup.push]
    dsimp only
    rw [List.flatMap_append, ← h.text, List.flatMap_singleton]

theorem groupsFrom_ok {group : TokenSpeakerGroup} (h : group.Ok) (tokens : List TimedToken) :
    (∀ group' ∈ groupsFrom group tokens, group'.Ok) ∧
      (groupsFrom group tokens).flatMap TokenSpeakerGroup.tokens = group.tokens ++ tokens := by
  induction tokens generalizing group with
  | nil =>
    exact ⟨List.forall_mem_singleton.mpr h, by rw [groupsFrom, List.flatMap_singleton,
      List.append_nil]⟩
  | cons token tokens ih =>
    rw [groupsFrom]
    split
    · next hspeaker =>
      obtain ⟨hall, hflat⟩ := ih (h.push hspeaker)
      refine ⟨hall, ?_⟩
      rw [hflat, TokenSpeakerGroup.push, List.append_assoc]
      rfl
    · obtain ⟨hall, hflat⟩ := ih (ok_new token)
      refine ⟨List.forall_mem_cons.mpr ⟨h, hall⟩, ?_⟩
      rw [List.flatMap_cons, hflat]
      rfl

theorem speakerGroups_ok (tokens : List TimedToken) :
    (∀ group ∈ speakerGroups tokens, group.Ok) ∧
      (speakerGroups tokens).flatMap TokenSpeakerGroup.tokens = tokens := by
  cases tokens with
  | nil => exact ⟨List.forall_mem_nil _, rfl⟩
  | cons token tokens => exact groupsFrom_ok (ok_new token) tokens

/-! ## Pieces -/

/-- The time of a group. -/
def TokenSpeakerGroup.range (group : TokenSpeakerGroup) (fallback : TimeRange) : TimeRange :=
  ⟨group.tokens.head?.elim fallback.startMs fun token => token.range.startMs,
    group.tokens.getLast?.elim fallback.endMs fun token => token.range.endMs⟩

theorem range_turnSegment (split : Bool) (index : Nat) (group : TokenSpeakerGroup) :
    (turnSegment scores segment split index group).range = group.range segment.range := rfl

/-- Tokens of a segment that are consecutive have a time of their own. -/
theorem TokensFit.group {range : TimeRange} {tokens : List TimedToken} (h : TokensFit range tokens)
    {group : TokenSpeakerGroup} (hsub : group.tokens.Sublist tokens) (hne : group.tokens ≠ []) :
    (group.range range).startMs < (group.range range).endMs ∧
      TokensFit (group.range range) group.tokens := by
  have hordered := h.ordered.sublist hsub
  obtain ⟨first, rest, htokens⟩ := List.exists_cons_of_ne_nil hne
  have heach (token : TimedToken) (htoken : token ∈ group.tokens) :
      token.range.startMs < token.range.endMs := (h.each token (hsub.subset htoken)).2.1
  have hstart (token : TimedToken) (htoken : token ∈ group.tokens) :
      (group.range range).startMs ≤ token.range.startMs := by
    have hfirst : first ∈ group.tokens := htokens ▸ List.mem_cons_self
    rw [TokenSpeakerGroup.range, htokens]
    rw [htokens] at htoken hordered
    rcases List.mem_cons.mp htoken with rfl | htoken
    · exact UInt64.le_refl _
    · exact UInt64.le_trans (UInt64.le_of_lt (heach first hfirst))
        ((List.pairwise_cons.mp hordered).1 token htoken)
  obtain ⟨before, last, hlast⟩ := (List.eq_nil_or_concat group.tokens).resolve_left hne
  rw [List.concat_eq_append] at hlast
  have hend (token : TimedToken) (htoken : token ∈ group.tokens) :
      token.range.endMs ≤ (group.range range).endMs := by
    have hmem : last ∈ group.tokens := hlast ▸ List.mem_append_right _ List.mem_cons_self
    rw [TokenSpeakerGroup.range, hlast, List.getLast?_concat]
    rw [hlast] at htoken hordered
    rcases List.mem_append.mp htoken with htoken | htoken
    · exact UInt64.le_trans ((List.pairwise_append.mp hordered).2.2 token htoken last
        List.mem_cons_self) (UInt64.le_of_lt (heach last hmem))
    · obtain rfl := List.mem_singleton.mp htoken
      exact UInt64.le_refl _
  have hfirst : first ∈ group.tokens := htokens ▸ List.mem_cons_self
  refine ⟨UInt64.lt_of_le_of_lt (hstart first hfirst)
    (UInt64.lt_of_lt_of_le (heach first hfirst) (hend first hfirst)), fun token htoken =>
    ⟨hstart token htoken, heach token htoken, hend token htoken⟩, hordered⟩

theorem exists_first {group : TokenSpeakerGroup} (hne : group.tokens ≠ []) (fallback : TimeRange) :
    ∃ token ∈ group.tokens, (group.range fallback).startMs = token.range.startMs := by
  obtain ⟨first, rest, htokens⟩ := List.exists_cons_of_ne_nil hne
  exact ⟨first, htokens ▸ List.mem_cons_self, by rw [TokenSpeakerGroup.range, htokens]; rfl⟩

theorem exists_last {group : TokenSpeakerGroup} (hne : group.tokens ≠ []) (fallback : TimeRange) :
    ∃ token ∈ group.tokens, (group.range fallback).endMs = token.range.endMs := by
  refine ⟨group.tokens.getLast hne, List.getLast_mem hne, ?_⟩
  rw [TokenSpeakerGroup.range, List.getLast?_eq_getLast_of_ne_nil hne]
  rfl

theorem sublist_of_flatMap {groups : List TokenSpeakerGroup} {group : TokenSpeakerGroup}
    (h : group ∈ groups) : group.tokens.Sublist (groups.flatMap TokenSpeakerGroup.tokens) := by
  obtain ⟨before, after, rfl⟩ := List.append_of_mem h
  rw [List.flatMap_append, List.flatMap_cons]
  exact (List.sublist_append_left _ _).trans (List.sublist_append_right _ _)

/-- What a segment is cut into. -/
structure Pieces (rules : EvidenceRules) (segment : Segment) (pieces : List Segment) : Prop where
  written : ∀ piece ∈ pieces, Written rules piece ∧ Voiced rules piece
  ordered : (pieces.map Segment.range).Pairwise Before
  inside : ∀ piece ∈ pieces, segment.range.startMs ≤ piece.range.startMs ∧
    piece.range.endMs ≤ segment.range.endMs
  text : pieces.flatMap Segment.text = segment.text
  words : pieces.flatMap Segment.words = segment.words

theorem pieces_self (h : Written rules segment) (hvoiced : Voiced rules segment) :
    Pieces rules segment [segment] where
  written := List.forall_mem_singleton.mpr ⟨h, hvoiced⟩
  ordered := List.pairwise_singleton _ _
  inside := List.forall_mem_singleton.mpr ⟨UInt64.le_refl _, UInt64.le_refl _⟩
  text := List.flatMap_singleton _ _
  words := List.flatMap_singleton _ _

theorem trim_turnId (id : Text) (number : Nat) : trim (turnId id number) ≠ [] :=
  Render.trim_ne_nil_iff.mpr ⟨'t', List.mem_append_left _ (List.mem_append_right _ (by decide)),
    by decide⟩

/-- The number of a piece is in its name only. -/
theorem map_turnSegment {γ : Type} {f : Segment → γ} {h : TokenSpeakerGroup → γ} {split : Bool}
    (heq : ∀ index group, f (turnSegment scores segment split index group) = h group)
    (groups : List TokenSpeakerGroup) :
    (groups.mapIdx (turnSegment scores segment split)).map f = groups.map h :=
  List.ext_getElem (by simp) fun index hindex hindex' => by simp [heq]

theorem turnSegment_ok (h : Written rules segment) (hvoiced : Voiced rules segment)
    {group : TokenSpeakerGroup} (hok : group.Ok) (hsub : group.tokens.Sublist segment.tokens)
    (split : Bool) (index : Nat) :
    Written rules (turnSegment scores segment split index group) ∧
      Voiced rules (turnSegment scores segment split index group) := by
  obtain ⟨hrange, hfit⟩ := h.sound.fit.group hsub hok.nonempty
  have heach (token : TimedToken) (htoken : token ∈ group.tokens) : TokenVoiced rules token :=
    hvoiced.each token (hsub.subset htoken)
  have hunit : ∀ score ∈ group.confidences, rules.unitInterval score = true := by
    rw [hok.confidences]
    exact confidences_unit heach
  obtain ⟨first, hfirst⟩ := List.exists_mem_of_ne_nil group.tokens hok.nonempty
  refine ⟨⟨?_, fun range hrange' => ?_, hrange, hfit, fun token htoken =>
    h.sound.texts token (hsub.subset htoken), group.text, rfl, fun _ => hok.text.symm⟩,
    ⟨fun label hlabel => ?_, meanConfidence_unit hunit, fun hnone => ?_⟩, heach,
    fun _ => hok.speaker⟩
  · rw [turnSegment]
    dsimp only
    split
    · exact trim_turnId _ _
    · exact h.id
  · obtain rfl := Option.some.inj hrange'
    exact hrange
  · exact (heach first hfirst).label label ((hok.speaker first hfirst).trans hlabel)
  · have hconfidences : group.confidences = [] := by
      rw [hok.confidences, List.filterMap_eq_nil_iff]
      exact fun token htoken => (heach token htoken).absent ((hok.speaker token htoken).trans hnone)
    rw [turnSegment, hconfidences]
    rfl

theorem splitSegment_pieces (h : Written rules segment) (hvoiced : Voiced rules segment) :
    Pieces rules segment (splitSegment scores segment) := by
  unfold splitSegment
  split
  · exact pieces_self h hvoiced
  · next hne =>
    have hnonempty : segment.tokens ≠ [] := fun hnil => hne (List.isEmpty_iff.mpr hnil)
    obtain ⟨hok, hflat⟩ := speakerGroups_ok segment.tokens
    have hsub (group : TokenSpeakerGroup) (hgroup : group ∈ speakerGroups segment.tokens) :
        group.tokens.Sublist segment.tokens := by
      have := sublist_of_flatMap hgroup
      rwa [hflat] at this
    dsimp only
    generalize speakerGroups segment.tokens = groups at hok hflat hsub
    refine ⟨fun piece hpiece => ?_, ?_, fun piece hpiece => ?_, ?_, ?_⟩
    · obtain ⟨index, hindex, rfl⟩ := List.mem_mapIdx.mp hpiece
      have hgroup := List.getElem_mem hindex
      exact turnSegment_ok h hvoiced (hok _ hgroup) (hsub _ hgroup) _ _
    · rw [map_turnSegment (h := fun group => group.range segment.range) fun _ _ => rfl,
        List.pairwise_map]
      have hordered := h.sound.fit.ordered
      rw [← hflat, List.pairwise_flatMap] at hordered
      refine hordered.2.imp_of_mem fun {left right} hleft hright hpairs => ?_
      obtain ⟨last, hlast, hend⟩ := exists_last (hok left hleft).nonempty segment.range
      obtain ⟨first, hfirst, hstart⟩ := exists_first (hok right hright).nonempty segment.range
      rw [Before, hend, hstart]
      exact hpairs last hlast first hfirst
    · obtain ⟨index, hindex, rfl⟩ := List.mem_mapIdx.mp hpiece
      have hgroup := List.getElem_mem hindex
      obtain ⟨last, hlast, hend⟩ := exists_last (hok _ hgroup).nonempty segment.range
      obtain ⟨first, hfirst, hstart⟩ := exists_first (hok _ hgroup).nonempty segment.range
      rw [range_turnSegment, hend, hstart]
      exact ⟨(h.sound.fit.each first ((hsub _ hgroup).subset hfirst)).1,
        (h.sound.fit.each last ((hsub _ hgroup).subset hlast)).2.2⟩
    · rw [List.flatMap_def, map_turnSegment (h := TokenSpeakerGroup.text) fun _ _ => rfl,
        h.sound.text_eq hnonempty, ← List.flatMap_def,
        List.flatMap_congr fun group hgroup => (hok group hgroup).text, ← List.flatMap_assoc, hflat]
    · rw [List.flatMap_def, map_turnSegment (h := fun group => group.tokens.map bareToken)
        fun _ _ => rfl, ← List.flatMap_def, ← List.map_flatMap, hflat, Segment.words]

end

end IntoMarkdown.Asr
