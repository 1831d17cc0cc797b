import IntoMarkdown.Asr.Turns

/-! # Valid segments

What validation asks of a timed segment, apart from the number of inlines of the whole document:
a part about the transcript, and a part about the speakers that the passes may change. -/

namespace IntoMarkdown.Asr
open Ir Lib Lib.Strings

/-- Limits that nothing exceeds. -/
def widest : ValidationLimits :=
  ⟨UInt64.ofNat (2 ^ 64 - 1), UInt64.ofNat (2 ^ 64 - 1), UInt64.ofNat (2 ^ 64 - 1),
    UInt64.ofNat (2 ^ 64 - 1), UInt64.ofNat (2 ^ 64 - 1)⟩

/-- A node that validation accepts wherever it stands. -/
structure Segment.Valid (rules : EvidenceRules) (segment : Segment) : Prop where
  id : trim segment.id ≠ []
  time : ∀ range ∈ segment.time, range.startMs < range.endMs
  block : ∀ path state, (validateTimedSegment widest rules segment.range segment.speaker
    segment.speakerConfidence segment.tokens segment.content path state).isOk = true

/-- The one plain text of a segment. -/
def Segment.Plain (segment : Segment) : Prop := ∃ value, segment.content = [.text value []]

structure TextSound (rules : EvidenceRules) (token : TimedToken) : Prop where
  nonempty : token.text ≠ []
  short : byteLength token.text ≤ 16 * 1024
  noNul : Char.ofNat 0 ∉ token.text
  confidence : ∀ value ∈ token.confidence, rules.unitInterval value = true

/-- A label that validation takes, with a confidence only where there is a label. -/
structure VoiceSound (rules : EvidenceRules) (speaker score : Option Text) : Prop where
  label : ∀ value ∈ speaker, badSpeaker value = false
  unit : ∀ value ∈ score, rules.unitInterval value = true
  absent : speaker = none → score = none

/-- The transcript of a segment. -/
structure Sound (rules : EvidenceRules) (segment : Segment) : Prop where
  range : segment.range.startMs < segment.range.endMs
  fit : TokensFit segment.range segment.tokens
  texts : ∀ token ∈ segment.tokens, TextSound rules token
  spells : ∃ value, segment.content = [.text value []] ∧
    (segment.tokens ≠ [] → segment.tokens.flatMap TimedToken.text = value)

/-- The speakers of a segment. -/
structure Voiced (rules : EvidenceRules) (segment : Segment) : Prop where
  own : VoiceSound rules segment.speaker segment.speakerConfidence
  each : ∀ token ∈ segment.tokens, VoiceSound rules token.speaker token.speakerConfidence
  same : segment.speaker ≠ none → ∀ token ∈ segment.tokens, token.speaker = segment.speaker

section
variable {rules : EvidenceRules}

theorem voiceSound_none : VoiceSound rules none none :=
  ⟨fun _ h => (by cases h), fun _ h => (by cases h), fun _ => rfl⟩

theorem voiceSound_some {label score : Text} (hlabel : badSpeaker label = false)
    (hscore : rules.unitInterval score = true) : VoiceSound rules (some label) (some score) :=
  ⟨fun _ h => Option.some.inj h ▸ hlabel, fun _ h => Option.some.inj h ▸ hscore,
    fun h => by cases h⟩

/-! ## Tokens -/

theorem badToken_iff {range : TimeRange} {previousEnd : UInt64} {token : TimedToken} :
    badToken rules range previousEnd token = false ↔
      (range.startMs ≤ token.range.startMs ∧ token.range.startMs < token.range.endMs ∧
        token.range.endMs ≤ range.endMs) ∧ previousEnd ≤ token.range.startMs ∧
      TextSound rules token ∧ VoiceSound rules token.speaker token.speakerConfidence := by
  have htext : TextSound rules token ↔ token.text ≠ [] ∧ byteLength token.text ≤ 16 * 1024 ∧
      Char.ofNat 0 ∉ token.text ∧ ∀ value ∈ token.confidence, rules.unitInterval value = true :=
    ⟨fun h => ⟨h.1, h.2, h.3, h.4⟩, fun h => ⟨h.1, h.2.1, h.2.2.1, h.2.2.2⟩⟩
  have hvoice : VoiceSound rules token.speaker token.speakerConfidence ↔
      (∀ value ∈ token.speaker, badSpeaker value = false) ∧
      (∀ value ∈ token.speakerConfidence, rules.unitInterval value = true) ∧
      (token.speaker = none → token.speakerConfidence = none) :=
    ⟨fun h => ⟨h.1, h.2, h.3⟩, fun h => ⟨h.1, h.2.1, h.2.2⟩⟩
  have hany : ∀ (p : Text → Bool) (value : Option Text),
      value.any (fun v => !p v) = false ↔ ∀ v ∈ value, p v = true := by
    intro p value
    cases value <;> simp
  have hspeaker : ∀ value : Option Text,
      value.any badSpeaker = false ↔ ∀ v ∈ value, badSpeaker v = false := by
    intro value
    cases value <;> simp
  have habsent : (token.speaker.isNone && token.speakerConfidence.isSome) = false ↔
      (token.speaker = none → token.speakerConfidence = none) := by
    cases token.speaker <;> cases token.speakerConfidence <;> simp
  rw [htext, hvoice, badToken]
  simp only [Bool.or_eq_false_iff, hany, hspeaker, habsent, decide_eq_false_iff_not,
    UInt64.not_lt, UInt64.not_le, Nat.not_lt, List.isEmpty_eq_false_iff, ne_eq]
  rw [List.contains_eq_mem, decide_eq_false_iff_not]
  tauto

theorem validateTokens_ok_iff {range : TimeRange} {path : String} {index : Nat}
    {previousEnd : UInt64} {tokens : List TimedToken} :
    validateTokens rules range path index previousEnd tokens = .ok () ↔
      TokensFit range tokens ∧ (∀ token ∈ tokens, previousEnd ≤ token.range.startMs) ∧
      (∀ token ∈ tokens, TextSound rules token) ∧
      ∀ token ∈ tokens, VoiceSound rules token.speaker token.speakerConfidence := by
  induction tokens generalizing index previousEnd with
  | nil =>
    exact iff_of_true rfl ⟨⟨List.forall_mem_nil _, .nil⟩, List.forall_mem_nil _,
      List.forall_mem_nil _, List.forall_mem_nil _⟩
  | cons token tokens ih =>
    rw [validateTokens, refuse_bind_ok, Bool.not_eq_true, badToken_iff, ih]
    constructor
    · rintro ⟨⟨hrange, hprevious, htext, hvoice⟩, hfit, hbehind, htexts, hvoices⟩
      refine ⟨⟨List.forall_mem_cons.mpr ⟨hrange, hfit.each⟩, .cons hbehind hfit.ordered⟩,
        List.forall_mem_cons.mpr ⟨hprevious, fun later hlater => ?_⟩,
        List.forall_mem_cons.mpr ⟨htext, htexts⟩, List.forall_mem_cons.mpr ⟨hvoice, hvoices⟩⟩
      exact UInt64.le_trans hprevious
        (UInt64.le_trans (UInt64.le_of_lt hrange.2.1) (hbehind later hlater))
    · rintro ⟨hfit, hprevious, htexts, hvoices⟩
      obtain ⟨hrange, heach⟩ := List.forall_mem_cons.mp hfit.each
      obtain ⟨hbehind, hordered⟩ := List.pairwise_cons.mp hfit.ordered
      exact ⟨⟨hrange, (List.forall_mem_cons.mp hprevious).1, (List.forall_mem_cons.mp htexts).1,
        (List.forall_mem_cons.mp hvoices).1⟩, ⟨heach, hordered⟩, hbehind,
        (List.forall_mem_cons.mp htexts).2, (List.forall_mem_cons.mp hvoices).2⟩

/-! ## Segments -/

theorem consumeInlines_widest {path : String} {count : Nat} {state : ValidationState} :
    consumeInlines widest path count state =
      .ok { state with inlineCount := saturatingAdd state.inlineCount count } := by
  have hwidest : widest.maxInlines.toNat = 2 ^ 64 - 1 :=
    UInt64.toNat_ofNat_of_lt' (Nat.sub_lt (Nat.two_pow_pos 64) Nat.one_pos)
  rw [consumeInlines, refuse_bind_ok, hwidest]
  exact ⟨Nat.not_lt.mpr (Nat.min_le_right _ _), rfl⟩

theorem validateInlines_plain {value : Text} {path : String} {state : ValidationState} :
    (validateInlines widest rules [.text value []] path state).isOk = true := by
  rw [validateInlines, validateInlinesFrom, consumeInlines_widest]
  rfl

theorem validateTokenText_ok_iff {speaker : Option Text} {tokens : List TimedToken} {value : Text}
    {path : String} : validateTokenText speaker tokens [.text value []] path = .ok () ↔
      (tokens ≠ [] → tokens.flatMap TimedToken.text = value) ∧
        (speaker ≠ none → ∀ token ∈ tokens, token.speaker = speaker) := by
  cases tokens with
  | nil => exact iff_of_true rfl ⟨fun h => absurd rfl h, fun _ => List.forall_mem_nil _⟩
  | cons token tokens =>
    rw [validateTokenText, refuse_bind_ok]
    · have hsame : refuse (speaker.any fun speaker => (token :: tokens).any fun token =>
          token.speaker ≠ some speaker) (invalidNode s!"{path}.data.speaker"
            "segment speaker must match all token speaker evidence") = .ok () ↔
          (speaker ≠ none → ∀ token' ∈ token :: tokens, token'.speaker = speaker) := by
        rw [refuse]
        cases speaker with
        | none => simp
        | some label =>
          rw [Option.any_some]
          split
          · next hany =>
            obtain ⟨other, hother, hne⟩ := List.any_eq_true.mp hany
            refine iff_of_false (fun h => by cases h) fun h => ?_
            exact (of_decide_eq_true hne) (h (Option.some_ne_none label) other hother)
          · next hall =>
            refine iff_of_true rfl fun _ other hother => ?_
            by_contra hne
            exact hall (List.any_eq_true.mpr ⟨other, hother, decide_eq_true hne⟩)
      rw [hsame]
      simp
    · exact fun h => by cases h

/-- Validation of a segment of one plain text. -/
theorem timedSegment_ok_iff {segment : Segment} (hplain : segment.Plain) {path : String}
    {state : ValidationState} :
    (validateTimedSegment widest rules segment.range segment.speaker segment.speakerConfidence
      segment.tokens segment.content path state).isOk = true ↔
      Sound rules segment ∧ Voiced rules segment := by
  obtain ⟨value, hvalue⟩ := hplain
  have hspeaker : ¬ segment.speaker.any badSpeaker = true ↔
      ∀ label ∈ segment.speaker, badSpeaker label = false := by
    cases segment.speaker <;> simp
  have hscore : ¬ (segment.speakerConfidence.any (fun score => !rules.unitInterval score) = true ∨
      (segment.speaker.isNone ∧ segment.speakerConfidence.isSome)) ↔
      (∀ score ∈ segment.speakerConfidence, rules.unitInterval score = true) ∧
        (segment.speaker = none → segment.speakerConfidence = none) := by
    cases segment.speaker <;> cases segment.speakerConfidence <;> simp
  rw [isOk_iff, hvalue]
  constructor
  · rintro ⟨state', h⟩
    obtain ⟨hrange, h⟩ := refuse_bind_ok.mp h
    obtain ⟨hown, h⟩ := refuse_bind_ok.mp h
    obtain ⟨hownScore, h⟩ := refuse_bind_ok.mp h
    obtain ⟨counted, -, h⟩ := ok_bind h
    obtain ⟨_, htokens, h⟩ := ok_bind h
    obtain ⟨_, htext, -⟩ := ok_bind h
    obtain ⟨hfit, -, htexts, hvoices⟩ := validateTokens_ok_iff.mp htokens
    obtain ⟨hspells, hsame⟩ := validateTokenText_ok_iff.mp htext
    obtain ⟨hunit, habsent⟩ := hscore.mp hownScore
    exact ⟨⟨UInt64.not_le.mp hrange, hfit, htexts, value, hvalue, hspells⟩,
      ⟨⟨hspeaker.mp hown, hunit, habsent⟩, hvoices, hsame⟩⟩
  · rintro ⟨hsound, hvoiced⟩
    obtain ⟨value', hvalue', hspells⟩ := hsound.spells
    obtain rfl : value' = value := by
      rw [hvalue] at hvalue'
      cases hvalue'
      rfl
    obtain ⟨state', hinlines⟩ := isOk_iff.mp (@validateInlines_plain rules _ _ _)
    refine ⟨state', refuse_bind_ok.mpr ⟨UInt64.not_le.mpr hsound.range,
      refuse_bind_ok.mpr ⟨hspeaker.mpr hvoiced.own.label,
        refuse_bind_ok.mpr ⟨hscore.mpr ⟨hvoiced.own.unit, hvoiced.own.absent⟩,
          bind_ok_iff.mpr ⟨_, consumeInlines_widest, bind_ok_iff.mpr ⟨(),
            validateTokens_ok_iff.mpr ⟨hsound.fit, fun token htoken =>
              (hsound.fit.each token htoken).1, hsound.texts, hvoiced.each⟩,
            bind_ok_iff.mpr ⟨(), validateTokenText_ok_iff.mpr ⟨hspells, hvoiced.same⟩,
              hinlines⟩⟩⟩⟩⟩⟩⟩

theorem valid_iff {segment : Segment} (hplain : segment.Plain) : segment.Valid rules ↔
    trim segment.id ≠ [] ∧ (∀ range ∈ segment.time, range.startMs < range.endMs) ∧
      Sound rules segment ∧ Voiced rules segment := by
  constructor
  · intro h
    exact ⟨h.id, h.time, (timedSegment_ok_iff hplain).mp (h.block "$" .new)⟩
  · rintro ⟨hid, htime, hboth⟩
    exact ⟨hid, htime, fun path state => (timedSegment_ok_iff hplain).mpr hboth⟩

/-! ## Transcripts without speakers -/

/-- A token without its speaker. -/
def bareToken (token : TimedToken) : TimedToken :=
  { token with speaker := none, speakerConfidence := none }

/-- A segment without speakers. -/
def bare (segment : Segment) : Segment :=
  { segment with
    speaker := none
    speakerConfidence := none
    tokens := segment.tokens.map bareToken }

theorem tokensFit_bare {range : TimeRange} {tokens : List TimedToken} :
    TokensFit range (tokens.map bareToken) ↔ TokensFit range tokens := by
  constructor
  · intro h
    exact ⟨fun token htoken => h.each (bareToken token) (List.mem_map_of_mem htoken),
      List.pairwise_map.mp h.ordered⟩
  · intro h
    exact ⟨List.forall_mem_map.mpr h.each, List.pairwise_map.mpr h.ordered⟩

theorem textSound_bare {token : TimedToken} :
    TextSound rules (bareToken token) ↔ TextSound rules token :=
  ⟨fun h => ⟨h.1, h.2, h.3, h.4⟩, fun h => ⟨h.1, h.2, h.3, h.4⟩⟩

theorem flatMap_text_bare (tokens : List TimedToken) :
    (tokens.map bareToken).flatMap TimedToken.text = tokens.flatMap TimedToken.text := by
  rw [List.flatMap_map]
  rfl

theorem sound_bare {segment : Segment} : Sound rules (bare segment) ↔ Sound rules segment := by
  constructor
  · intro h
    obtain ⟨value, hvalue, hspells⟩ := h.spells
    refine ⟨h.range, tokensFit_bare.mp h.fit, fun token htoken =>
      textSound_bare.mp (h.texts _ (List.mem_map_of_mem htoken)), value, hvalue, fun hne => ?_⟩
    rw [← flatMap_text_bare]
    exact hspells (mt List.map_eq_nil_iff.mp hne)
  · intro h
    obtain ⟨value, hvalue, hspells⟩ := h.spells
    refine ⟨h.range, tokensFit_bare.mpr h.fit, List.forall_mem_map.mpr fun token htoken =>
      textSound_bare.mpr (h.texts token htoken), value, hvalue, fun hne => ?_⟩
    rw [bare, flatMap_text_bare]
    exact hspells (mt List.map_eq_nil_iff.mpr hne)

/-- Segments of one transcript are sound together. -/
theorem Sound.of_bare {segment other : Segment} (h : Sound rules segment)
    (hbare : bare other = bare segment) : Sound rules other :=
  sound_bare.mp (hbare ▸ sound_bare.mpr h)

end

end IntoMarkdown.Asr
