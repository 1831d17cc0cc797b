import IntoMarkdown.Ir.Validate
import IntoMarkdown.Render.Text
import Mathlib

/-! # Speaker turns of a transcript

The nodes are timed segments. Assignments of speakers come turn by turn; five passes then
relabel, repair, split and merge. Confidences are numbers in floating point, kept as they are
written: the arithmetic on them is given. -/

namespace IntoMarkdown.Asr
open Ir Lib Lib.Strings

def turnWindowMs : Nat := 3000

def sameSpeakerMergeGapMs : Nat := 1500

inductive ConversionError where
  | ai (provider : String) (detail : String)
  deriving DecidableEq, Repr

def providerId : String := "builtin.diarization.silero-3dspeaker"

/-- A node whose block is a timed segment, with the time of its locator. -/
structure Segment where
  id : Text
  range : TimeRange
  speaker : Option Text
  speakerConfidence : Option Text
  tokens : List TimedToken
  content : List Inline
  provenance : Provenance
  time : Option TimeRange

/-- The arithmetic on confidences: the one of a repaired gap, the mean of some, and the mean of
two by weight. What it is given in `0.0..=1.0` it keeps there. -/
structure Scores (rules : EvidenceRules) where
  zero : Text
  halfOfLeast : Text → Text → Text
  mean : List Text → Text
  weighted : Text → Nat → Text → Nat → Text
  zero_unit : rules.unitInterval zero = true
  halfOfLeast_unit : ∀ left right, rules.unitInterval left = true →
    rules.unitInterval right = true → rules.unitInterval (halfOfLeast left right) = true
  mean_unit : ∀ scores, scores ≠ [] → (∀ score ∈ scores, rules.unitInterval score = true) →
    rules.unitInterval (mean scores) = true
  weighted_unit : ∀ left leftWeight right rightWeight, 0 < leftWeight → 0 < rightWeight →
    rules.unitInterval left = true → rules.unitInterval right = true →
    rules.unitInterval (weighted left leftWeight right rightWeight) = true

/-! ## Turns -/

structure TokenTurn where
  start : Nat
  stop : Nat
  range : TimeRange
  deriving DecidableEq, Repr

def saturatingMul (a b : Nat) : Nat := min (a * b) (2 ^ 64 - 1)

def startMs (tokens : List TimedToken) (index : Nat) : UInt64 :=
  (tokens[index]?).elim 0 fun token => token.range.startMs

def endMs (tokens : List TimedToken) (index : Nat) : UInt64 :=
  (tokens[index]?).elim 0 fun token => token.range.endMs

def absDiff (a b : Nat) : Nat := (a - b) + (b - a)

/-- Where the turn that starts at a token ends, with so many turns behind it: at the token that
ends closest to an even share of the time. -/
def turnEnd (tokens : List TimedToken) (firstStart duration groupCount start behind : Nat) :
    Nat :=
  if behind = 0 then tokens.length
  else
    let boundary := groupCount - behind
    let ideal := saturatingAdd firstStart (saturatingMul duration boundary / groupCount)
    let latest := tokens.length - behind
    ((List.range' (start + 1) (latest - start)).argmin fun candidate =>
      absDiff (endMs tokens (candidate - 1)).toNat ideal).getD (start + 1)

def turnsFrom (tokens : List TimedToken) (fallback : TimeRange)
    (firstStart duration groupCount : Nat) : Nat → Nat → List TokenTurn
  | 0, _ => []
  | behind + 1, start =>
    let stop := turnEnd tokens firstStart duration groupCount start behind
    if stop ≤ start then turnsFrom tokens fallback firstStart duration groupCount behind start
    else
      let range : TimeRange := ⟨max (startMs tokens start) fallback.startMs,
        min (endMs tokens (stop - 1)) fallback.endMs⟩
      let rest := turnsFrom tokens fallback firstStart duration groupCount behind stop
      if range.startMs < range.endMs then ⟨start, stop, range⟩ :: rest else rest

def groupCount (duration tokens : Nat) : Nat :=
  max 1 (min ((duration + (turnWindowMs - 1)) / turnWindowMs) tokens)

def tokenTurns (tokens : List TimedToken) (fallback : TimeRange) : List TokenTurn :=
  if tokens = [] then []
  else
    let firstStart := (max (startMs tokens 0) fallback.startMs).toNat
    let finalEnd := (min (endMs tokens (tokens.length - 1)) fallback.endMs).toNat
    let duration := finalEnd - firstStart
    let groups := groupCount duration tokens.length
    turnsFrom tokens fallback firstStart duration groups groups 0

/-! ## Assignments -/

/-- The label and the confidence that a turn was assigned, if it was. -/
abbrev Assignment := Option (Text × Text)

def assignToken (assignment : Assignment) (token : TimedToken) : TimedToken :=
  { token with
    speaker := assignment.map Prod.fst
    speakerConfidence := assignment.map Prod.snd }

def assignTurn (tokens : List TimedToken) (turn : TokenTurn) (assignment : Assignment) :
    List TimedToken :=
  tokens.mapIdx fun index token =>
    if turn.start ≤ index ∧ index < turn.stop then assignToken assignment token else token

def assignTurns (assign : Nat → Assignment) :
    Nat → List TokenTurn → List TimedToken → List TimedToken
  | _, [], tokens => tokens
  | index, turn :: turns, tokens =>
    assignTurns assign (index + 1) turns (assignTurn tokens turn (assign index))

section
variable {rules : EvidenceRules} (scores : Scores rules)

def meanConfidence (confidences : List Text) : Option Text :=
  if confidences = [] then none else some (scores.mean confidences)

def summarizeTokenSpeaker (segment : Segment) : Segment :=
  let first := segment.tokens.head?.bind TimedToken.speaker
  if first.isSome && segment.tokens.all (fun token => token.speaker = first) then
    { segment with
      speaker := first
      speakerConfidence :=
        meanConfidence scores (segment.tokens.filterMap TimedToken.speakerConfidence) }
  else { segment with speaker := none, speakerConfidence := none }

def assignSegment (assign : Nat → Assignment) (segment : Segment) : Segment :=
  let turns := tokenTurns segment.tokens segment.range
  if turns = [] then
    { segment with
      speaker := (assign 0).map Prod.fst
      speakerConfidence := (assign 0).map Prod.snd }
  else summarizeTokenSpeaker scores
    { segment with tokens := assignTurns assign 0 turns segment.tokens }

/-- Each segment with the assignments of its turns. -/
def assignSpeakers (assign : Nat → Nat → Assignment) (segments : List Segment) : List Segment :=
  segments.mapIdx fun index segment => assignSegment scores (assign index) segment

/-! ## Relabelling -/

def mapSpeaker (f : Text → Text) (segment : Segment) : Segment :=
  { segment with
    speaker := segment.speaker.map f
    tokens := segment.tokens.map fun token => { token with speaker := token.speaker.map f } }

/-- What a map of labels makes of a label. -/
def target (remap : List (Text × Text)) (id : Text) : Text := (remap.lookup id).getD id

def remapSpeakers (remap : List (Text × Text)) (segments : List Segment) : List Segment :=
  if remap = [] then segments else segments.map (mapSpeaker (target remap))

/-- The labels of a segment: those of its tokens, then its own. -/
def labels (segment : Segment) : List Text :=
  segment.tokens.filterMap TimedToken.speaker ++ segment.speaker.toList

def speakerLabel (number : Nat) : Text := "speaker-".toList ++ natText number

def addLabel (remap : List (Text × Text)) (id : Text) : List (Text × Text) :=
  if (remap.lookup id).isSome then remap else remap ++ [(id, speakerLabel (remap.length + 1))]

def compactRemap (segments : List Segment) : List (Text × Text) :=
  (segments.flatMap labels).foldl addLabel []

def compactSpeakerLabels (segments : List Segment) : List Segment :=
  remapSpeakers (compactRemap segments) segments

/-! ## Repairs -/

def setSpeaker (id confidence : Text) (token : TimedToken) : TimedToken :=
  { token with speaker := some id, speakerConfidence := some confidence }

/-- Unassigned tokens between two tokens, either of which may be missing. -/
def fillGap (before after : Option TimedToken) (gap : List TimedToken) : List TimedToken :=
  match before.bind TimedToken.speaker with
  | none => gap
  | some id =>
    if after.bind TimedToken.speaker = some id then
      let confidence :=
        match before.bind TimedToken.speakerConfidence, after.bind TimedToken.speakerConfidence with
        | some left, some right => scores.halfOfLeast left right
        | _, _ => scores.zero
      gap.map (setSpeaker id confidence)
    else gap

/-- The tokens from one on, behind a token with a speaker and the gap after it. -/
def repairFrom (before : Option TimedToken) (gap : List TimedToken) :
    List TimedToken → List TimedToken
  | [] => fillGap scores before none gap
  | token :: tokens =>
    if token.speaker.isNone then repairFrom before (gap ++ [token]) tokens
    else fillGap scores before (some token) gap ++ token :: repairFrom (some token) [] tokens

def repairBracketedTokenGaps (tokens : List TimedToken) : List TimedToken :=
  repairFrom scores none [] tokens

def onlySpeaker (segments : List Segment) : Option Text :=
  match (segments.flatMap labels).dedup with
  | [id] => some id
  | _ => none

def fillUnassigned (id : Text) (token : TimedToken) : TimedToken :=
  if token.speaker.isNone then setSpeaker id scores.zero token else token

def repairSegment (only : Option Text) (segment : Segment) : Segment :=
  let segment :=
    match only with
    | some id =>
      if segment.tokens.isEmpty && segment.speaker.isNone then
        { segment with speaker := some id, speakerConfidence := some scores.zero }
      else { segment with tokens := segment.tokens.map (fillUnassigned scores id) }
    | none => { segment with tokens := repairBracketedTokenGaps scores segment.tokens }
  if segment.tokens.isEmpty then segment else summarizeTokenSpeaker scores segment

def repairUnassignedSpeech (segments : List Segment) : List Segment :=
  segments.map (repairSegment scores (onlySpeaker segments))

/-! ## Splitting -/

structure TokenSpeakerGroup where
  speaker : Option Text
  confidences : List Text
  tokens : List TimedToken
  text : Text

namespace TokenSpeakerGroup

def new (token : TimedToken) : TokenSpeakerGroup :=
  ⟨token.speaker, token.speakerConfidence.toList, [token], token.text⟩

def push (group : TokenSpeakerGroup) (token : TimedToken) : TokenSpeakerGroup :=
  { group with
    confidences := group.confidences ++ token.speakerConfidence.toList
    tokens := group.tokens ++ [token]
    text := group.text ++ token.text }

end TokenSpeakerGroup

/-- The groups from the one that is last so far. -/
def groupsFrom (group : TokenSpeakerGroup) : List TimedToken → List TokenSpeakerGroup
  | [] => [group]
  | token :: tokens =>
    if group.speaker = token.speaker then groupsFrom (group.push token) tokens
    else group :: groupsFrom (.new token) tokens

def speakerGroups : List TimedToken → List TokenSpeakerGroup
  | [] => []
  | token :: tokens => groupsFrom (.new token) tokens

/-- `{id}-turn-{number:04}`. -/
def turnId (id : Text) (number : Nat) : Text :=
  id ++ "-turn-".toList ++ Render.padded 4 number

def turnSegment (segment : Segment) (split : Bool) (index : Nat) (group : TokenSpeakerGroup) :
    Segment :=
  let range : TimeRange :=
    ⟨group.tokens.head?.elim segment.range.startMs fun token => token.range.startMs,
      group.tokens.getLast?.elim segment.range.endMs fun token => token.range.endMs⟩
  { id := if split then turnId segment.id (index + 1) else segment.id
    range := range
    speaker := group.speaker
    speakerConfidence := meanConfidence scores group.confidences
    tokens := group.tokens
    content := [.text group.text []]
    provenance := segment.provenance
    time := some range }

def splitSegment (segment : Segment) : List Segment :=
  if segment.tokens.isEmpty then [segment]
  else
    let groups := speakerGroups segment.tokens
    groups.mapIdx (turnSegment scores segment (1 < groups.length))

def splitTokenSpeakerTurns (segments : List Segment) : List Segment :=
  segments.flatMap (splitSegment scores)

/-! ## Merging -/

def canMergeSpeakerTurns (left right : Segment) : Bool :=
  left.speaker.isSome && left.speaker = right.speaker &&
    left.tokens.isEmpty = right.tokens.isEmpty && left.range.endMs ≤ right.range.startMs &&
    right.range.startMs.toNat - left.range.endMs.toNat ≤ sameSpeakerMergeGapMs

/-- The weight of the tokens of a segment, which fits sixteen bits and is positive. -/
def weight (tokens : List TimedToken) : Nat := max (min tokens.length (2 ^ 16 - 1)) 1

def mergedConfidence (left right : Segment) : Option Text :=
  match left.speakerConfidence, right.speakerConfidence with
  | some l, some r => some (scores.weighted l (weight left.tokens) r (weight right.tokens))
  | some value, none => some value
  | none, some value => some value
  | none, none => none

def mergeSpeakerTurn (left right : Segment) : Except ConversionError Segment :=
  match left.content, right.content with
  | [.text leftText leftMarks], [.text rightText rightMarks] => do
    refuse (leftMarks ≠ [] ∨ rightMarks ≠ [])
      (.ai providerId "speaker turn merge received marked timed content")
    let range : TimeRange := ⟨left.range.startMs, right.range.endMs⟩
    return { left with
      range := range
      speakerConfidence := mergedConfidence scores left right
      tokens := left.tokens ++ right.tokens
      content := [.text (leftText ++ rightText) []]
      time := some range }
  | _, _ => .error (.ai providerId "speaker turn merge received invalid timed content")

/-- The segments from the one that is last so far. -/
def mergeFrom (previous : Segment) : List Segment → Except ConversionError (List Segment)
  | [] => .ok [previous]
  | segment :: segments =>
    if canMergeSpeakerTurns previous segment then do
      let merged ← mergeSpeakerTurn scores previous segment
      mergeFrom merged segments
    else do
      let rest ← mergeFrom segment segments
      return previous :: rest

def mergeAdjacentSpeakerTurns : List Segment → Except ConversionError (List Segment)
  | [] => .ok []
  | segment :: segments => mergeFrom scores segment segments

/-! ## Diarization -/

/-- The labels as they are once clusters are joined and numbered. -/
def relabelled (remap : List (Text × Text)) (expected : Bool) (segments : List Segment) :
    List Segment :=
  let segments := remapSpeakers remap segments
  if expected then segments else compactSpeakerLabels segments

/-- What follows the assignments; the number of speakers may be expected. -/
def finishTurns (remap : List (Text × Text)) (expected : Bool) (segments : List Segment) :
    Except ConversionError (List Segment) :=
  mergeAdjacentSpeakerTurns scores (splitTokenSpeakerTurns scores
    (repairUnassignedSpeech scores (relabelled remap expected segments)))

def diarize (assign : Nat → Nat → Assignment) (remap : List (Text × Text)) (expected : Bool)
    (segments : List Segment) : Except ConversionError (List Segment) :=
  finishTurns scores remap expected (assignSpeakers scores assign segments)

end

end IntoMarkdown.Asr
