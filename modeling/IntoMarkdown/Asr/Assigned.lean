import IntoMarkdown.Asr.Transcript

/-! # Assigned speakers

Every token gets the speaker of the turn that it is in; nothing else of a segment changes. -/

namespace IntoMarkdown.Asr
open Ir Lib Lib.Strings

/-- The label and the confidence of a token. -/
def voice (token : TimedToken) : Option Text × Option Text :=
  (token.speaker, token.speakerConfidence)

def voiceOf (assignment : Assignment) : Option Text × Option Text :=
  (assignment.map Prod.fst, assignment.map Prod.snd)

/-- The speakers of tokens in turns. -/
def turnVoices (assign : Nat → Assignment) : Nat → List TokenTurn → List (Option Text × Option Text)
  | _, [] => []
  | index, turn :: turns =>
    List.replicate (turn.stop - turn.start) (voiceOf (assign index)) ++
      turnVoices assign (index + 1) turns

section
variable {tokens : List TimedToken} {assign : Nat → Assignment}

/-! ## Tokens -/

theorem length_assignTurn (turn : TokenTurn) (assignment : Assignment) :
    (assignTurn tokens turn assignment).length = tokens.length := List.length_mapIdx

theorem bare_assignTurn (turn : TokenTurn) (assignment : Assignment) :
    (assignTurn tokens turn assignment).map bareToken = tokens.map bareToken := by
  refine List.ext_getElem (by simp [assignTurn]) fun index hindex hindex' => ?_
  simp only [assignTurn, List.getElem_map, List.getElem_mapIdx]
  split <;> rfl

theorem bare_assignTurns (index : Nat) (turns : List TokenTurn) (tokens : List TimedToken) :
    (assignTurns assign index turns tokens).map bareToken = tokens.map bareToken := by
  induction turns generalizing index tokens with
  | nil => rfl
  | cons turn turns ih => rw [assignTurns, ih, bare_assignTurn]

theorem voices_assignTurn {turn : TokenTurn} (assignment : Assignment)
    (hle : turn.start ≤ turn.stop) (hstop : turn.stop ≤ tokens.length) :
    ((assignTurn tokens turn assignment).take turn.stop).map voice =
      (tokens.take turn.start).map voice ++
        List.replicate (turn.stop - turn.start) (voiceOf assignment) := by
  refine List.ext_getElem ?_ fun index hindex hindex' => ?_
  · simp only [List.length_map, List.length_take, length_assignTurn, List.length_append,
      List.length_replicate]
    omega
  · simp only [List.length_map, List.length_take, length_assignTurn] at hindex
    simp only [assignTurn, List.getElem_map, List.getElem_take, List.getElem_mapIdx,
      List.getElem_append, List.length_map, List.length_take, List.getElem_replicate]
    by_cases hbefore : index < turn.start
    · rw [if_neg (by omega), dif_pos (by omega)]
    · rw [if_pos (by omega), dif_neg (by omega)]
      rfl

/-- The tokens of consecutive turns have the speakers of the turns. -/
theorem voices_assignTurns {start index : Nat} {turns : List TokenTurn}
    (h : Covers start turns tokens.length) :
    (assignTurns assign index turns tokens).map voice =
      (tokens.take start).map voice ++ turnVoices assign index turns := by
  induction turns generalizing start index tokens with
  | nil =>
    have hstart : start = tokens.length := h
    rw [assignTurns, turnVoices, List.append_nil, hstart, List.take_length]
  | cons turn turns ih =>
    obtain ⟨rfl, hlt, hrest⟩ := h
    rw [← length_assignTurn turn (assign index)] at hrest
    rw [assignTurns, ih hrest, turnVoices, ← List.append_assoc,
      voices_assignTurn _ (Nat.le_of_lt hlt)
        (Nat.le_trans hrest.le (Nat.le_of_eq (length_assignTurn _ _)))]

theorem mem_turnVoices {index : Nat} {turns : List TokenTurn} :
    ∀ v ∈ turnVoices assign index turns, ∃ turn, v = voiceOf (assign turn) := by
  induction turns generalizing index with
  | nil => exact List.forall_mem_nil _
  | cons turn turns ih =>
    intro v hv
    rcases List.mem_append.mp hv with hv | hv
    · exact ⟨index, (List.mem_replicate.mp hv).2⟩
    · exact ih v hv

/-- The voice of a token is that of the turn that it is in. -/
theorem getElem?_turnVoices {start stop index : Nat} {turns : List TokenTurn}
    (h : Covers start turns stop) {k : Nat} {turn : TokenTurn} (hturn : turns[k]? = some turn)
    {place : Nat} (hle : turn.start ≤ place) (hlt : place < turn.stop) :
    start ≤ place ∧
      (turnVoices assign index turns)[place - start]? = some (voiceOf (assign (index + k))) := by
  induction turns generalizing start index k with
  | nil => cases hturn
  | cons first turns ih =>
    obtain ⟨rfl, hfirst, hrest⟩ := h
    have hlength : (List.replicate (first.stop - first.start) (voiceOf (assign index))).length =
        first.stop - first.start := List.length_replicate
    cases k with
    | zero =>
      obtain rfl : first = turn := Option.some.inj hturn
      have hin : place - first.start < first.stop - first.start := by omega
      rw [turnVoices, List.getElem?_append_left (hlength.symm ▸ hin), List.getElem?_replicate,
        if_pos hin]
      exact ⟨hle, rfl⟩
    | succ k =>
      obtain ⟨hafter, hvoice⟩ := @ih _ (index + 1) hrest _ hturn
      have hcut : place - first.start - (first.stop - first.start) = place - first.stop := by omega
      rw [turnVoices, List.getElem?_append_right (by rw [hlength]; omega), hlength, hcut, hvoice]
      exact ⟨by omega, by rw [Nat.add_right_comm, Nat.add_assoc]⟩

end

end IntoMarkdown.Asr
