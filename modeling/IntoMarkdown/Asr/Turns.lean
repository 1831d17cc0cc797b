import IntoMarkdown.Asr.Diarization

/-! # The turns of a segment

The turns of tokens that are in order are consecutive and not empty, and none is left out. -/

namespace IntoMarkdown.Asr
open Ir Lib Lib.Strings

/-- Consecutive turns, none empty, from one token to another. -/
def Covers : Nat → List TokenTurn → Nat → Prop
  | start, [], stop => start = stop
  | start, turn :: turns, stop =>
    turn.start = start ∧ start < turn.stop ∧ Covers turn.stop turns stop

/-- Tokens in order inside a range. -/
structure TokensFit (range : TimeRange) (tokens : List TimedToken) : Prop where
  each : ∀ token ∈ tokens, range.startMs ≤ token.range.startMs ∧
    token.range.startMs < token.range.endMs ∧ token.range.endMs ≤ range.endMs
  ordered : tokens.Pairwise fun earlier later => earlier.range.endMs ≤ later.range.startMs

/-- Turns of tokens: each takes some time of the segment, they follow each other, and there are not
more of them than windows. -/
structure Turned (range : TimeRange) (tokens : List TimedToken) (turns : List TokenTurn) :
    Prop where
  covers : Covers 0 turns tokens.length
  each : ∀ turn ∈ turns, range.startMs ≤ turn.range.startMs ∧
    turn.range.startMs < turn.range.endMs ∧ turn.range.endMs ≤ range.endMs
  ordered : turns.Pairwise fun earlier later => earlier.range.endMs ≤ later.range.startMs
  count : ∀ first last, tokens.head? = some first → tokens.getLast? = some last →
    turns.length = groupCount (last.range.endMs.toNat - first.range.startMs.toNat) tokens.length

section
variable {range : TimeRange} {tokens : List TimedToken} {firstStart duration groups start : Nat}

theorem startMs_of_lt {index : Nat} (h : index < tokens.length) :
    startMs tokens index = tokens[index].range.startMs := by
  rw [startMs, List.getElem?_eq_getElem h]
  rfl

theorem endMs_of_lt {index : Nat} (h : index < tokens.length) :
    endMs tokens index = tokens[index].range.endMs := by
  rw [endMs, List.getElem?_eq_getElem h]
  rfl

theorem TokensFit.start_lt_end (h : TokensFit range tokens) {first last : Nat}
    (hle : first ≤ last) (hlast : last < tokens.length) :
    startMs tokens first < endMs tokens last := by
  rw [startMs_of_lt (hle.trans_lt hlast), endMs_of_lt hlast]
  have hfirst := (h.each _ (List.getElem_mem (hle.trans_lt hlast))).2.1
  rcases hle.eq_or_lt with rfl | hlt
  · exact hfirst
  · have hbetween :=
      List.pairwise_iff_getElem.mp h.ordered first last (hle.trans_lt hlast) hlast hlt
    have hend := (h.each _ (List.getElem_mem hlast)).2.1
    exact UInt64.lt_trans (UInt64.lt_of_lt_of_le hfirst hbetween) hend

theorem TokensFit.startMs_eq (h : TokensFit range tokens) {first : Nat}
    (hlt : first < tokens.length) :
    max (startMs tokens first) range.startMs = startMs tokens first := by
  have hstart := (h.each _ (List.getElem_mem hlt)).1
  rw [← startMs_of_lt] at hstart
  change (if _ ≤ _ then _ else _) = _
  split
  · next hle => exact UInt64.le_antisymm hstart hle
  · rfl

theorem TokensFit.endMs_eq (h : TokensFit range tokens) {last : Nat} (hlt : last < tokens.length) :
    min (endMs tokens last) range.endMs = endMs tokens last := by
  have hend := (h.each _ (List.getElem_mem hlt)).2.2
  rw [← endMs_of_lt] at hend
  exact if_pos hend

theorem argmin_bounds (f : Nat → Nat) (start count : Nat) :
    start < ((List.range' (start + 1) count).argmin f).getD (start + 1) ∧
      ((List.range' (start + 1) count).argmin f).getD (start + 1) ≤ start + max count 1 := by
  cases hargmin : (List.range' (start + 1) count).argmin f with
  | none =>
    rw [Option.getD_none]
    omega
  | some candidate =>
    have hmem := List.mem_range'_1.mp (List.argmin_mem hargmin)
    rw [Option.getD_some]
    omega

/-- A turn takes a token at least, and leaves one for each turn behind it. -/
theorem turnEnd_bounds {behind : Nat} (h : start + (behind + 1) ≤ tokens.length) :
    start < turnEnd tokens firstStart duration groups start behind ∧
      turnEnd tokens firstStart duration groups start behind + behind ≤ tokens.length ∧
      (behind = 0 → turnEnd tokens firstStart duration groups start behind = tokens.length) := by
  unfold turnEnd
  split
  · next hlast => omega
  · next hbehind =>
    have hbounds := argmin_bounds (fun candidate => absDiff (endMs tokens (candidate - 1)).toNat
      (saturatingAdd firstStart (saturatingMul duration (groups - behind) / groups))) start
      (tokens.length - behind - start)
    dsimp only
    omega

/-- The time from the first token of a turn to its last. -/
def spanned (tokens : List TimedToken) (turn : TokenTurn) : TimeRange :=
  ⟨startMs tokens turn.start, endMs tokens (turn.stop - 1)⟩

theorem turnsFrom_covers (h : TokensFit range tokens) {left : Nat}
    (hroom : start + left ≤ tokens.length) (hnone : left = 0 → start = tokens.length) :
    Covers start (turnsFrom tokens range firstStart duration groups left start) tokens.length ∧
      (turnsFrom tokens range firstStart duration groups left start).length = left ∧
      ∀ turn ∈ turnsFrom tokens range firstStart duration groups left start,
        turn.range = spanned tokens turn := by
  induction left generalizing start with
  | zero => exact ⟨hnone rfl, rfl, List.forall_mem_nil _⟩
  | succ behind ih =>
    obtain ⟨hlt, hleft, hlast⟩ :=
      @turnEnd_bounds tokens firstStart duration groups start behind hroom
    have hfirst : start < tokens.length := by omega
    have hfinal : turnEnd tokens firstStart duration groups start behind - 1 < tokens.length := by
      omega
    have hrange := h.start_lt_end (Nat.le_sub_one_of_lt hlt) hfinal
    obtain ⟨hcovers, hlength, hranges⟩ := ih hleft hlast
    rw [turnsFrom]
    dsimp only
    rw [if_neg (Nat.not_le.mpr hlt), h.startMs_eq hfirst, h.endMs_eq hfinal, if_pos hrange]
    exact ⟨⟨rfl, hlt, hcovers⟩, congrArg (· + 1) hlength,
      List.forall_mem_cons.mpr ⟨rfl, hranges⟩⟩

theorem groupCount_bounds (duration : Nat) {count : Nat} (h : 0 < count) :
    0 < groupCount duration count ∧ groupCount duration count ≤ count := by
  rw [groupCount]
  omega

/-! ## Consecutive turns -/

theorem Covers.le {start stop : Nat} {turns : List TokenTurn} (h : Covers start turns stop) :
    start ≤ stop := by
  induction turns generalizing start with
  | nil => exact Nat.le_of_eq h
  | cons turn turns ih =>
    obtain ⟨-, hlt, hrest⟩ := h
    exact Nat.le_trans (Nat.le_of_lt hlt) (ih hrest)

theorem Covers.each {start stop : Nat} {turns : List TokenTurn} (h : Covers start turns stop) :
    ∀ turn ∈ turns, start ≤ turn.start ∧ turn.start < turn.stop ∧ turn.stop ≤ stop := by
  induction turns generalizing start with
  | nil => exact List.forall_mem_nil _
  | cons turn turns ih =>
    obtain ⟨rfl, hlt, hrest⟩ := h
    refine List.forall_mem_cons.mpr ⟨⟨Nat.le_refl _, hlt, hrest.le⟩, fun other hother => ?_⟩
    obtain ⟨hafter, hin⟩ := ih hrest other hother
    exact ⟨Nat.le_trans (Nat.le_of_lt hlt) hafter, hin⟩

theorem Covers.pairwise {start stop : Nat} {turns : List TokenTurn} (h : Covers start turns stop) :
    turns.Pairwise fun earlier later => earlier.stop ≤ later.start := by
  induction turns generalizing start with
  | nil => exact List.Pairwise.nil
  | cons turn turns ih =>
    obtain ⟨-, -, hrest⟩ := h
    exact List.pairwise_cons.mpr ⟨fun other hother => (hrest.each other hother).1, ih hrest⟩

theorem startMs_zero {first : TimedToken} (h : tokens.head? = some first) :
    startMs tokens 0 = first.range.startMs := by
  rw [startMs, ← List.head?_eq_getElem?, h]
  rfl

theorem endMs_last {last : TimedToken} (h : tokens.getLast? = some last) :
    endMs tokens (tokens.length - 1) = last.range.endMs := by
  rw [endMs, ← List.getLast?_eq_getElem?, h]
  rfl

theorem turned_of_covers (h : TokensFit range tokens) {turns : List TokenTurn}
    (hcovers : Covers 0 turns tokens.length)
    (hranges : ∀ turn ∈ turns, turn.range = spanned tokens turn)
    (hcount : ∀ first last, tokens.head? = some first → tokens.getLast? = some last →
      turns.length = groupCount (last.range.endMs.toNat - first.range.startMs.toNat)
        tokens.length) : Turned range tokens turns where
  covers := hcovers
  each turn hturn := by
    obtain ⟨-, hlt, hstop⟩ := hcovers.each turn hturn
    have hlast : turn.stop - 1 < tokens.length := by omega
    have hfirst : turn.start < tokens.length := by omega
    have hstart := (h.each _ (List.getElem_mem hfirst)).1
    have hend := (h.each _ (List.getElem_mem hlast)).2.2
    rw [← startMs_of_lt] at hstart
    rw [← endMs_of_lt] at hend
    rw [hranges turn hturn]
    exact ⟨hstart, h.start_lt_end (Nat.le_sub_one_of_lt hlt) hlast, hend⟩
  ordered := by
    refine List.Pairwise.imp_of_mem ?_ hcovers.pairwise
    intro earlier later hearlier hlater hle
    obtain ⟨-, hlt, -⟩ := hcovers.each earlier hearlier
    obtain ⟨-, hlt', hstop⟩ := hcovers.each later hlater
    have hfirst : earlier.stop - 1 < tokens.length := by omega
    have hsecond : later.start < tokens.length := by omega
    rw [hranges earlier hearlier, hranges later hlater]
    change endMs tokens (earlier.stop - 1) ≤ startMs tokens later.start
    rw [endMs_of_lt hfirst, startMs_of_lt hsecond]
    exact List.pairwise_iff_getElem.mp h.ordered _ _ hfirst hsecond (by omega)
  count := hcount

/-- The turns of tokens in order. -/
theorem tokenTurns_turned (h : TokensFit range tokens) :
    Turned range tokens (tokenTurns tokens range) := by
  unfold tokenTurns
  split
  · next hnil =>
    subst hnil
    exact turned_of_covers h rfl (List.forall_mem_nil _) fun first _ hfirst => by cases hfirst
  · next hne =>
    have hpos := List.length_pos_iff.mpr hne
    dsimp only
    rw [h.startMs_eq hpos, h.endMs_eq (Nat.sub_one_lt (Nat.ne_of_gt hpos))]
    obtain ⟨hfew, hmany⟩ := groupCount_bounds
      ((endMs tokens (tokens.length - 1)).toNat - (startMs tokens 0).toNat) hpos
    rw [← Nat.zero_add (groupCount _ _)] at hmany
    obtain ⟨hcovers, hlength, hranges⟩ := turnsFrom_covers h hmany
      fun hzero => absurd hzero (Nat.ne_of_gt hfew)
    refine turned_of_covers h hcovers hranges fun first last hfirst hlast => ?_
    rw [hlength, startMs_zero hfirst, endMs_last hlast]

theorem tokenTurns_covers (h : TokensFit range tokens) :
    Covers 0 (tokenTurns tokens range) tokens.length := (tokenTurns_turned h).covers

theorem tokenTurns_eq_nil (h : TokensFit range tokens) :
    tokenTurns tokens range = [] ↔ tokens = [] := by
  constructor
  · intro hnil
    have hcovers := tokenTurns_covers h
    rw [hnil] at hcovers
    exact List.length_eq_zero_iff.mp hcovers.symm
  · rintro rfl
    rfl

end

end IntoMarkdown.Asr
