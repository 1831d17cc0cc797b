import Mathlib.Data.List.Infix

/-! # Line ends

A line ends at a line feed, at a carriage return, or at both of them in this order. Items are read
one by one: a carriage return is held back until it is known what follows it. -/

namespace IntoMarkdown.Lib

section
variable {α : Type} (value : α → Char)

/-- What is left when a line feed ends no line of its own. -/
def dropFeed : List α → List α
  | [] => []
  | b :: more => if value b = '\n' then more else b :: more

theorem length_dropFeed_le (items : List α) : (dropFeed value items).length ≤ items.length := by
  cases items with
  | nil => exact Nat.le_refl _
  | cons b more =>
    rw [dropFeed]
    split
    · exact Nat.le_succ _
    · exact Nat.le_refl _

/-- The lines of what is read, without what ends them. -/
def breakLines : List α → List (List α)
  | [] => [[]]
  | a :: rest =>
    if value a = '\n' then [] :: breakLines rest
    else if value a = '\r' then [] :: breakLines (dropFeed value rest)
    else (breakLines rest).modifyHead (a :: ·)
termination_by items => items.length
decreasing_by
  · exact Nat.lt_succ_self _
  · exact Nat.lt_succ_of_le (length_dropFeed_le value rest)
  · exact Nat.lt_succ_self _

/-- The lines so far, the line that is being read, and whether a carriage return is held back. -/
structure LineState (α : Type) where
  lines : List (List α) := []
  current : List α := []
  pending : Bool := false

namespace LineState

def finishLine (state : LineState α) : LineState α := ⟨state.lines ++ [state.current], [], false⟩

def take (state : LineState α) (a : α) : LineState α :=
  if value a = '\r' then { state with pending := true }
  else if value a = '\n' then state.finishLine
  else { state with current := state.current ++ [a] }

def push (state : LineState α) (a : α) : LineState α :=
  if state.pending then
    if value a = '\n' then state.finishLine else state.finishLine.take value a
  else state.take value a

def finish (state : LineState α) : List (List α) :=
  if state.pending then state.finishLine.finishLine.lines else state.finishLine.lines

end LineState

variable {value : α → Char} {a : α} {items rest : List α}

theorem breakLines_feed (h : value a = '\n') (rest : List α) :
    breakLines value (a :: rest) = [] :: breakLines value rest := by
  rw [breakLines, if_pos h]

theorem breakLines_return (h : value a = '\r') (rest : List α) :
    breakLines value (a :: rest) = [] :: breakLines value (dropFeed value rest) := by
  rw [breakLines, if_neg (by rw [h]; decide), if_pos h]

theorem breakLines_other (hreturn : value a ≠ '\r') (hfeed : value a ≠ '\n') (rest : List α) :
    breakLines value (a :: rest) = (breakLines value rest).modifyHead (a :: ·) := by
  rw [breakLines, if_neg hfeed, if_neg hreturn]

/-- There is always a first line, so that what is before it can be put there. -/
theorem modifyHead_append (current : List α) (a : α) (lines : List (List α)) :
    (lines.modifyHead (a :: ·)).modifyHead (current ++ ·) =
      lines.modifyHead (current ++ [a] ++ ·) := by
  cases lines with
  | nil => rfl
  | cons line lines =>
    simp only [List.modifyHead_cons, List.append_assoc, List.singleton_append]

theorem modifyHead_nil (lines : List (List α)) : lines.modifyHead ([] ++ ·) = lines := by
  cases lines <;> rfl

namespace LineState
variable {state : LineState α}

/-- The lines that a state still ends up with. -/
def later (value : α → Char) (state : LineState α) (items : List α) : List (List α) :=
  state.lines ++
    (if state.pending then state.current :: breakLines value (dropFeed value items)
    else (breakLines value items).modifyHead (state.current ++ ·))

theorem later_finishLine (state : LineState α) (items : List α) :
    state.finishLine.later value items = state.lines ++ state.current :: breakLines value items := by
  rw [later, finishLine, if_neg Bool.false_ne_true, modifyHead_nil, List.append_assoc]
  rfl

theorem later_take (h : state.pending = false) (a : α) (rest : List α) :
    (state.take value a).later value rest = state.later value (a :: rest) := by
  have hlater : state.later value (a :: rest) =
      state.lines ++ (breakLines value (a :: rest)).modifyHead (state.current ++ ·) := by
    rw [later, h, if_neg Bool.false_ne_true]
  rw [hlater, take]
  split
  · next hreturn =>
    rw [breakLines_return hreturn, List.modifyHead_cons, List.append_nil]
    rfl
  split
  · next hfeed =>
    rw [later_finishLine, breakLines_feed hfeed, List.modifyHead_cons, List.append_nil]
  · next hreturn hfeed =>
    rw [breakLines_other hreturn hfeed, modifyHead_append, later]
    dsimp only
    rw [h, if_neg Bool.false_ne_true]

/-- A step of the state. -/
theorem later_push (state : LineState α) (a : α) (rest : List α) :
    (state.push value a).later value rest = state.later value (a :: rest) := by
  cases hpending : state.pending with
  | false => rw [push, hpending, if_neg Bool.false_ne_true, later_take hpending]
  | true =>
    have hlater : state.later value (a :: rest) =
        state.lines ++ state.current :: breakLines value (dropFeed value (a :: rest)) := by
      rw [later, hpending, if_pos rfl]
    rw [hlater, push, hpending, if_pos rfl, dropFeed]
    split
    · rw [later_finishLine]
    · rw [later_take rfl, later_finishLine]

theorem later_nil (state : LineState α) : state.later value [] = state.finish := by
  rw [later, finish]
  split
  · rw [finishLine, finishLine, List.append_assoc, dropFeed, breakLines]
    rfl
  · rw [finishLine, breakLines, List.modifyHead_cons, List.append_nil]

theorem later_foldl (state : LineState α) (items : List α) :
    (items.foldl (push value) state).finish = state.later value items := by
  induction items generalizing state with
  | nil => exact (later_nil state).symm
  | cons a rest ih => rw [List.foldl_cons, ih, later_push]

end LineState

/-- A run of the states gives the lines. -/
theorem finish_foldl (items : List α) :
    (items.foldl (LineState.push value) {}).finish = breakLines value items := by
  rw [LineState.later_foldl, LineState.later, if_neg Bool.false_ne_true, List.nil_append,
    modifyHead_nil]

/-! ## What lines are -/

def endsLine (c : Char) : Bool := c = '\n' || c = '\r'

theorem filter_dropFeed (rest : List α) :
    (dropFeed value rest).filter (fun a => !endsLine (value a)) =
      rest.filter fun a => !endsLine (value a) := by
  cases rest with
  | nil => rfl
  | cons b more =>
    rw [dropFeed]
    split
    · next hfeed =>
      rw [List.filter_cons_of_neg (by rw [hfeed]; decide)]
    · rfl

theorem flatten_modifyHead {lines : List (List α)} (h : lines ≠ []) (a : α) :
    (lines.modifyHead (a :: ·)).flatten = a :: lines.flatten := by
  cases lines with
  | nil => exact absurd rfl h
  | cons line lines => rfl

theorem breakLines_ne_nil (items : List α) : breakLines value items ≠ [] := by
  fun_induction breakLines value items with
  | case1 => exact List.cons_ne_nil _ _
  | case2 a rest hfeed ih => exact List.cons_ne_nil _ _
  | case3 a rest hfeed hreturn ih => exact List.cons_ne_nil _ _
  | case4 a rest hfeed hreturn ih =>
    obtain ⟨line, lines, hlines⟩ := List.exists_cons_of_ne_nil ih
    rw [hlines]
    exact List.cons_ne_nil _ _

/-- Nothing is lost but what ends lines. -/
theorem flatten_breakLines (items : List α) :
    (breakLines value items).flatten = items.filter fun a => !endsLine (value a) := by
  fun_induction breakLines value items with
  | case1 => rfl
  | case2 a rest hfeed ih =>
    rw [List.flatten_cons, ih, List.filter_cons_of_neg (by rw [hfeed]; decide)]
    rfl
  | case3 a rest hfeed hreturn ih =>
    rw [List.flatten_cons, ih, filter_dropFeed,
      List.filter_cons_of_neg (by rw [hreturn]; decide)]
    rfl
  | case4 a rest hfeed hreturn ih =>
    rw [flatten_modifyHead (breakLines_ne_nil rest), ih, List.filter_cons_of_pos]
    rw [endsLine, decide_eq_false hfeed, decide_eq_false hreturn]
    rfl

/-! ## Groups -/

/-- What is between blanks, where there is something. -/
def groupsOf (blank : α → Bool) (items : List α) : List (List α) :=
  (items.splitOnP blank).filter fun group => !group.isEmpty

/-- The groups so far, and the group that is being read. -/
structure GroupState (α : Type) where
  groups : List (List α) := []
  current : List α := []

namespace GroupState
variable {blank : α → Bool}

def flush (state : GroupState α) : GroupState α :=
  if state.current = [] then state else ⟨state.groups ++ [state.current], []⟩

def push (blank : α → Bool) (state : GroupState α) (a : α) : GroupState α :=
  if blank a then state.flush else { state with current := state.current ++ [a] }

/-- The groups that a state still ends up with. -/
def later (blank : α → Bool) (state : GroupState α) (items : List α) : List (List α) :=
  state.groups ++
    ((items.splitOnP blank).modifyHead (state.current ++ ·)).filter fun group => !group.isEmpty

theorem later_flush (state : GroupState α) (items : List α) :
    state.flush.later blank items = state.groups ++
      (state.current :: items.splitOnP blank).filter fun group => !group.isEmpty := by
  rw [flush]
  split
  · next hnil =>
    rw [later, hnil, modifyHead_nil, List.filter_cons_of_neg Bool.false_ne_true]
  · next hne =>
    rw [later, modifyHead_nil, List.append_assoc, List.filter_cons_of_pos, List.singleton_append]
    rw [List.isEmpty_eq_false_iff.mpr hne]
    rfl

theorem later_push (state : GroupState α) (a : α) (rest : List α) :
    (state.push blank a).later blank rest = state.later blank (a :: rest) := by
  rw [push]
  split
  · next hblank =>
    rw [later_flush, later, List.splitOnP_cons_eq_if_modifyHead, if_pos hblank, List.modifyHead_cons,
      List.append_nil]
  · next hblank =>
    rw [later, later, List.splitOnP_cons_eq_if_modifyHead, if_neg hblank, modifyHead_append]

/-- A run of the states gives the groups. -/
theorem later_foldl (state : GroupState α) (items : List α) :
    (items.foldl (push blank) state).flush.groups = state.later blank items := by
  induction items generalizing state with
  | nil =>
    rw [List.foldl_nil, later, List.splitOnP_nil, List.modifyHead_cons, List.append_nil, flush]
    split
    · next hnil =>
      rw [hnil]
      exact (List.append_nil _).symm
    · next hne =>
      rw [List.filter_cons_of_pos]
      · rfl
      · rw [List.isEmpty_eq_false_iff.mpr hne]
        rfl
  | cons a rest ih => rw [List.foldl_cons, ih, later_push]

end GroupState

theorem groups_foldl (blank : α → Bool) (items : List α) :
    (items.foldl (GroupState.push blank) {}).flush.groups = groupsOf blank items := by
  rw [GroupState.later_foldl, GroupState.later, List.nil_append, modifyHead_nil, groupsOf]

end

end IntoMarkdown.Lib
