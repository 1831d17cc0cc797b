import IntoMarkdown.Docx.Lists

/-! # The levels that a numbering part declares

What `parse_numbering` finds for a level of a list: the level of the definition that the list
refers to, with the start value that overrides its own. -/

namespace IntoMarkdown.Docx
open Lib Ir
open Lib.Strings (Text)

/-! ## Maps -/

section
variable {κ ν : Type} [DecidableEq κ] {entries : List (κ × ν)} {key key' : κ} {value : ν}

theorem findEntry_cons (entry : κ × ν) (entries : List (κ × ν)) (key : κ) :
    findEntry (entry :: entries) key =
      if entry.1 = key then some entry.2 else findEntry entries key := by
  rw [findEntry, List.find?_cons]
  by_cases h : entry.1 = key
  · rw [decide_eq_true h, if_pos h]
    rfl
  · rw [decide_eq_false h, if_neg h]
    rfl

theorem findEntry_filter (h : key' ≠ key) :
    findEntry (entries.filter fun entry => entry.1 ≠ key) key' = findEntry entries key' := by
  induction entries with
  | nil => rfl
  | cons entry entries ih =>
    by_cases hentry : entry.1 = key
    · rw [List.filter_cons_of_neg (by simpa using hentry), ih, findEntry_cons,
        if_neg (by rw [hentry]; exact h.symm)]
    · rw [List.filter_cons_of_pos (by simpa using hentry), findEntry_cons, findEntry_cons, ih]

theorem findEntry_insertEntry (entries : List (κ × ν)) (key : κ) (value : ν) (key' : κ) :
    findEntry (insertEntry entries key value) key' =
      if key = key' then some value else findEntry entries key' := by
  rw [insertEntry, findEntry_cons]
  by_cases h : key = key'
  · rw [if_pos h, if_pos h]
  · rw [if_neg h, if_neg h, findEntry_filter (Ne.symm h)]

/-- One entry for a key. -/
def Distinct (entries : List (κ × ν)) : Prop := (entries.map Prod.fst).Nodup

theorem Distinct.insertEntry (h : Distinct entries) (key : κ) (value : ν) :
    Distinct (insertEntry entries key value) := by
  refine List.nodup_cons.mpr ⟨fun hmem => ?_, h.sublist (List.filter_sublist.map Prod.fst)⟩
  obtain ⟨entry, hentry, hkey⟩ := List.mem_map.mp hmem
  have hne := (List.mem_filter.mp hentry).2
  simp [hkey] at hne

theorem Distinct.tail {entry : κ × ν} (h : Distinct (entry :: entries)) :
    findEntry entries entry.1 = none ∧ Distinct entries := by
  obtain ⟨hmem, hrest⟩ := List.nodup_cons.mp h
  refine ⟨?_, hrest⟩
  rw [findEntry, List.find?_eq_none.mpr]
  · rfl
  · intro other hother heq
    exact hmem (List.mem_map.mpr ⟨other, hother, of_decide_eq_true heq⟩)

end

/-! ## Levels -/

/-- The level that a list refers to, with the start value that overrides its own. -/
def NumberingScan.level (s : NumberingScan) (key : ListKey) : Option Numbering :=
  ((findEntry s.mapping key.1).bind fun abstract => findEntry s.abstracts (abstract, key.2)).map
    fun level => { level with start := (findEntry s.starts key).getD level.start }

structure NumberingScan.Distinct (s : NumberingScan) : Prop where
  abstracts : Docx.Distinct s.abstracts
  mapping : Docx.Distinct s.mapping
  starts : Docx.Distinct s.starts

theorem numberingEvent_distinct {s : NumberingScan} (h : s.Distinct) (event : XmlEvent) :
    (numberingEvent s event).Distinct := by
  unfold numberingEvent
  split
  case h_7 => split <;> first | exact h | exact ⟨h.abstracts.insertEntry _ _, h.mapping, h.starts⟩
  case h_11 => split <;> first | exact h | exact ⟨h.abstracts, h.mapping, h.starts.insertEntry _ _⟩
  case h_12 => split <;> first | exact h | exact ⟨h.abstracts, h.mapping.insertEntry _ _, h.starts⟩
  all_goals exact ⟨h.abstracts, h.mapping, h.starts⟩

theorem numberingScan_distinct (events : List XmlEvent) : (NumberingScan.of events).Distinct := by
  have hrun : ∀ s : NumberingScan, s.Distinct → (events.foldl numberingEvent s).Distinct := by
    induction events with
    | nil => exact fun s hs => hs
    | cons event events ih => exact fun s hs => ih _ (numberingEvent_distinct hs event)
  exact hrun {} ⟨List.nodup_nil, List.nodup_nil, List.nodup_nil⟩

section
variable {abstracts result : List (ListKey × Numbering)} {starts : List (ListKey × UInt64)}
  {mapping : List (Text × Text)}

/-- The levels of one definition, for the list that refers to it. -/
def addLevels (abstracts : List (ListKey × Numbering)) (num abstract : Text)
    (result : List (ListKey × Numbering)) : List (ListKey × Numbering) :=
  abstracts.foldl (fun result level =>
    if level.1.1 = abstract then insertEntry result (num, level.1.2) level.2 else result) result

theorem findEntry_addLevels (h : Distinct abstracts) (num abstract : Text) (key : ListKey) :
    findEntry (addLevels abstracts num abstract result) key =
      if num = key.1 then
        (findEntry abstracts (abstract, key.2)).or (findEntry result key)
      else findEntry result key := by
  induction abstracts generalizing result with
  | nil =>
    rw [show findEntry ([] : List (ListKey × Numbering)) (abstract, key.2) = none from rfl,
      Option.none_or, ite_self]
    rfl
  | cons level abstracts ih =>
    obtain ⟨hnone, hrest⟩ := h.tail
    have hstep : addLevels (level :: abstracts) num abstract result =
        addLevels abstracts num abstract (if level.1.1 = abstract then
          insertEntry result (num, level.1.2) level.2 else result) := rfl
    rw [hstep, ih hrest, findEntry_cons]
    obtain ⟨⟨id, lvl⟩, numbering⟩ := level
    dsimp only at hnone ⊢
    by_cases hid : id = abstract
    · subst hid
      rw [if_pos rfl, findEntry_insertEntry]
      by_cases hnum : num = key.1
      · by_cases hlvl : lvl = key.2
        · subst hlvl hnum
          rw [if_pos rfl, if_pos rfl, if_pos rfl, if_pos rfl, hnone, Option.none_or,
            Option.some_or]
        · rw [if_pos hnum, if_pos hnum, if_neg fun heq => hlvl (congrArg Prod.snd heq),
            if_neg fun heq => hlvl (congrArg Prod.snd heq)]
      · rw [if_neg hnum, if_neg hnum, if_neg fun heq => hnum (congrArg Prod.fst heq)]
    · rw [if_neg hid, if_neg fun heq => hid (congrArg Prod.fst heq)]

theorem findEntry_levels (habstracts : Distinct abstracts) (hmapping : Distinct mapping)
    (key : ListKey) :
    findEntry (mapping.foldl (fun result entry => addLevels abstracts entry.1 entry.2 result)
        result) key =
      ((findEntry mapping key.1).bind fun abstract => findEntry abstracts (abstract, key.2)).or
        (findEntry result key) := by
  induction mapping generalizing result with
  | nil => rfl
  | cons entry mapping ih =>
    obtain ⟨hnone, hrest⟩ := hmapping.tail
    rw [List.foldl_cons, ih hrest, findEntry_addLevels habstracts, findEntry_cons]
    by_cases hnum : entry.1 = key.1
    · rw [if_pos hnum, if_pos hnum, ← hnum, hnone, Option.bind_none, Option.none_or,
        Option.bind_some]
    · rw [if_neg hnum, if_neg hnum]

theorem findEntry_starts (h : Distinct starts) (key : ListKey) :
    findEntry (starts.foldl overrideStart result) key = (findEntry result key).map fun level =>
      { level with start := (findEntry starts key).getD level.start } := by
  induction starts generalizing result with
  | nil => exact Option.map_id'.symm
  | cons entry starts ih =>
    obtain ⟨hnone, hrest⟩ := h.tail
    rw [List.foldl_cons, ih hrest, findEntry_cons, overrideStart]
    cases hfound : findEntry result entry.1 with
    | none =>
      by_cases hkey : entry.1 = key
      · rw [← hkey, hfound]
        rfl
      · rw [if_neg hkey]
    | some numbering =>
      dsimp only
      rw [findEntry_insertEntry]
      by_cases hkey : entry.1 = key
      · rw [if_pos hkey, if_pos hkey, ← hkey, hnone, hfound]
        rfl
      · rw [if_neg hkey, if_neg hkey]

end

/-- What the parser finds for a level of a list is what the part declares for it. -/
theorem parseNumbering_level (events : List XmlEvent) (key : ListKey) :
    findEntry (parseNumbering events) key = (NumberingScan.of events).level key := by
  have hdistinct := numberingScan_distinct events
  rw [parseNumbering, findEntry_starts hdistinct.starts]
  have hlevels : _ = Option.or _ (findEntry ([] : List (ListKey × Numbering)) key) :=
    findEntry_levels hdistinct.abstracts hdistinct.mapping key
  rw [show findEntry ([] : List (ListKey × Numbering)) key = none from rfl, Option.or_none]
    at hlevels
  rw [show (NumberingScan.of events).levels = _ from rfl, NumberingScan.level, ← hlevels]
  rfl

end IntoMarkdown.Docx
