import IntoMarkdown.Asr.Labels

/-! # Relabelled speakers

Relabelling joins what the clusters join and nothing else. Labels of its own are numbers in the
order in which the speakers are first heard. -/

namespace IntoMarkdown.Asr
open Ir Lib Lib.Strings

/-- Each label that was not there before has the next number. -/
def InOrder (ids : List Text) : Prop :=
  ∀ before id after, ids = before ++ id :: after → id ∉ before →
    id = speakerLabel (before.dedup.length + 1)

section
variable {remap : List (Text × Text)} {ids : List Text} {segments : List Segment}

theorem mapSpeaker_id (segment : Segment) : mapSpeaker (fun id => id) segment = segment := by
  have htokens : segment.tokens.map (fun token => { token with
      speaker := token.speaker.map fun id => id }) = segment.tokens := by
    refine (List.map_congr_left fun token _ => ?_).trans (List.map_id _)
    rw [Option.map_id']
    rfl
  rw [mapSpeaker, htokens, Option.map_id']

theorem mapSpeaker_comp (f g : Text → Text) (segment : Segment) :
    mapSpeaker g (mapSpeaker f segment) = mapSpeaker (g ∘ f) segment := by
  simp only [mapSpeaker, Option.map_map, List.map_map, Function.comp_def]

theorem labels_mapSpeaker (f : Text → Text) (segment : Segment) :
    labels (mapSpeaker f segment) = (labels segment).map f := by
  rw [labels, labels, mapSpeaker, List.map_append, List.map_filterMap, List.filterMap_map]
  congr 1
  cases segment.speaker <;> rfl

theorem remapSpeakers_eq (remap : List (Text × Text)) (segments : List Segment) :
    remapSpeakers remap segments = segments.map (mapSpeaker (target remap)) := by
  unfold remapSpeakers
  split
  · next hnil =>
    refine (List.map_id _).symm.trans (List.map_congr_left fun segment _ => ?_)
    rw [hnil]
    exact (mapSpeaker_id segment).symm
  · rfl

/-! ## Numbers in order -/

theorem isSome_lookup_iff {id : Text} :
    (remap.lookup id).isSome = true ↔ id ∈ remap.map Prod.fst := by
  rw [List.lookup_isSome_iff, List.mem_map]
  constructor
  · rintro ⟨pair, hpair, hid⟩
    exact ⟨pair, hpair, (beq_iff_eq.mp hid).symm⟩
  · rintro ⟨pair, hpair, rfl⟩
    exact ⟨pair, hpair, beq_self_eq_true _⟩

/-- The map has a label for each one that was seen. -/
structure Seen (ids : List Text) (remap : List (Text × Text)) : Prop where
  numbered : Numbered remap
  keys : (remap.map Prod.fst).Nodup
  mem : ∀ id, id ∈ remap.map Prod.fst ↔ id ∈ ids

theorem Seen.addLabel (h : Seen ids remap) (id : Text) : Seen (ids ++ [id]) (addLabel remap id) := by
  refine ⟨h.numbered.addLabel id, ?_, fun other => ?_⟩
  · rw [Asr.addLabel]
    split
    · exact h.keys
    · next hnone =>
      rw [List.map_append]
      refine h.keys.append (List.nodup_singleton _) (List.disjoint_singleton.mpr ?_)
      exact fun hmem => hnone (isSome_lookup_iff.mpr hmem)
  · rw [← isSome_lookup_iff, lookup_addLabel, Bool.or_eq_true, isSome_lookup_iff, h.mem,
      beq_iff_eq, List.mem_append, List.mem_singleton]

theorem Seen.foldl (h : Seen ids remap) (more : List Text) :
    Seen (ids ++ more) (more.foldl Asr.addLabel remap) := by
  induction more generalizing ids remap with
  | nil => rwa [List.append_nil]
  | cons id more ih =>
    have hrest := ih (h.addLabel id)
    rwa [List.append_assoc] at hrest

theorem seen_nil : Seen [] [] where
  numbered := rfl
  keys := List.nodup_nil
  mem _ := Iff.rfl

theorem seen_foldl (ids : List Text) : Seen ids (ids.foldl addLabel []) := seen_nil.foldl ids

theorem Seen.length (h : Seen ids remap) : remap.length = ids.dedup.length := by
  have hperm : (remap.map Prod.fst).Perm ids.dedup :=
    (List.perm_ext_iff_of_nodup h.keys ids.nodup_dedup).mpr fun id => by
      rw [h.mem, List.mem_dedup]
  rw [← hperm.length_eq, List.length_map]

theorem prefix_foldl (remap : List (Text × Text)) (ids : List Text) :
    remap <+: ids.foldl addLabel remap := by
  induction ids generalizing remap with
  | nil => exact List.prefix_refl remap
  | cons id ids ih =>
    refine List.IsPrefix.trans ?_ (ih (addLabel remap id))
    rw [addLabel]
    split
    · exact List.prefix_refl remap
    · exact List.prefix_append _ _

theorem lookup_prefix {remap' : List (Text × Text)} (h : remap <+: remap') {id label : Text}
    (hlookup : remap.lookup id = some label) : remap'.lookup id = some label := by
  obtain ⟨more, rfl⟩ := h
  rw [List.lookup_append, hlookup]
  rfl

/-- A label that is new has the next number. -/
theorem target_foldl {before after : List Text} {id : Text} (hnew : id ∉ before) :
    target ((before ++ id :: after).foldl addLabel []) id =
      speakerLabel (before.dedup.length + 1) := by
  have hbefore := seen_foldl before
  have hnone : ¬ ((before.foldl addLabel []).lookup id).isSome = true := by
    rw [isSome_lookup_iff, hbefore.mem]
    exact hnew
  refine target_of_lookup ?_
  rw [List.foldl_append, List.foldl_cons]
  refine lookup_prefix (prefix_foldl _ after) ?_
  rw [addLabel, if_neg hnone, List.lookup_append, Option.not_isSome_iff_eq_none.mp hnone,
    hbefore.length, Option.none_or, List.lookup_cons, beq_self_eq_true]

theorem target_injOn {a b : Text} (ha : a ∈ ids) (hb : b ∈ ids)
    (h : target (ids.foldl addLabel []) a = target (ids.foldl addLabel []) b) : a = b := by
  have hseen := seen_foldl ids
  exact hseen.numbered.target_injective (isSome_lookup_iff.mpr ((hseen.mem a).mpr ha))
    (isSome_lookup_iff.mpr ((hseen.mem b).mpr hb)) h

theorem length_dedup_map {f : Text → Text} (hf : ∀ a ∈ ids, ∀ b ∈ ids, f a = f b → a = b) :
    (ids.map f).dedup.length = ids.dedup.length := by
  have hnodup : (ids.dedup.map f).Nodup := ids.nodup_dedup.map_on fun a ha b hb =>
    hf a (List.mem_dedup.mp ha) b (List.mem_dedup.mp hb)
  have hperm : (ids.map f).dedup.Perm (ids.dedup.map f) :=
    (List.perm_ext_iff_of_nodup (List.nodup_dedup _) hnodup).mpr fun label => by
      simp only [List.mem_dedup, List.mem_map]
  rw [hperm.length_eq, List.length_map]

theorem inOrder_map (ids : List Text) :
    InOrder (ids.map (target (ids.foldl addLabel []))) := by
  intro before label after hids hnew
  obtain ⟨first, rest, rfl, rfl, hrest⟩ := List.map_eq_append_iff.mp hids
  obtain ⟨id, more, rfl, rfl, rfl⟩ := List.map_eq_cons_iff.mp hrest
  have hid : id ∉ first := fun hmem => hnew (List.mem_map_of_mem hmem)
  rw [target_foldl hid, length_dedup_map fun a ha b hb => target_injOn
    (List.mem_append_left _ ha) (List.mem_append_left _ hb)]

/-- **Labels.** Two labels become one exactly where their clusters are joined, and new labels are
numbered as they are first heard. -/
theorem relabelled_same_iff (remap : List (Text × Text)) (expected : Bool)
    (segments : List Segment) :
    ∃ rename : Text → Text, relabelled remap expected segments = segments.map (mapSpeaker rename) ∧
      (∀ a ∈ segments.flatMap labels, ∀ b ∈ segments.flatMap labels,
        rename a = rename b ↔ target remap a = target remap b) ∧
      (expected = false → InOrder ((relabelled remap expected segments).flatMap labels)) := by
  cases expected with
  | true => exact ⟨target remap, remapSpeakers_eq remap segments, fun _ _ _ _ => Iff.rfl,
      fun h => by cases h⟩
  | false =>
    have hlabels (f : Text → Text) : (segments.map (mapSpeaker f)).flatMap labels =
        (segments.flatMap labels).map f := by
      rw [List.flatMap_map, List.map_flatMap]
      exact List.flatMap_congr fun segment _ => labels_mapSpeaker f segment
    have hcompact : relabelled remap false segments = segments.map (mapSpeaker
        (target (((segments.flatMap labels).map (target remap)).foldl addLabel []) ∘
          target remap)) := by
      show compactSpeakerLabels (remapSpeakers remap segments) = _
      rw [compactSpeakerLabels, remapSpeakers_eq, remapSpeakers_eq, compactRemap, hlabels,
        List.map_map]
      exact List.map_congr_left fun segment _ => mapSpeaker_comp _ _ segment
    refine ⟨_, hcompact, fun a ha b hb => ⟨fun h => ?_, fun h => ?_⟩, fun _ => ?_⟩
    · exact target_injOn (List.mem_map_of_mem ha) (List.mem_map_of_mem hb) h
    · exact congrArg (target _) h
    · rw [hcompact, hlabels, ← List.map_map]
      exact inOrder_map _

end

end IntoMarkdown.Asr
