import IntoMarkdown.Render.Assets

/-! # What a plan knows

A plan exists under conditions in which the order of the inventory has no part, and what it
tells of an asset comes from the asset alone. -/

namespace IntoMarkdown.Render
open Ir Lib Lib.Strings

/-! ## Conditions without an order -/

def totalBytes (assets : List Asset) : Nat := (assets.map fun asset => asset.bytes.length).sum

/-- What an asset has to meet by itself. -/
structure Admitted (x : External) (options : ConversionOptions) (asset : Asset) : Prop where
  named : trim asset.id ≠ []
  media : validMediaType asset.mediaType = true
  size : asset.bytes.length ≤ options.maxAssetBytes.toNat
  empty : asset.bytes = [] → validateEmptyAsset x asset options asset.id = .ok ()

/-- What the assets have to meet together. -/
structure Consistent (x : External) (options : ConversionOptions) (assets : List Asset) :
    Prop where
  admitted : ∀ asset ∈ assets, Admitted x options asset
  nodup : (assets.map Asset.id).Nodup
  word : totalBytes assets < 2 ^ 64
  total : totalBytes assets ≤ options.maxTotalAssetBytes.toNat
  digests : ∀ a ∈ assets, ∀ b ∈ assets, a.bytes ≠ [] → b.bytes ≠ [] →
    x.sha256Hex a.bytes = x.sha256Hex b.bytes →
      a.bytes = b.bytes ∧ toAsciiLowercase a.mediaType = toAsciiLowercase b.mediaType

section
variable {x : External} {options : ConversionOptions} {assets done more : List Asset}

theorem totalBytes_append : totalBytes (done ++ more) = totalBytes done + totalBytes more := by
  simp [totalBytes]

theorem totalBytes_singleton (asset : Asset) : totalBytes [asset] = asset.bytes.length := by
  simp [totalBytes]

theorem Consistent.perm (h : Consistent x options assets) (hperm : assets.Perm more) :
    Consistent x options more where
  admitted asset hasset := h.admitted asset (hperm.mem_iff.mpr hasset)
  nodup := (hperm.map Asset.id).nodup_iff.mp h.nodup
  word := by
    rw [totalBytes, ← (hperm.map fun asset => asset.bytes.length).sum_eq]
    exact h.word
  total := by
    rw [totalBytes, ← (hperm.map fun asset => asset.bytes.length).sum_eq]
    exact h.total
  digests a ha b hb := h.digests a (hperm.mem_iff.mpr ha) b (hperm.mem_iff.mpr hb)

theorem Consistent.left (h : Consistent x options (done ++ more)) : Consistent x options done where
  admitted asset hasset := h.admitted asset (List.mem_append_left _ hasset)
  nodup := (List.nodup_append.mp (List.map_append ▸ h.nodup)).1
  word := by
    have hword := h.word
    rw [totalBytes_append] at hword
    omega
  total := by
    have htotal := h.total
    rw [totalBytes_append] at htotal
    omega
  digests a ha b hb :=
    h.digests a (List.mem_append_left _ ha) b (List.mem_append_left _ hb)

theorem consistent_nil : Consistent x options [] where
  admitted := List.forall_mem_nil _
  nodup := List.nodup_nil
  word := by decide
  total := Nat.zero_le _
  digests := List.forall_mem_nil _

/-- One asset more. -/
theorem consistent_snoc {asset : Asset} : Consistent x options (done ++ [asset]) ↔
    Consistent x options done ∧ Admitted x options asset ∧
      (∀ other ∈ done, other.id ≠ asset.id) ∧
      totalBytes done + asset.bytes.length < 2 ^ 64 ∧
      totalBytes done + asset.bytes.length ≤ options.maxTotalAssetBytes.toNat ∧
      (asset.bytes ≠ [] → ∀ other ∈ done, other.bytes ≠ [] →
        x.sha256Hex other.bytes = x.sha256Hex asset.bytes → other.bytes = asset.bytes ∧
          toAsciiLowercase other.mediaType = toAsciiLowercase asset.mediaType) := by
  have hlast : asset ∈ done ++ [asset] := List.mem_append_right _ (List.mem_singleton_self _)
  constructor
  · intro h
    have hword := h.word
    have htotal := h.total
    rw [totalBytes_append, totalBytes_singleton] at hword htotal
    refine ⟨h.left, h.admitted asset hlast, fun other hother hsame => ?_, hword, htotal,
      fun hbytes other hother hne => h.digests other (List.mem_append_left _ hother) asset hlast
        hne hbytes⟩
    have hnodup := h.nodup
    rw [List.map_append] at hnodup
    exact (List.nodup_append.mp hnodup).2.2 _ (List.mem_map_of_mem hother) _
      (List.mem_singleton_self _) hsame
  · rintro ⟨h, hadmitted, hnew, hword, htotal, hdigests⟩
    refine ⟨?_, ?_, ?_, ?_, ?_⟩
    · intro other hother
      rcases List.mem_append.mp hother with hother | hother
      · exact h.admitted other hother
      · exact List.mem_singleton.mp hother ▸ hadmitted
    · rw [List.map_append]
      refine List.nodup_append.mpr ⟨h.nodup, List.nodup_singleton _, fun id hid last hlast => ?_⟩
      obtain ⟨other, hother, rfl⟩ := List.mem_map.mp hid
      rw [List.mem_singleton.mp hlast]
      exact hnew other hother
    · rwa [totalBytes_append, totalBytes_singleton]
    · rwa [totalBytes_append, totalBytes_singleton]
    · intro a ha b hb hane hbne hsame
      rcases List.mem_append.mp ha with hdone | hlast
      · rcases List.mem_append.mp hb with hdone' | hlast'
        · exact h.digests a hdone b hdone' hane hbne hsame
        · obtain rfl := List.mem_singleton.mp hlast'
          exact hdigests hbne a hdone hane hsame
      · obtain rfl := List.mem_singleton.mp hlast
        rcases List.mem_append.mp hb with hdone' | hlast'
        · obtain ⟨hbytes, hmedia⟩ := hdigests hane b hdone' hbne hsame.symm
          exact ⟨hbytes.symm, hmedia.symm⟩
        · obtain rfl := List.mem_singleton.mp hlast'
          exact ⟨rfl, rfl⟩

end

/-! ## The inventory -/

/-- The assets of a group are those of its digest. -/
structure GroupOf (x : External) (done : List Asset) (sha256 : Text) (group : AssetGroup) :
    Prop where
  source : ∃ first, done[group.sourceIndex]? = some first ∧ first.bytes ≠ [] ∧
    x.sha256Hex first.bytes = sha256 ∧ toAsciiLowercase first.mediaType = group.mediaType
  ids : ∀ id, id ∈ group.assetIds ↔
    ∃ asset ∈ done, asset.id = id ∧ asset.bytes ≠ [] ∧ x.sha256Hex asset.bytes = sha256

/-- An inventory of the assets that were added so far. -/
structure Collects (x : External) (options : ConversionOptions) (done : List Asset)
    (inventory : Inventory) : Prop where
  consistent : Consistent x options done
  ids : ∀ id reference, (id, reference) ∈ inventory.byId ↔ reference.entryIndex = none ∧
    ∃ asset, done[reference.sourceIndex]? = some asset ∧ asset.id = id
  total : inventory.total = totalBytes done
  groups : ∀ sha256 group, (sha256, group) ∈ inventory.groups → GroupOf x done sha256 group
  grouped : ∀ asset ∈ done, asset.bytes ≠ [] →
    ∃ group, (x.sha256Hex asset.bytes, group) ∈ inventory.groups

section
variable {x : External} {options : ConversionOptions} {assets done rest : List Asset}
  {asset : Asset} {inventory inventory' : Inventory}

theorem normalizeMediaType_ok_iff {value mediaType : Text} :
    normalizeMediaType value = .ok mediaType ↔
      validMediaType value = true ∧ mediaType = toAsciiLowercase value := by
  rw [normalizeMediaType, refuse_bind_ok, not_not]
  exact and_congr_right' ⟨fun h => (Except.ok.inj h).symm, fun h => h ▸ rfl⟩

theorem collects_empty : Collects x options [] .empty where
  consistent := consistent_nil
  ids id reference := by
    constructor
    · intro h
      exact absurd h (OrderedMap.not_mem_empty _)
    · rintro ⟨-, asset, h, -⟩
      cases h
  total := rfl
  groups sha256 group h := absurd h (OrderedMap.not_mem_empty _)
  grouped := List.forall_mem_nil _

theorem Collects.lookup_none (h : Collects x options done inventory) (id : Text) :
    inventory.byId.lookup id = none ↔ ∀ other ∈ done, other.id ≠ id := by
  rw [OrderedMap.lookup_eq_none]
  constructor
  · intro hnone other hother hsame
    obtain ⟨k, hk, hget⟩ := List.mem_iff_getElem.mp hother
    have hmem : (id, ⟨none, k⟩) ∈ inventory.byId :=
      (h.ids id ⟨none, k⟩).mpr ⟨rfl, other, hget ▸ List.getElem?_eq_getElem hk, hsame⟩
    exact hnone _ hmem rfl
  · intro hnew entry hentry hsame
    obtain ⟨id', reference⟩ := entry
    obtain ⟨-, other, hother, hid⟩ := (h.ids id' reference).mp hentry
    exact hnew other (List.mem_of_getElem? hother) (hid.trans hsame)

theorem getElem?_append_some {done : List Asset} {k : Nat} {a : Asset} (h : done[k]? = some a)
    (more : List Asset) : (done ++ more)[k]? = some a := by
  rw [List.getElem?_append_left (List.getElem?_eq_some_iff.mp h).1]
  exact h

theorem GroupOf.other {sha256 : Text} {group : AssetGroup} (h : GroupOf x done sha256 group)
    (hother : ¬ (asset.bytes ≠ [] ∧ x.sha256Hex asset.bytes = sha256)) :
    GroupOf x (done ++ [asset]) sha256 group where
  source := by
    obtain ⟨first, hfirst, hrest⟩ := h.source
    exact ⟨first, getElem?_append_some hfirst _, hrest⟩
  ids id := by
    rw [h.ids]
    constructor
    · rintro ⟨a, ha, hrest⟩
      exact ⟨a, List.mem_append_left _ ha, hrest⟩
    · rintro ⟨a, ha, hid, hrest⟩
      rcases List.mem_append.mp ha with ha | ha
      · exact ⟨a, ha, hid, hrest⟩
      · obtain rfl := List.mem_singleton.mp ha
        exact absurd hrest hother

/-- The ids after one more. -/
theorem Collects.ids_snoc (h : Collects x options done inventory)
    (hnew : ∀ other ∈ done, other.id ≠ asset.id) (id : Text)
    (reference : PlannedAssetReference) :
    (id, reference) ∈ inventory.byId.insert asset.id ⟨none, done.length⟩ ↔
      reference.entryIndex = none ∧
        ∃ a, (done ++ [asset])[reference.sourceIndex]? = some a ∧ a.id = id := by
  rw [OrderedMap.mem_insert, h.ids]
  constructor
  · rintro (hsame | ⟨⟨hentry, a, ha, hid⟩, -⟩)
    · obtain ⟨rfl, rfl⟩ := Prod.mk.inj hsame
      exact ⟨rfl, asset, List.getElem?_concat_length, rfl⟩
    · exact ⟨hentry, a, getElem?_append_some ha _, hid⟩
  · rintro ⟨hentry, a, ha, hid⟩
    rcases Nat.lt_or_ge reference.sourceIndex done.length with hlt | hge
    · rw [List.getElem?_append_left hlt] at ha
      exact .inr ⟨⟨hentry, a, ha, hid⟩, fun hsame =>
        hnew a (List.mem_of_getElem? ha) (hid.trans hsame)⟩
    · have hindex : reference.sourceIndex = done.length := by
        have hbound := (List.getElem?_eq_some_iff.mp ha).1
        rw [List.length_append, List.length_singleton] at hbound
        omega
      rw [hindex, List.getElem?_concat_length] at ha
      obtain rfl := Option.some.inj ha
      obtain ⟨entryIndex, sourceIndex⟩ := reference
      dsimp only at hentry hindex
      rw [hentry, hindex, hid]
      exact .inl rfl

/-- The inventory after an asset whose content is in the group. -/
def Inventory.put (inventory : Inventory) (x : External) (index : Nat) (asset : Asset)
    (group : Option AssetGroup) : Inventory :=
  ⟨inventory.byId.insert asset.id ⟨none, index⟩,
    (group.map (inventory.groups.insert (x.sha256Hex asset.bytes))).getD inventory.groups,
    inventory.total + asset.bytes.length⟩

/-- What adding an asset checks and what it does. -/
theorem addAsset_ok_iff {index : Nat} :
    addAsset x options assets index asset inventory = .ok inventory' ↔
      Admitted x options asset ∧ inventory.byId.lookup asset.id = none ∧
      inventory.total + asset.bytes.length < 2 ^ 64 ∧
      inventory.total + asset.bytes.length ≤ options.maxTotalAssetBytes.toNat ∧
      ((asset.bytes = [] ∧ inventory' = inventory.put x index asset none) ∨
        (asset.bytes ≠ [] ∧ ∃ group,
          joinGroup assets index asset (toAsciiLowercase asset.mediaType)
            (inventory.groups.lookup (x.sha256Hex asset.bytes)) = .ok group ∧
          inventory' = inventory.put x index asset (some group))) := by
  have hlookup : (¬ (inventory.byId.lookup asset.id).isSome = true) ↔
      inventory.byId.lookup asset.id = none := by
    rw [Option.isSome_iff_ne_none, not_not]
  unfold addAsset
  simp only [refuse_bind_ok, bind_ok_iff (x := normalizeMediaType _), normalizeMediaType_ok_iff,
    hlookup, not_lt, not_le]
  constructor
  · rintro ⟨hnamed, hnew, mediaType, ⟨hmedia, rfl⟩, hsize, hword, htotal, h⟩
    split at h
    · rename_i hbytes
      obtain ⟨_, hempty, h⟩ := ok_bind h
      exact ⟨⟨hnamed, hmedia, hsize, fun _ => hempty⟩, hnew, hword, htotal,
        .inl ⟨hbytes, (Except.ok.inj h).symm⟩⟩
    · rename_i hbytes
      obtain ⟨group, hgroup, h⟩ := ok_bind h
      exact ⟨⟨hnamed, hmedia, hsize, fun hnil => absurd hnil hbytes⟩, hnew, hword, htotal,
        .inr ⟨hbytes, group, hgroup, (Except.ok.inj h).symm⟩⟩
  · rintro ⟨hadmitted, hnew, hword, htotal, ⟨hbytes, rfl⟩ | ⟨hbytes, group, hgroup, rfl⟩⟩
    · refine ⟨hadmitted.named, hnew, _, ⟨hadmitted.media, rfl⟩, hadmitted.size, hword, htotal, ?_⟩
      rw [if_pos hbytes, hadmitted.empty hbytes]
      rfl
    · refine ⟨hadmitted.named, hnew, _, ⟨hadmitted.media, rfl⟩, hadmitted.size, hword, htotal, ?_⟩
      rw [if_neg hbytes, hgroup]
      rfl

theorem getElem?_done {k : Nat} {a : Asset} (h : done[k]? = some a)
    (hassets : assets = done ++ asset :: rest) : assets[k]? = some a :=
  hassets ▸ getElem?_append_some h _

/-- A group is joined by an asset that agrees with all that are in it. -/
theorem joinGroup_some {index : Nat} {mediaType sha256 : Text} {group joined : AssetGroup}
    (h : GroupOf x done sha256 group) (hassets : assets = done ++ asset :: rest)
    (hok : joinGroup assets index asset mediaType (some group) = .ok joined) :
    (∃ first ∈ done, first.bytes = asset.bytes ∧ x.sha256Hex first.bytes = sha256 ∧
      toAsciiLowercase first.mediaType = mediaType) ∧ group.mediaType = mediaType ∧
      joined = { group with assetIds := group.assetIds ++ [asset.id] } := by
  obtain ⟨first, hfirst, -, hsha256, hmedia⟩ := h.source
  obtain ⟨hbytes, hok⟩ := refuse_bind_ok.mp hok
  obtain ⟨hsame, hok⟩ := refuse_bind_ok.mp hok
  rw [getElem?_done hfirst hassets, Option.map_some, not_not] at hbytes
  rw [not_not] at hsame
  exact ⟨⟨first, List.mem_of_getElem? hfirst, Option.some.inj hbytes, hsha256, hmedia.trans hsame⟩,
    hsame, (Except.ok.inj hok).symm⟩

theorem Collects.lookup_group (h : Collects x options done inventory) {sha256 : Text}
    {group : AssetGroup} (hlookup : inventory.groups.lookup sha256 = some group) :
    GroupOf x done sha256 group :=
  h.groups sha256 group (OrderedMap.lookup_eq_some.mp hlookup)

/-- An asset with bytes agrees with the group of its digest. -/
theorem Collects.joined (h : Collects x options done inventory)
    (hassets : assets = done ++ asset :: rest) (hbytes : asset.bytes ≠ []) {group : AssetGroup}
    (hok : joinGroup assets done.length asset (toAsciiLowercase asset.mediaType)
      (inventory.groups.lookup (x.sha256Hex asset.bytes)) = .ok group) :
    GroupOf x (done ++ [asset]) (x.sha256Hex asset.bytes) group ∧
      ∀ other ∈ done, other.bytes ≠ [] → x.sha256Hex other.bytes = x.sha256Hex asset.bytes →
        other.bytes = asset.bytes ∧
          toAsciiLowercase other.mediaType = toAsciiLowercase asset.mediaType := by
  have hlast : asset ∈ done ++ [asset] := List.mem_append_right _ (List.mem_singleton_self _)
  cases hlookup : inventory.groups.lookup (x.sha256Hex asset.bytes) with
  | none =>
    rw [hlookup] at hok
    obtain rfl := Except.ok.inj hok
    have hnone := OrderedMap.lookup_eq_none.mp hlookup
    have hnew : ∀ other ∈ done, other.bytes ≠ [] →
        x.sha256Hex other.bytes ≠ x.sha256Hex asset.bytes := by
      intro other hother hne hsame
      obtain ⟨group, hgroup⟩ := h.grouped other hother hne
      exact hnone _ hgroup hsame
    refine ⟨⟨⟨asset, List.getElem?_concat_length, hbytes, rfl, rfl⟩, fun id => ?_⟩,
      fun other hother hne hsame => absurd hsame (hnew other hother hne)⟩
    rw [List.mem_singleton]
    constructor
    · rintro rfl
      exact ⟨asset, hlast, rfl, hbytes, rfl⟩
    · rintro ⟨a, ha, rfl, hne, hsame⟩
      rcases List.mem_append.mp ha with ha | ha
      · exact absurd hsame (hnew a ha hne)
      · rw [List.mem_singleton.mp ha]
  | some old =>
    rw [hlookup] at hok
    have hold := h.lookup_group hlookup
    obtain ⟨⟨first, hfirst, hfirstBytes, hfirstSha, hfirstMedia⟩, hmedia, rfl⟩ :=
      joinGroup_some hold hassets hok
    have hne : first.bytes ≠ [] := hfirstBytes ▸ hbytes
    refine ⟨⟨?_, fun id => ?_⟩, fun other hother hotherNe hsame => ?_⟩
    · obtain ⟨source, hsource, hrest⟩ := hold.source
      exact ⟨source, getElem?_append_some hsource _, hrest⟩
    · rw [List.mem_append, List.mem_singleton, hold.ids]
      constructor
      · rintro (⟨a, ha, hrest⟩ | rfl)
        · exact ⟨a, List.mem_append_left _ ha, hrest⟩
        · exact ⟨asset, hlast, rfl, hbytes, rfl⟩
      · rintro ⟨a, ha, hid, hrest⟩
        rcases List.mem_append.mp ha with ha | ha
        · exact .inl ⟨a, ha, hid, hrest⟩
        · rw [List.mem_singleton.mp ha] at hid
          exact .inr hid.symm
    · obtain ⟨hsameBytes, hsameMedia⟩ := h.consistent.digests other hother first hfirst hotherNe hne
        (hsame.trans hfirstSha.symm)
      exact ⟨hsameBytes.trans hfirstBytes, hsameMedia.trans hfirstMedia⟩

theorem addAsset_collects (h : Collects x options done inventory)
    (hassets : assets = done ++ asset :: rest)
    (hok : addAsset x options assets done.length asset inventory = .ok inventory') :
    Collects x options (done ++ [asset]) inventory' := by
  obtain ⟨hadmitted, hnone, hword, htotal, hcontent⟩ := addAsset_ok_iff.mp hok
  have hnew := (h.lookup_none asset.id).mp hnone
  rw [h.total] at hword htotal
  rcases hcontent with ⟨hbytes, rfl⟩ | ⟨hbytes, group, hgroup, rfl⟩
  · refine ⟨consistent_snoc.mpr ⟨h.consistent, hadmitted, hnew, hword, htotal,
      fun hne => absurd hbytes hne⟩, h.ids_snoc hnew, ?_, fun sha256 group hmem => ?_, ?_⟩
    · rw [totalBytes_append, totalBytes_singleton, ← h.total]
      rfl
    · exact (h.groups sha256 group hmem).other fun hall => hall.1 hbytes
    · intro other hother hne
      rcases List.mem_append.mp hother with hother | hother
      · exact h.grouped other hother hne
      · exact absurd hbytes (List.mem_singleton.mp hother ▸ hne)
  · obtain ⟨hjoined, hagree⟩ := h.joined hassets hbytes hgroup
    refine ⟨consistent_snoc.mpr ⟨h.consistent, hadmitted, hnew, hword, htotal,
      fun _ => hagree⟩, h.ids_snoc hnew, ?_, fun sha256 other hmem => ?_, ?_⟩
    · rw [totalBytes_append, totalBytes_singleton, ← h.total]
      rfl
    · rcases OrderedMap.mem_insert.mp hmem with hsame | ⟨hmem, hne⟩
      · obtain ⟨rfl, rfl⟩ := Prod.mk.inj hsame
        exact hjoined
      · exact (h.groups sha256 other hmem).other fun hall => hne hall.2.symm
    · intro other hother hne
      by_cases hsame : x.sha256Hex other.bytes = x.sha256Hex asset.bytes
      · exact ⟨group, OrderedMap.mem_insert.mpr (.inl (by rw [hsame]))⟩
      · rcases List.mem_append.mp hother with hother | hother
        · obtain ⟨old, hold⟩ := h.grouped other hother hne
          exact ⟨old, OrderedMap.mem_insert.mpr (.inr ⟨hold, hsame⟩)⟩
        · exact absurd (congrArg (fun a => x.sha256Hex a.bytes) (List.mem_singleton.mp hother))
            hsame

theorem addAsset_succeeds (h : Collects x options done inventory)
    (hassets : assets = done ++ asset :: rest)
    (hconsistent : Consistent x options (done ++ [asset])) :
    ∃ inventory', addAsset x options assets done.length asset inventory = .ok inventory' := by
  obtain ⟨-, hadmitted, hnew, hword, htotal, hdigests⟩ := consistent_snoc.mp hconsistent
  rw [← h.total] at hword htotal
  have hnone := (h.lookup_none asset.id).mpr hnew
  by_cases hbytes : asset.bytes = []
  · exact ⟨_, addAsset_ok_iff.mpr ⟨hadmitted, hnone, hword, htotal, .inl ⟨hbytes, rfl⟩⟩⟩
  have hjoin : ∃ group, joinGroup assets done.length asset (toAsciiLowercase asset.mediaType)
      (inventory.groups.lookup (x.sha256Hex asset.bytes)) = .ok group := by
    cases hlookup : inventory.groups.lookup (x.sha256Hex asset.bytes) with
    | none => exact ⟨_, rfl⟩
    | some old =>
      obtain ⟨first, hfirst, hne, hsha256, hmedia⟩ := (h.lookup_group hlookup).source
      obtain ⟨hsameBytes, hsameMedia⟩ :=
        hdigests hbytes first (List.mem_of_getElem? hfirst) hne hsha256
      refine ⟨_, refuse_bind_ok.mpr ⟨?_, refuse_bind_ok.mpr ⟨?_, rfl⟩⟩⟩
      · rw [getElem?_done hfirst hassets, Option.map_some, hsameBytes]
        exact not_not.mpr rfl
      · exact not_not.mpr (hmedia.symm.trans hsameMedia)
  obtain ⟨group, hgroup⟩ := hjoin
  exact ⟨_, addAsset_ok_iff.mpr
    ⟨hadmitted, hnone, hword, htotal, .inr ⟨hbytes, group, hgroup, rfl⟩⟩⟩

theorem addAssets_collects (h : Collects x options done inventory)
    (hassets : assets = done ++ rest)
    (hok : addAssets x options assets done.length rest inventory = .ok inventory') :
    Collects x options assets inventory' := by
  induction rest generalizing done inventory with
  | nil =>
    obtain rfl := Except.ok.inj hok
    rw [hassets, List.append_nil]
    exact h
  | cons asset rest ih =>
    obtain ⟨next, hnext, hok⟩ := ok_bind hok
    have hstep := addAsset_collects h hassets hnext
    have hlength : done.length + 1 = (done ++ [asset]).length := by simp
    rw [hlength] at hok
    exact ih hstep (by rw [hassets, List.append_assoc]; rfl) hok

theorem addAssets_succeeds (h : Collects x options done inventory)
    (hassets : assets = done ++ rest) (hconsistent : Consistent x options assets) :
    ∃ inventory', addAssets x options assets done.length rest inventory = .ok inventory' := by
  induction rest generalizing done inventory with
  | nil => exact ⟨inventory, rfl⟩
  | cons asset rest ih =>
    have hsplit : assets = (done ++ [asset]) ++ rest := by
      rw [hassets, List.append_assoc]
      rfl
    obtain ⟨next, hnext⟩ := addAsset_succeeds h hassets (hsplit ▸ hconsistent).left
    obtain ⟨last, hlast⟩ := ih (addAsset_collects h hassets hnext) hsplit
    rw [List.length_append, List.length_singleton] at hlast
    exact ⟨last, bind_ok_iff.mpr ⟨next, hnext, hlast⟩⟩

end

/-! ## Entries -/

/-- The name of the file of an asset, from its content and type. -/
def filenameOf (x : External) (asset : Asset) : Except RenderError Text :=
  assetFilenameFromSha256 (x.sha256Hex asset.bytes) (toAsciiLowercase asset.mediaType)

/-- An entry is made from the assets of one digest. -/
structure EntryOf (x : External) (options : ConversionOptions) (assets : List Asset)
    (entry : PlannedAsset) : Prop where
  source : ∃ first, assets[entry.sourceIndex]? = some first ∧ first.bytes ≠ [] ∧
    x.sha256Hex first.bytes = entry.sha256 ∧ filenameOf x first = .ok entry.filename
  ids : ∀ id, id ∈ entry.assetIds ↔
    ∃ asset ∈ assets, asset.id = id ∧ asset.bytes ≠ [] ∧ x.sha256Hex asset.bytes = entry.sha256
  uri : entry.uri = joinUriPrefix options.assetUriPrefix entry.filename

section
variable {x : External} {options : ConversionOptions} {assets : List Asset}
  {inventory : Inventory} {entries : List PlannedAsset} {entry : PlannedAsset}

theorem planEntry_ok {group : Text × AssetGroup} (h : GroupOf x assets group.1 group.2)
    (hok : planEntry options assets group = .ok entry) :
    EntryOf x options assets entry ∧ entry.sha256 = group.1 := by
  obtain ⟨filename, hfilename, hok⟩ := ok_bind hok
  obtain rfl := Except.ok.inj hok
  obtain ⟨first, hfirst, hne, hsha256, hmedia⟩ := h.source
  refine ⟨⟨⟨first, hfirst, hne, hsha256, ?_⟩, fun id => ?_, rfl⟩, rfl⟩
  · rw [filenameOf, hsha256, hmedia]
    exact hfilename
  · rw [List.mem_mergeSort, h.ids]

/-- The entries of an inventory, one for each digest. -/
structure Entries (x : External) (options : ConversionOptions) (assets : List Asset)
    (entries : List PlannedAsset) : Prop where
  made : ∀ entry ∈ entries, EntryOf x options assets entry
  digests : (entries.map PlannedAsset.sha256).Nodup
  covers : ∀ asset ∈ assets, asset.bytes ≠ [] →
    ∃ entry ∈ entries, entry.sha256 = x.sha256Hex asset.bytes

theorem sha256s_of_forall₂ {groups : List (Text × AssetGroup)}
    (hgroups : ∀ group ∈ groups, GroupOf x assets group.1 group.2)
    (h : List.Forall₂ (fun group entry => planEntry options assets group = .ok entry) groups
      entries) :
    (∀ entry ∈ entries, EntryOf x options assets entry) ∧
      entries.map PlannedAsset.sha256 = groups.map Prod.fst := by
  induction h with
  | nil => exact ⟨List.forall_mem_nil _, rfl⟩
  | @cons group entry groups entries hok _ ih =>
    obtain ⟨hgroup, hgroups⟩ := List.forall_mem_cons.mp hgroups
    obtain ⟨hentry, hsha256⟩ := planEntry_ok hgroup hok
    obtain ⟨hmade, hsha256s⟩ := ih hgroups
    exact ⟨List.forall_mem_cons.mpr ⟨hentry, hmade⟩, by
      rw [List.map_cons, List.map_cons, hsha256, hsha256s]⟩

theorem Collects.planned (h : Collects x options assets inventory)
    (hok : inventory.groups.entries.mapM (planEntry options assets) = .ok entries) :
    Entries x options assets entries := by
  have hgroups : ∀ group ∈ inventory.groups.entries, GroupOf x assets group.1 group.2 :=
    fun group hgroup => h.groups group.1 group.2 hgroup
  obtain ⟨hmade, hsha256s⟩ := sha256s_of_forall₂ hgroups (mapM_ok_iff.mp hok)
  refine ⟨hmade, ?_, fun asset hasset hne => ?_⟩
  · rw [hsha256s]
    exact (List.pairwise_map.mpr inventory.groups.sorted).imp fun hlt => hlt.ne
  · obtain ⟨group, hgroup⟩ := h.grouped asset hasset hne
    have hmem : x.sha256Hex asset.bytes ∈ entries.map PlannedAsset.sha256 :=
      hsha256s ▸ List.mem_map_of_mem (f := Prod.fst) hgroup
    obtain ⟨entry, hentry, hsame⟩ := List.mem_map.mp hmem
    exact ⟨entry, hentry, hsame⟩

theorem Entries.perm (h : Entries x options assets entries) {sorted : List PlannedAsset}
    (hperm : sorted.Perm entries) : Entries x options assets sorted where
  made entry hentry := h.made entry (hperm.mem_iff.mp hentry)
  digests := (hperm.map _).nodup_iff.mpr h.digests
  covers asset hasset hne := by
    obtain ⟨entry, hentry, hsame⟩ := h.covers asset hasset hne
    exact ⟨entry, hperm.mem_iff.mpr hentry, hsame⟩

/-- Entries exist when every asset with bytes has a name for its file. -/
theorem Collects.planned_succeeds (h : Collects x options assets inventory)
    (hnamed : ∀ asset ∈ assets, asset.bytes ≠ [] → ∃ filename, filenameOf x asset = .ok filename) :
    ∃ entries, inventory.groups.entries.mapM (planEntry options assets) = .ok entries := by
  refine mapM_succeeds fun group hgroup => ?_
  obtain ⟨first, hfirst, hne, hsha256, hmedia⟩ := (h.groups group.1 group.2 hgroup).source
  obtain ⟨filename, hfilename⟩ := hnamed first (List.mem_of_getElem? hfirst) hne
  rw [filenameOf, hsha256, hmedia] at hfilename
  exact ⟨_, bind_ok_iff.mpr ⟨filename, hfilename, rfl⟩⟩

end

/-! ## References to entries -/

/-- References after some of their ids were given an entry. -/
structure Indexed (given : Text → PlannedAssetReference → PlannedAssetReference → Prop)
    (byId byId' : OrderedMap Text PlannedAssetReference) : Prop where
  missing : ∀ id, byId'.lookup id = none ↔ byId.lookup id = none
  found : ∀ id reference', byId'.lookup id = some reference' → ∃ reference,
    byId.lookup id = some reference ∧ reference'.sourceIndex = reference.sourceIndex ∧
      given id reference reference'

section
variable {byId byId' : OrderedMap Text PlannedAssetReference} {ids : List Text}
  {entryIndex start : Nat} {entries : List PlannedAsset}

theorem indexId_ok {id : Text} (h : indexId entryIndex byId id = .ok byId') :
    ∃ reference, byId.lookup id = some reference ∧
      byId' = byId.insert id { reference with entryIndex := some entryIndex } := by
  unfold indexId at h
  cases hlookup : byId.lookup id with
  | none =>
    rw [hlookup] at h
    cases h
  | some reference =>
    rw [hlookup] at h
    exact ⟨reference, rfl, (Except.ok.inj h).symm⟩

theorem indexIds_ok (h : ids.foldlM (indexId entryIndex) byId = .ok byId') :
    Indexed (fun id reference reference' =>
      (reference'.entryIndex = reference.entryIndex ∧ id ∉ ids) ∨
        (reference'.entryIndex = some entryIndex ∧ id ∈ ids)) byId byId' := by
  induction ids generalizing byId with
  | nil =>
    obtain rfl := Except.ok.inj h
    exact ⟨fun _ => Iff.rfl, fun id reference hlookup =>
      ⟨reference, hlookup, rfl, .inl ⟨rfl, List.not_mem_nil⟩⟩⟩
  | cons first ids ih =>
    rw [List.foldlM_cons] at h
    obtain ⟨next, hnext, h⟩ := ok_bind h
    obtain ⟨old, hold, rfl⟩ := indexId_ok hnext
    obtain ⟨hmissing, hfound⟩ := ih h
    refine ⟨fun id => ?_, fun id reference' hlookup => ?_⟩
    · rw [hmissing, OrderedMap.lookup_insert]
      split
      · rename_i hsame
        rw [hsame, hold]
        simp only [reduceCtorEq]
      · exact Iff.rfl
    · obtain ⟨middle, hmiddle, hsource, hgiven⟩ := hfound id reference' hlookup
      rw [OrderedMap.lookup_insert] at hmiddle
      split at hmiddle
      · rename_i hsame
        obtain rfl := Option.some.inj hmiddle
        refine ⟨old, hsame ▸ hold, hsource, .inr ⟨?_, hsame ▸ List.mem_cons_self⟩⟩
        rcases hgiven with ⟨hentry, -⟩ | ⟨hentry, -⟩
        · exact hentry
        · exact hentry
      · rename_i hother
        refine ⟨middle, hmiddle, hsource, ?_⟩
        rcases hgiven with ⟨hentry, hnot⟩ | ⟨hentry, hin⟩
        · exact .inl ⟨hentry, fun hin => (List.mem_cons.mp hin).elim hother hnot⟩
        · exact .inr ⟨hentry, List.mem_cons_of_mem _ hin⟩

theorem indexIds_succeeds (entryIndex : Nat) (h : ∀ id ∈ ids, byId.lookup id ≠ none) :
    ∃ byId', ids.foldlM (indexId entryIndex) byId = .ok byId' := by
  induction ids generalizing byId with
  | nil => exact ⟨byId, rfl⟩
  | cons first ids ih =>
    obtain ⟨hfirst, hids⟩ := List.forall_mem_cons.mp h
    obtain ⟨reference, hreference⟩ := Option.ne_none_iff_exists'.mp hfirst
    have hnext : indexId entryIndex byId first =
        .ok (byId.insert first { reference with entryIndex := some entryIndex }) := by
      rw [indexId, hreference]
    have hmore : ∀ id ∈ ids, (byId.insert first
        { reference with entryIndex := some entryIndex }).lookup id ≠ none := by
      intro id hid
      rw [OrderedMap.lookup_insert]
      split
      · simp only [ne_eq, reduceCtorEq, not_false_eq_true]
      · exact hids id hid
    obtain ⟨byId', hbyId'⟩ := ih hmore
    exact ⟨byId', by rw [List.foldlM_cons, hnext]; exact hbyId'⟩

theorem indexEntries_ok (h : indexEntries start entries byId = .ok byId') :
    Indexed (fun id reference reference' =>
      (reference'.entryIndex = reference.entryIndex ∧ ∀ entry ∈ entries, id ∉ entry.assetIds) ∨
        ∃ k entry, entries[k]? = some entry ∧ id ∈ entry.assetIds ∧
          reference'.entryIndex = some (start + k)) byId byId' := by
  induction entries generalizing start byId with
  | nil =>
    obtain rfl := Except.ok.inj h
    exact ⟨fun _ => Iff.rfl, fun id reference hlookup =>
      ⟨reference, hlookup, rfl, .inl ⟨rfl, List.forall_mem_nil _⟩⟩⟩
  | cons entry entries ih =>
    obtain ⟨next, hnext, h⟩ := ok_bind h
    obtain ⟨hmissing, hfound⟩ := indexIds_ok hnext
    obtain ⟨hmissing', hfound'⟩ := ih h
    refine ⟨fun id => (hmissing' id).trans (hmissing id), fun id reference' hlookup => ?_⟩
    obtain ⟨middle, hmiddle, hsource', hgiven'⟩ := hfound' id reference' hlookup
    obtain ⟨reference, hreference, hsource, hgiven⟩ := hfound id middle hmiddle
    refine ⟨reference, hreference, hsource'.trans hsource, ?_⟩
    rcases hgiven' with ⟨hentry', hnone⟩ | ⟨k, other, hother, hin, hentry'⟩
    · rcases hgiven with ⟨hentry, hnot⟩ | ⟨hentry, hin⟩
      · exact .inl ⟨hentry'.trans hentry, List.forall_mem_cons.mpr ⟨hnot, hnone⟩⟩
      · exact .inr ⟨0, entry, rfl, hin, hentry'.trans hentry⟩
    · refine .inr ⟨k + 1, other, hother, hin, ?_⟩
      rw [hentry', Nat.add_right_comm, Nat.add_assoc]

theorem indexEntries_succeeds (start : Nat)
    (h : ∀ entry ∈ entries, ∀ id ∈ entry.assetIds, byId.lookup id ≠ none) :
    ∃ byId', indexEntries start entries byId = .ok byId' := by
  induction entries generalizing start byId with
  | nil => exact ⟨byId, rfl⟩
  | cons entry entries ih =>
    obtain ⟨hentry, hentries⟩ := List.forall_mem_cons.mp h
    obtain ⟨next, hnext⟩ := indexIds_succeeds start hentry
    have hkeep : ∀ other ∈ entries, ∀ id ∈ other.assetIds, next.lookup id ≠ none := by
      intro other hother id hid hnone
      exact hentries other hother id hid (((indexIds_ok hnext).missing id).mp hnone)
    obtain ⟨byId', hbyId'⟩ := ih (start + 1) hkeep
    exact ⟨byId', bind_ok_iff.mpr ⟨next, hnext, hbyId'⟩⟩

end

/-! ## Resolution -/

/-- The asset of an id. -/
def assetOf (assets : List Asset) (id : Text) : Option Asset :=
  assets.find? fun asset => asset.id = id

/-- Where the file of an id is. -/
def uriOf (x : External) (options : ConversionOptions) (assets : List Asset) (id : Text) :
    Option Text :=
  (assetOf assets id).bind fun asset =>
    if asset.bytes = [] then none
    else (filenameOf x asset).toOption.map (joinUriPrefix options.assetUriPrefix)

/-- A plan tells of an id what its asset tells. -/
structure Resolves (x : External) (options : ConversionOptions) (assets : List Asset)
    (plan : AssetPlan) : Prop where
  missing : ∀ id, plan.reference id = none ↔ assetOf assets id = none
  asset : ∀ id, ((plan.reference id).bind fun reference => assets[reference.sourceIndex]?) =
    assetOf assets id
  uri : ∀ id, plan.uri id = uriOf x options assets id
  entry : ∀ asset ∈ assets, asset.bytes ≠ [] → ∃ reference k entry,
    plan.reference asset.id = some reference ∧ reference.entryIndex = some k ∧
      plan.entries[k]? = some entry ∧ asset.id ∈ entry.assetIds

section
variable {x : External} {options : ConversionOptions} {assets : List Asset}
  {inventory : Inventory} {entries : List PlannedAsset}
  {byId : OrderedMap Text PlannedAssetReference} {id : Text} {asset : Asset}

theorem assetOf_eq_some (hnodup : (assets.map Asset.id).Nodup) :
    assetOf assets id = some asset ↔ asset ∈ assets ∧ asset.id = id := by
  constructor
  · intro h
    exact ⟨List.mem_of_find?_eq_some h, by simpa using List.find?_some h⟩
  · rintro ⟨hasset, rfl⟩
    cases hfind : assetOf assets asset.id with
    | none => exact absurd (List.find?_eq_none.mp hfind asset hasset) (by simp)
    | some other =>
      have hsame : other.id = asset.id := by simpa using List.find?_some hfind
      have hother := List.mem_of_find?_eq_some hfind
      rw [List.inj_on_of_nodup_map hnodup hother hasset hsame]

theorem assetOf_eq_none : assetOf assets id = none ↔ ∀ asset ∈ assets, asset.id ≠ id := by
  rw [assetOf, List.find?_eq_none]
  simp only [decide_eq_true_eq, ne_eq]

theorem assetOf_perm {assets' : List Asset} (hnodup : (assets.map Asset.id).Nodup)
    (hperm : assets.Perm assets') : assetOf assets id = assetOf assets' id := by
  have hnodup' : (assets'.map Asset.id).Nodup := (hperm.map Asset.id).nodup_iff.mp hnodup
  refine Option.ext fun asset => ?_
  rw [assetOf_eq_some hnodup, assetOf_eq_some hnodup', hperm.mem_iff]

/-- What the inventory has for an id. -/
theorem Collects.lookup_eq_some (h : Collects x options assets inventory)
    {reference : PlannedAssetReference} (hlookup : inventory.byId.lookup id = some reference) :
    reference.entryIndex = none ∧ ∃ asset ∈ assets,
      assets[reference.sourceIndex]? = some asset ∧ asset.id = id := by
  obtain ⟨hentry, asset, hasset, hid⟩ :=
    (h.ids id reference).mp (OrderedMap.lookup_eq_some.mp hlookup)
  exact ⟨hentry, asset, List.mem_of_getElem? hasset, hasset, hid⟩

/-- Every entry of an id is that of its asset. -/
theorem Entries.of_id (h : Entries x options assets entries)
    (hnodup : (assets.map Asset.id).Nodup) (hasset : asset ∈ assets) {entry : PlannedAsset}
    (hentry : entry ∈ entries) (hin : asset.id ∈ entry.assetIds) :
    asset.bytes ≠ [] ∧ x.sha256Hex asset.bytes = entry.sha256 := by
  obtain ⟨other, hother, hsame, hrest⟩ := ((h.made entry hentry).ids asset.id).mp hin
  rwa [List.inj_on_of_nodup_map hnodup hother hasset hsame] at hrest

/-- The name of an entry is that of each of its assets. -/
theorem Entries.filename (h : Entries x options assets entries)
    (hconsistent : Consistent x options assets) (hasset : asset ∈ assets) {entry : PlannedAsset}
    (hentry : entry ∈ entries) (hin : asset.id ∈ entry.assetIds) :
    filenameOf x asset = .ok entry.filename := by
  obtain ⟨hne, hsha256⟩ := h.of_id hconsistent.nodup hasset hentry hin
  obtain ⟨first, hfirst, hfirstNe, hfirstSha, hfilename⟩ := (h.made entry hentry).source
  obtain ⟨hbytes, hmedia⟩ := hconsistent.digests asset hasset first
    (List.mem_of_getElem? hfirst) hne hfirstNe (hsha256.trans hfirstSha.symm)
  rw [filenameOf, hbytes, hmedia]
  exact hfilename

/-- An id with bytes was given the index of an entry that has it. -/
theorem Entries.indexed (h : Entries x options assets entries)
    (hcollects : Collects x options assets inventory)
    (hok : indexEntries 0 entries inventory.byId = .ok byId) (hasset : asset ∈ assets)
    (hne : asset.bytes ≠ []) : ∃ reference k entry, byId.lookup asset.id = some reference ∧
      reference.entryIndex = some k ∧ entries[k]? = some entry ∧ asset.id ∈ entry.assetIds := by
  obtain ⟨hmissing, hfound⟩ := indexEntries_ok hok
  cases hlookup : byId.lookup asset.id with
  | none =>
    rw [hmissing, hcollects.lookup_none] at hlookup
    exact absurd rfl (hlookup asset hasset)
  | some reference =>
    obtain ⟨-, -, -, ⟨-, hnot⟩ | ⟨k, entry, hget, hin, hindex⟩⟩ := hfound asset.id reference hlookup
    · obtain ⟨entry, hentry, hsha256⟩ := h.covers asset hasset hne
      exact absurd (((h.made entry hentry).ids asset.id).mpr
        ⟨asset, hasset, rfl, hne, hsha256.symm⟩) (hnot entry hentry)
    · exact ⟨reference, k, entry, rfl, Nat.zero_add k ▸ hindex, hget, hin⟩

theorem Entries.resolves (h : Entries x options assets entries)
    (hcollects : Collects x options assets inventory)
    (hok : indexEntries 0 entries inventory.byId = .ok byId) :
    Resolves x options assets ⟨entries, byId⟩ := by
  obtain ⟨hmissing, hfound⟩ := indexEntries_ok hok
  have hnodup := hcollects.consistent.nodup
  have hnone : ∀ id, byId.lookup id = none ↔ assetOf assets id = none := by
    intro id
    rw [hmissing, hcollects.lookup_none, assetOf_eq_none]
  refine ⟨hnone, fun id => ?_, fun id => ?_, fun asset hasset hne =>
    h.indexed hcollects hok hasset hne⟩
  · change ((byId.lookup id).bind fun reference => assets[reference.sourceIndex]?) = _
    cases hlookup : byId.lookup id with
    | none => exact ((hnone id).mp hlookup).symm
    | some reference' =>
      obtain ⟨reference, hreference, hsource, -⟩ := hfound id reference' hlookup
      obtain ⟨-, asset, hasset, hget, hid⟩ := hcollects.lookup_eq_some hreference
      rw [Option.bind_some, hsource, hget]
      exact ((assetOf_eq_some hnodup).mpr ⟨hasset, hid⟩).symm
  · change ((byId.lookup id).bind fun reference => reference.entryIndex.bind fun index =>
      (entries[index]?).map PlannedAsset.uri) = _
    rw [uriOf]
    cases hlookup : byId.lookup id with
    | none =>
      rw [(hnone id).mp hlookup]
      rfl
    | some reference' =>
      obtain ⟨reference, hreference, -, hgiven⟩ := hfound id reference' hlookup
      obtain ⟨hentry, asset, hasset, -, rfl⟩ := hcollects.lookup_eq_some hreference
      rw [(assetOf_eq_some hnodup).mpr ⟨hasset, rfl⟩, Option.bind_some, Option.bind_some]
      by_cases hne : asset.bytes = []
      · rw [if_pos hne]
        rcases hgiven with ⟨hsame, -⟩ | ⟨k, entry, hget, hin, -⟩
        · rw [hsame, hentry]
          rfl
        · exact absurd hne (h.of_id hnodup hasset (List.mem_of_getElem? hget) hin).1
      · obtain ⟨_, k, entry, hsame, hindex, hget, hin⟩ := h.indexed hcollects hok hasset hne
        obtain rfl := Option.some.inj (hlookup.symm.trans hsame)
        have hmem := List.mem_of_getElem? hget
        rw [hindex, Option.bind_some, hget, if_neg hne,
          h.filename hcollects.consistent hasset hmem hin, Option.map_some, (h.made entry hmem).uri]
        rfl

end

/-! ## Plans -/

/-- The conditions of a plan before its references are looked at. -/
structure Plannable (x : External) (rules : EvidenceRules) (layout : Layout)
    (document : Document) (assets : List Asset) (options : ConversionOptions) : Prop where
  valid : validateDocument rules layout document = .ok ()
  start : validateAssetUriPrefix options.assetUriPrefix = .ok ()
  consistent : Consistent x options assets
  named : ∀ asset ∈ assets, asset.bytes ≠ [] → ∃ filename, filenameOf x asset = .ok filename

/-- The references of a document, against a plan. -/
def checkPlan (document : Document) (assets : List Asset) (options : ConversionOptions)
    (plan : AssetPlan) : Except RenderError Unit := do
  let referenced ← plannedReferences plan maxDocumentDepth.toNat document.blocks .empty
  checkReferences plan assets options referenced.entries

section
variable {x : External} {rules : EvidenceRules} {layout : Layout} {document : Document}
  {assets assets' : List Asset} {options : ConversionOptions} {plan plan' : AssetPlan}

theorem Plannable.perm (h : Plannable x rules layout document assets options)
    (hperm : assets.Perm assets') : Plannable x rules layout document assets' options where
  valid := h.valid
  start := h.start
  consistent := h.consistent.perm hperm
  named asset hasset := h.named asset (hperm.mem_iff.mpr hasset)

/-- Under its conditions a plan is made, and only the references may be refused. -/
theorem planAssets_eq (h : Plannable x rules layout document assets options) :
    ∃ plan, Entries x options assets plan.entries ∧ Resolves x options assets plan ∧
      planAssets x rules layout document assets options =
        (checkPlan document assets options plan).map fun _ => plan := by
  obtain ⟨inventory, hinventory⟩ :=
    addAssets_succeeds collects_empty (List.nil_append assets).symm h.consistent
  have hcollects := addAssets_collects collects_empty (List.nil_append assets).symm hinventory
  obtain ⟨entries, hentries⟩ := hcollects.planned_succeeds h.named
  have hperm := List.mergeSort_perm entries fun left right => left.filename ≤ right.filename
  have hsorted := (hcollects.planned hentries).perm hperm
  have hknown : ∀ entry ∈ entries.mergeSort fun left right => left.filename ≤ right.filename,
      ∀ id ∈ entry.assetIds, inventory.byId.lookup id ≠ none := by
    intro entry hentry id hid hnone
    obtain ⟨asset, hasset, hsame, -⟩ := ((hsorted.made entry hentry).ids id).mp hid
    exact (hcollects.lookup_none id).mp hnone asset hasset hsame
  obtain ⟨byId, hbyId⟩ := indexEntries_succeeds 0 hknown
  refine ⟨⟨_, byId⟩, hsorted, hsorted.resolves hcollects hbyId, ?_⟩
  rw [List.length_nil] at hinventory
  simp only [planAssets, h.valid, h.start, hinventory, hentries, hbyId, checkPlan, bind,
    Except.bind]
  cases plannedReferences ⟨_, byId⟩ maxDocumentDepth.toNat document.blocks .empty with
  | error e => rfl
  | ok referenced =>
    dsimp only
    cases checkReferences ⟨_, byId⟩ assets options referenced.entries with
    | error e => rfl
    | ok _ => rfl

theorem Plannable.of_ok (h : planAssets x rules layout document assets options = .ok plan) :
    Plannable x rules layout document assets options := by
  obtain ⟨_, hvalid, h⟩ := ok_bind h
  obtain ⟨_, hstart, h⟩ := ok_bind h
  obtain ⟨inventory, hinventory, h⟩ := ok_bind h
  obtain ⟨entries, hentries, -⟩ := ok_bind h
  have hcollects := addAssets_collects collects_empty (List.nil_append assets).symm hinventory
  refine ⟨hvalid, hstart, hcollects.consistent, fun asset hasset hne => ?_⟩
  have hmade := hcollects.planned hentries
  obtain ⟨entry, hentry, hsha256⟩ := hmade.covers asset hasset hne
  have hin := ((hmade.made entry hentry).ids asset.id).mpr
    ⟨asset, hasset, rfl, hne, hsha256.symm⟩
  exact ⟨entry.filename, hmade.filename hcollects.consistent hasset hentry hin⟩

/-- A plan that was made has entries, resolves ids and knows all references. -/
theorem planAssets_ok (h : planAssets x rules layout document assets options = .ok plan) :
    Entries x options assets plan.entries ∧ Resolves x options assets plan ∧
      checkPlan document assets options plan = .ok () := by
  obtain ⟨made, hentries, hresolves, heq⟩ := planAssets_eq (Plannable.of_ok h)
  rw [heq] at h
  obtain ⟨_, hcheck, rfl⟩ := map_ok h
  exact ⟨hentries, hresolves, hcheck⟩

/-! ## Another order -/

theorem plannedReferences_congr
    (h : ∀ id, (plan.reference id).isNone = (plan'.reference id).isNone) (levels : Nat) :
    plannedReferences plan levels = plannedReferences plan' levels := by
  induction levels with
  | zero => rfl
  | succ levels ih =>
    funext nodes referenced
    simp only [plannedReferences, h, ih]

theorem checkReferences_congr
    (h : ∀ id, checkReference plan assets options id = checkReference plan' assets' options id)
    (ids : List (Text × Unit)) :
    checkReferences plan assets options ids = checkReferences plan' assets' options ids := by
  induction ids with
  | nil => rfl
  | cons id ids ih => simp only [checkReferences, h, ih]

/-- The check of a reference, by its asset. -/
theorem Resolves.checkReference (h : Resolves x options assets plan) (id : Text) :
    checkReference plan assets options id =
      (assetOf assets id).elim
        (.error (renderError s!"planned image reference disappeared: {String.ofList id}"))
        fun source => refuse (options.assetMode ≠ .omit ∧ (uriOf x options assets id).isNone ∧
            (source.bytes.isEmpty && source.externalUri.isSome) = false)
          (renderError
            s!"asset {String.ofList id} has no bytes for {options.assetMode.phrase} mode") := by
  have hasset := h.asset id
  unfold Render.checkReference
  cases hreference : plan.reference id with
  | none =>
    rw [(h.missing id).mp hreference]
    rfl
  | some reference =>
    rw [hreference, Option.bind_some] at hasset
    cases hfound : assetOf assets id with
    | none =>
      rw [(h.missing id).mpr hfound] at hreference
      cases hreference
    | some source =>
      rw [hfound] at hasset
      simp only [hasset, Option.any_some, h.uri, Option.elim_some]

theorem uriOf_congr (h : ∀ id, assetOf assets id = assetOf assets' id) (id : Text) :
    uriOf x options assets id = uriOf x options assets' id := by
  rw [uriOf, uriOf, h]

/-- Two plans of the same assets refuse the same references. -/
theorem checkPlan_congr (h : Resolves x options assets plan)
    (h' : Resolves x options assets' plan') (hsame : ∀ id, assetOf assets id = assetOf assets' id) :
    checkPlan document assets options plan = checkPlan document assets' options plan' := by
  have hmissing : ∀ id, (plan.reference id).isNone = (plan'.reference id).isNone := by
    intro id
    rw [Bool.eq_iff_iff, Option.isNone_iff_eq_none, Option.isNone_iff_eq_none, h.missing,
      h'.missing, hsame]
  have hcheck : ∀ id, Render.checkReference plan assets options id =
      Render.checkReference plan' assets' options id := by
    intro id
    rw [h.checkReference, h'.checkReference, hsame, uriOf_congr hsame]
  simp only [checkPlan, plannedReferences_congr hmissing, checkReferences_congr hcheck]

/-- A plan exists for every order of the inventory, or for none. -/
theorem planAssets_perm (h : planAssets x rules layout document assets options = .ok plan)
    (hperm : assets.Perm assets') :
    ∃ plan', planAssets x rules layout document assets' options = .ok plan' := by
  have hplannable := Plannable.of_ok h
  obtain ⟨-, hresolves, hcheck⟩ := planAssets_ok h
  obtain ⟨plan', -, hresolves', heq⟩ := planAssets_eq (hplannable.perm hperm)
  have hsame : ∀ id, assetOf assets id = assetOf assets' id := fun id =>
    assetOf_perm hplannable.consistent.nodup hperm
  rw [checkPlan_congr hresolves hresolves' hsame] at hcheck
  exact ⟨plan', by rw [heq, hcheck]; rfl⟩

end

end IntoMarkdown.Render
