import IntoMarkdown.Render.Blocks
import IntoMarkdown.Render.Planned

/-! # The order of the inventory

Two plans of the same assets render a document alike, and in a plan an id with bytes has
one entry, whose bytes are its own. -/

namespace IntoMarkdown.Render
open Ir Lib Lib.Strings

/-! ## Names of files -/

theorem length_of_hex {sha256 : Text} (h : sha256.all isLowercaseHex = true) :
    byteLength sha256 = sha256.length := by
  induction sha256 with
  | nil => rfl
  | cons c rest ih =>
    rw [List.all_cons, Bool.and_eq_true] at h
    have hsize : c.utf8Size = 1 := by
      rw [Char.utf8Size_eq_one_iff, UInt32.le_iff_toNat_le]
      have hhex := h.1
      simp only [isLowercaseHex, isAsciiDigit, Bool.or_eq_true, Bool.and_eq_true,
        decide_eq_true_eq] at hhex
      change c.toNat ≤ 127
      omega
    rw [byteLength_cons, hsize, ih h.2, List.length_cons, Nat.add_comm]

/-- The digest can be read from the name. -/
theorem filename_digest {sha256 mediaType filename : Text}
    (h : assetFilenameFromSha256 sha256 mediaType = .ok filename) :
    (filename.drop 6).take 64 = sha256 := by
  obtain ⟨hcanonical, h⟩ := refuse_bind_ok.mp h
  obtain ⟨normalized, -, h⟩ := ok_bind h
  obtain rfl := Except.ok.inj h
  rw [not_or, not_not, not_not] at hcanonical
  have hlength : sha256.length = 64 := (length_of_hex hcanonical.2).symm.trans hcanonical.1
  have hstart : "asset-".toList.length = 6 := rfl
  rw [List.append_assoc, ← hstart, List.drop_left, ← hlength, List.take_left]

/-! ## Faithful plans -/

/-- Every asset with bytes is in one entry, and an entry has assets of the same content. -/
structure Faithful (assets : List Asset) (plan : AssetPlan) : Prop where
  mapped : ∀ asset ∈ assets, asset.bytes ≠ [] → ∃ k entry source,
    (plan.reference asset.id).bind PlannedAssetReference.entryIndex = some k ∧
      plan.entries[k]? = some entry ∧ asset.id ∈ entry.assetIds ∧
      assets[entry.sourceIndex]? = some source ∧ source.bytes = asset.bytes ∧
      ∀ j other, plan.entries[j]? = some other → asset.id ∈ other.assetIds → j = k
  filenames : (plan.entries.map PlannedAsset.filename).Nodup
  shared : ∀ entry ∈ plan.entries, ∀ a ∈ assets, ∀ b ∈ assets,
    a.id ∈ entry.assetIds → b.id ∈ entry.assetIds →
      a.bytes = b.bytes ∧ toAsciiLowercase a.mediaType = toAsciiLowercase b.mediaType

section
variable {u : Unicode} {x : External} {rules : EvidenceRules} {layout : Layout}
  {document : Document} {assets assets' : List Asset} {options : ConversionOptions}
  {plan plan' : AssetPlan} {entries : List PlannedAsset} {properties : List (Text × Text)}

/-- Entries of one digest are one entry. -/
theorem Entries.index_unique (h : Entries x options assets entries) {j k : Nat}
    {a b : PlannedAsset} (hj : entries[j]? = some a) (hk : entries[k]? = some b)
    (hsame : a.sha256 = b.sha256) : j = k := by
  have hbound : j < (entries.map PlannedAsset.sha256).length :=
    List.length_map PlannedAsset.sha256 ▸ (List.getElem?_eq_some_iff.mp hj).1
  refine (List.getElem?_inj hbound h.digests).mp ?_
  rw [List.getElem?_map, List.getElem?_map, hj, hk, Option.map_some, Option.map_some, hsame]

theorem Entries.filenames (h : Entries x options assets entries) :
    (entries.map PlannedAsset.filename).Nodup := by
  have hdigest : entries.map PlannedAsset.sha256 =
      (entries.map PlannedAsset.filename).map fun filename => (filename.drop 6).take 64 := by
    rw [List.map_map]
    refine List.map_congr_left fun entry hentry => ?_
    obtain ⟨first, -, -, hsha256, hfilename⟩ := (h.made entry hentry).source
    exact hsha256 ▸ (filename_digest hfilename).symm
  exact List.Nodup.of_map _ (hdigest ▸ h.digests)

theorem planAssets_faithful
    (h : planAssets x rules layout document assets options = .ok plan) :
    Faithful assets plan := by
  have hconsistent := (Plannable.of_ok h).consistent
  obtain ⟨hentries, hresolves, -⟩ := planAssets_ok h
  refine ⟨fun asset hasset hne => ?_, hentries.filenames, fun entry hentry a ha b hb hina hinb => ?_⟩
  · obtain ⟨reference, k, entry, hreference, hindex, hget, hin⟩ :=
      hresolves.entry asset hasset hne
    have hmem := List.mem_of_getElem? hget
    obtain ⟨source, hsource, hsourceNe, hsourceSha, -⟩ := (hentries.made entry hmem).source
    have hsha256 := (hentries.of_id hconsistent.nodup hasset hmem hin).2
    refine ⟨k, entry, source, ?_, hget, hin, hsource, ?_, fun j other hother hinother => ?_⟩
    · rw [hreference, Option.bind_some, hindex]
    · exact (hconsistent.digests source (List.mem_of_getElem? hsource) asset hasset hsourceNe hne
        (hsourceSha.trans hsha256.symm)).1
    · have hsame := (hentries.of_id hconsistent.nodup hasset (List.mem_of_getElem? hother)
        hinother).2
      exact hentries.index_unique hother hget (hsame.symm.trans hsha256)
  · obtain ⟨haNe, haSha⟩ := hentries.of_id hconsistent.nodup ha hentry hina
    obtain ⟨hbNe, hbSha⟩ := hentries.of_id hconsistent.nodup hb hentry hinb
    exact hconsistent.digests a ha b hb haNe hbNe (haSha.trans hbSha.symm)

/-- Distinct contents of one digest are refused. -/
theorem planAssets_collision {a b : Asset} (ha : a ∈ assets) (hb : b ∈ assets)
    (haNe : a.bytes ≠ []) (hbNe : b.bytes ≠ []) (hbytes : a.bytes ≠ b.bytes)
    (hsha256 : x.sha256Hex a.bytes = x.sha256Hex b.bytes) :
    ∃ e, planAssets x rules layout document assets options = .error e := by
  cases h : planAssets x rules layout document assets options with
  | error e => exact ⟨e, rfl⟩
  | ok plan =>
    have hconsistent := (Plannable.of_ok h).consistent
    exact absurd (hconsistent.digests a ha b hb haNe hbNe hsha256).1 hbytes

/-! ## Rendering with two plans -/

theorem imageTarget_congr (h : Resolves x options assets plan)
    (h' : Resolves x options assets' plan') (hsame : ∀ id, assetOf assets id = assetOf assets' id) :
    imageTarget ⟨u, plan, assets, options, properties⟩ =
      imageTarget ⟨u, plan', assets', options, properties⟩ := by
  funext id asset
  unfold imageTarget
  dsimp only
  rw [h.uri, h'.uri, uriOf_congr hsame]

theorem renderImage_congr (h : Resolves x options assets plan)
    (h' : Resolves x options assets' plan') (hsame : ∀ id, assetOf assets id = assetOf assets' id) :
    renderImage ⟨u, plan, assets, options, properties⟩ =
      renderImage ⟨u, plan', assets', options, properties⟩ := by
  funext id alt page
  unfold renderImage
  dsimp only
  rw [h.asset, h'.asset, hsame, imageTarget_congr h h' hsame]

theorem renderBlock_congr (h : Resolves x options assets plan)
    (h' : Resolves x options assets' plan') (hsame : ∀ id, assetOf assets id = assetOf assets' id)
    (renderInner : NodesRenderer) :
    renderBlock ⟨u, plan, assets, options, properties⟩ renderInner =
      renderBlock ⟨u, plan', assets', options, properties⟩ renderInner := by
  funext node ic
  obtain ⟨id, block, provenance⟩ := node
  cases block with
  | image asset alt => exact congrFun₃ (renderImage_congr h h' hsame) asset alt provenance.page
  | _ => rfl

theorem renderBlocksIn_congr (h : Resolves x options assets plan)
    (h' : Resolves x options assets' plan') (hsame : ∀ id, assetOf assets id = assetOf assets' id)
    (levels : Nat) : renderBlocksIn ⟨u, plan, assets, options, properties⟩ levels =
      renderBlocksIn ⟨u, plan', assets', options, properties⟩ levels := by
  induction levels with
  | zero => rfl
  | succ levels ih =>
    funext nodes ic
    simp only [renderBlocksIn, ih, renderBlock_congr h h' hsame]

/-- A document is rendered alike for every order of a planned inventory. -/
theorem render_perm (u : Unicode)
    (h : planAssets x rules layout document assets options = .ok plan)
    (hperm : assets.Perm assets') :
    render u x rules layout document assets options =
      render u x rules layout document assets' options := by
  obtain ⟨plan', h'⟩ := planAssets_perm h hperm
  obtain ⟨-, hresolves, -⟩ := planAssets_ok h
  obtain ⟨-, hresolves', -⟩ := planAssets_ok h'
  have hsame : ∀ id, assetOf assets id = assetOf assets' id := fun id =>
    assetOf_perm (Plannable.of_ok h).consistent.nodup hperm
  unfold render
  rw [h, h']
  simp only [bind, Except.bind, renderBlocksIn_congr hresolves hresolves' hsame]

/-- Planning does not depend on the order of the inventory, and a plan is faithful to it. -/
theorem planning_independent_faithful (hperm : assets.Perm assets') :
    ((∃ plan, planAssets x rules layout document assets options = .ok plan) ↔
      ∃ plan, planAssets x rules layout document assets' options = .ok plan) ∧
    (∀ plan, planAssets x rules layout document assets options = .ok plan →
      Faithful assets plan ∧ ∀ u : Unicode, render u x rules layout document assets options =
        render u x rules layout document assets' options) ∧
    ∀ a ∈ assets, ∀ b ∈ assets, a.bytes ≠ [] → b.bytes ≠ [] → a.bytes ≠ b.bytes →
      x.sha256Hex a.bytes = x.sha256Hex b.bytes →
        ∃ e, planAssets x rules layout document assets options = .error e := by
  refine ⟨⟨?_, ?_⟩, fun plan h => ⟨planAssets_faithful h, fun u => render_perm u h hperm⟩,
    fun a ha b hb => planAssets_collision ha hb⟩
  · rintro ⟨plan, h⟩
    exact planAssets_perm h hperm
  · rintro ⟨plan, h⟩
    exact planAssets_perm h hperm.symm

end

/-! ## Two orders -/

/-- The digests of the two contents below. -/
def twoDigests : External where
  sha256Hex bytes :=
    if bytes = [97] then
      "ca978112ca1bbdcafac231b39a23dc4da786eff8147c4e72b9807785afee48bb".toList
    else "3e23e8160039594a33894f6564e1b1348bbd7a0088d42c4acb73eeaed59c009d".toList
  canonicalExternalAssetUri _ := none

def imageDocument : Document :=
  ⟨1, [], [.mk "i".toList (.image "second".toList none) ⟨"docx".toList, none, []⟩]⟩

def firstAsset : Asset := ⟨"first".toList, "image/png".toList, [97], none⟩

def secondAsset : Asset := ⟨"second".toList, "image/png".toList, [98], none⟩

theorem two_orders_planned :
    ((∃ plan, planAssets twoDigests .plain ⟨1, 1⟩ imageDocument
        [firstAsset, secondAsset] .default = .ok plan) ↔
      ∃ plan, planAssets twoDigests .plain ⟨1, 1⟩ imageDocument
        [secondAsset, firstAsset] .default = .ok plan) ∧
    (∀ plan, planAssets twoDigests .plain ⟨1, 1⟩ imageDocument
        [firstAsset, secondAsset] .default = .ok plan →
      Faithful [firstAsset, secondAsset] plan ∧ ∀ u : Unicode,
        render u twoDigests .plain ⟨1, 1⟩ imageDocument [firstAsset, secondAsset]
          .default =
        render u twoDigests .plain ⟨1, 1⟩ imageDocument [secondAsset, firstAsset]
          .default) ∧
    ∀ a ∈ [firstAsset, secondAsset], ∀ b ∈ [firstAsset, secondAsset], a.bytes ≠ [] →
      b.bytes ≠ [] → a.bytes ≠ b.bytes →
        twoDigests.sha256Hex a.bytes = twoDigests.sha256Hex b.bytes →
          ∃ e, planAssets twoDigests .plain ⟨1, 1⟩ imageDocument
            [firstAsset, secondAsset] .default = .error e :=
  planning_independent_faithful (.swap secondAsset firstAsset [])

end IntoMarkdown.Render
