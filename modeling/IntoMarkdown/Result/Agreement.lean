import IntoMarkdown.Result.Visible

/-! # The gate and the summary agree with the renderer

A rendered result is accepted for its Markdown or for evidence that matches its document, and
its summary gives the same class and reason. The counts of the summary leave out an asset that
has neither a payload nor a URI. -/

namespace IntoMarkdown.Result
open Ir Lib Lib.Strings Render

/-! ## Classes -/

/-- What vouches for a result of a class: Markdown to see, or a document as the converter
certified it. -/
def Supports (result : ConversionResult) : ResultContent → Prop
  | .markdown => markdownHasVisibleContent result.markdown = true
  | .emptySource =>
    markdownHasVisibleContent result.markdown = false ∧
      hasReason result.diagnostics emptySourceReasonCode = true ∧
      hasReason result.diagnostics assetOnlyReasonCode = false ∧
      documentContent result.document = .empty ∧ result.assets = []
  | .assetsOnly =>
    markdownHasVisibleContent result.markdown = false ∧
      hasReason result.diagnostics emptySourceReasonCode = false ∧
      documentContent result.document = .assetsOnly ∧ result.assets ≠ []

theorem evidenceFrom_eq (diagnostics : List Diagnostic) (emptySource assetOnly : Bool) :
    evidenceFrom emptySource assetOnly diagnostics =
      (emptySource || hasReason diagnostics emptySourceReasonCode,
        assetOnly || hasReason diagnostics assetOnlyReasonCode) := by
  induction diagnostics generalizing emptySource assetOnly with
  | nil => simp [evidenceFrom, hasReason]
  | cons diagnostic rest ih =>
    have hcons : ∀ code, hasReason (diagnostic :: rest) code =
        (decide (diagnostic.code = code) || hasReason rest code) := fun code => List.any_cons
    rw [evidenceFrom, hcons, hcons, ← Bool.or_assoc, ← Bool.or_assoc]
    split
    · next hboth =>
      obtain ⟨hempty, hasset⟩ := Bool.and_eq_true_iff.mp hboth
      rw [hempty, hasset, Bool.true_or, Bool.true_or]
    · exact ih _ _

theorem evidenceReasons_eq (diagnostics : List Diagnostic) : evidenceReasons diagnostics =
    (hasReason diagnostics emptySourceReasonCode, hasReason diagnostics assetOnlyReasonCode) := by
  simp [evidenceReasons, evidenceFrom_eq]

section
variable {result : ConversionResult}

/-- A result is accepted exactly for what supports its class. -/
theorem content_ok_iff (c : ResultContent) : result.content = .ok c ↔ Supports result c := by
  rw [ConversionResult.content, classifyResult, evidenceReasons_eq]
  cases hshown : markdownHasVisibleContent result.markdown with
  | true =>
    cases c <;> simp [Supports, hshown]
  | false =>
    rw [if_neg Bool.false_ne_true]
    dsimp only
    cases hempty : hasReason result.diagnostics emptySourceReasonCode <;>
      cases hasset : hasReason result.diagnostics assetOnlyReasonCode <;>
      cases hassets : result.assets <;>
      cases hcontent : documentContent result.document <;>
      cases c <;>
      simp [Supports, hshown, hempty, hasset, hassets, hcontent]

theorem content_of_shown (h : markdownHasVisibleContent result.markdown = true) :
    result.content = .ok .markdown := (content_ok_iff .markdown).mpr h

/-! ## Summaries -/

theorem contentClass_intoSummary :
    result.intoSummary.contentClass.toOption = result.content.toOption := by
  have hclass : result.intoSummary.content = result.content.toOption := rfl
  unfold ConversionSummary.contentClass
  rw [hclass]
  cases result.content <;> rfl

theorem reasonCode_intoSummary : result.intoSummary.reasonCode = result.reasonCode := rfl

theorem countU64_eq_zero {count : Nat} : countU64 count = 0 ↔ count = 0 := by
  have hlt : min count (2 ^ 64 - 1) < 2 ^ 64 := by omega
  rw [countU64, ← UInt64.toNat_inj, UInt64.toNat_ofNat_of_lt' hlt, UInt64.toNat_zero]
  omega

theorem countU64_countP_eq_zero {p : Asset → Bool} {assets : List Asset} :
    countU64 (assets.countP p) = 0 ↔ ∀ asset ∈ assets, p asset = false := by
  rw [countU64_eq_zero, List.countP_eq_zero]
  simp

/-- The asset has a payload or can be referred to. -/
def Represented (asset : Asset) : Prop := asset.bytes ≠ [] ∨ asset.externalUri ≠ none

/-- The summary asks of each asset that is represented what the result asks of all. -/
theorem deliverable_summary_iff (payloads externalReferences : Bool) :
    result.intoSummary.assetsAreDeliverable payloads externalReferences = true ↔
      ∀ asset ∈ result.assets, Represented asset →
        (!asset.bytes.isEmpty && payloads || asset.externalUri.isSome && externalReferences) =
          true := by
  have heach : ∀ asset : Asset, ((payloads = true ∨
      (!asset.bytes.isEmpty && asset.externalUri.isNone) = false) ∧
      (externalReferences = true ∨ (asset.bytes.isEmpty && asset.externalUri.isSome) = false)) ∧
      ((payloads = true ∨ externalReferences = true) ∨
        (!asset.bytes.isEmpty && asset.externalUri.isSome) = false) ↔
      (Represented asset → (!asset.bytes.isEmpty && payloads ||
        asset.externalUri.isSome && externalReferences) = true) := by
    rintro ⟨id, mediaType, bytes, externalUri⟩
    cases bytes <;> cases externalUri <;> cases payloads <;> cases externalReferences <;>
      simp [Represented]
  refine Iff.trans ?_ (forall₂_congr fun asset _ => heach asset)
  simp only [ConversionSummary.assetsAreDeliverable, ConversionResult.intoSummary,
    Bool.and_eq_true, Bool.or_eq_true, decide_eq_true_eq, countU64_countP_eq_zero, forall_and,
    forall_or_left]

theorem deliverable_iff (payloads externalReferences : Bool) :
    result.assetsAreDeliverable payloads externalReferences = true ↔
      ∀ asset ∈ result.assets,
        (!asset.bytes.isEmpty && payloads || asset.externalUri.isSome && externalReferences) =
          true := by
  rw [ConversionResult.assetsAreDeliverable, List.all_eq_true]

/-- The counts agree with the assets when each of them is represented. -/
theorem deliverable_agrees_iff :
    (∀ payloads externalReferences,
      result.intoSummary.assetsAreDeliverable payloads externalReferences =
        result.assetsAreDeliverable payloads externalReferences) ↔
      ∀ asset ∈ result.assets, Represented asset := by
  constructor
  · intro h asset hasset
    have hsummary : result.intoSummary.assetsAreDeliverable true true = true := rfl
    have hall := (deliverable_iff true true).mp ((h true true).symm.trans hsummary) asset hasset
    obtain ⟨id, mediaType, bytes, externalUri⟩ := asset
    cases bytes <;> cases externalUri <;> simp_all [Represented]
  · intro h payloads externalReferences
    rw [Bool.eq_iff_iff, deliverable_summary_iff, deliverable_iff]
    exact forall₂_congr fun asset hasset => forall_prop_of_true (h asset hasset)

end

/-! ## Rendered results -/

/-- The gate accepts what is visible or certified, and the summary tells what the result tells. -/
structure Agrees (result : ConversionResult) : Prop where
  visible : contentOutsideNotes result.document = .visible →
    markdownHasVisibleContent result.markdown = true ∧ result.content = .ok .markdown
  accepted : ∀ c, result.content = .ok c ↔ Supports result c
  contentClass : result.intoSummary.contentClass.toOption = result.content.toOption
  reasonCode : result.intoSummary.reasonCode = result.reasonCode
  deliverable : ∀ payloads externalReferences,
    result.intoSummary.assetsAreDeliverable payloads externalReferences =
      result.assetsAreDeliverable payloads externalReferences

section
variable {u : Unicode} {x : External} {rules : EvidenceRules} {layout : Layout}
  {options : ConversionOptions} {result : ConversionResult}

theorem gate_agrees_iff (h : render u x rules layout result.document result.assets options =
    .ok result.markdown) : Agrees result ↔ ∀ asset ∈ result.assets, Represented asset := by
  constructor
  · exact fun hagrees => deliverable_agrees_iff.mp hagrees.deliverable
  · intro hall
    refine ⟨fun hvisible => ?_, content_ok_iff, contentClass_intoSummary, reasonCode_intoSummary,
      deliverable_agrees_iff.mpr hall⟩
    have hshown := shown_render h hvisible
    exact ⟨hshown, content_of_shown hshown⟩

end

/-! ## An asset that is not represented -/

/-- The address of an asset is canonical as it is. -/
def sameUri : External where
  sha256Hex _ := []
  canonicalExternalAssetUri := some

def bareAsset : Asset := ⟨['a'], "image/png".toList, [], none⟩

def linkedAsset : Asset :=
  ⟨['a'], "image/png".toList, [], some "https://example.invalid/image.png".toList⟩

/-- One line of text, with an asset in the inventory that nothing refers to. -/
def unreferenced (asset : Asset) : ConversionResult where
  detectedFormat := none
  document := ⟨1, [], [.mk "paragraph".toList (.paragraph [.text ['x'] []])
    ⟨"docx".toList, none, []⟩]⟩
  markdown := ['x', '\n']
  assets := [asset]
  diagnostics := []
  processingDurationMs := none

theorem gate_agrees_linked :
    Agrees (unreferenced linkedAsset) ↔ ∀ asset ∈ [linkedAsset], Represented asset :=
  @gate_agrees_iff ⟨Char.isAlphanum⟩ sameUri .plain ⟨1, 1⟩ .default (unreferenced linkedAsset)
    (by decide +kernel)

/-- The renderer takes an asset without a payload or a URI; the result cannot deliver it, and
its summary says that it can. -/
theorem bare_asset_delivered :
    render ⟨Char.isAlphanum⟩ sameUri .plain ⟨1, 1⟩ (unreferenced bareAsset).document [bareAsset]
        .default = .ok (unreferenced bareAsset).markdown ∧
      (unreferenced bareAsset).assetsAreDeliverable true true = false ∧
      (unreferenced bareAsset).intoSummary.assetsAreDeliverable true true = true ∧
      ¬ Agrees (unreferenced bareAsset) := by
  refine ⟨by decide +kernel, by decide, by decide, fun hagrees => ?_⟩
  exact absurd (hagrees.deliverable true true) (by decide)

end IntoMarkdown.Result
