import IntoMarkdown.Render.Failures
import IntoMarkdown.Render.Planned

/-! # Rendering is total but for the numbers of lists

A planned document renders when its links and merges are in order and the numbers of its
ordered lists are words. -/

namespace IntoMarkdown.Render
open Ir Lib Lib.Strings Lib.Tiling

/-! ## Entities -/

theorem takeWhile_append_not_mem {tail more : List UInt8} (h : 59 ∈ tail) :
    (tail ++ more).takeWhile (· ≠ 59) = tail.takeWhile (· ≠ 59) := by
  induction tail with
  | nil => cases h
  | cons byte tail ih =>
    by_cases hbyte : byte = 59
    · simp [hbyte]
    · have htail : 59 ∈ tail := (List.mem_cons.mp h).resolve_left fun heq => hbyte heq.symm
      simpa [hbyte] using ih htail

theorem namesCharacter_append {tail more : List UInt8} (h : 59 ∉ more) :
    namesCharacter (tail ++ more) = namesCharacter tail := by
  by_cases htail : 59 ∈ tail
  · have hboth : 59 ∈ tail ++ more := List.mem_append_left _ htail
    simp only [namesCharacter, takeWhile_append_not_mem htail, htail, hboth]
  · have hboth : 59 ∉ tail ++ more := fun hin =>
      (List.mem_append.mp hin).elim htail h
    simp only [namesCharacter, htail, hboth, decide_false, Bool.false_and]

/-- Bytes after the last ampersand and semicolon name no character. -/
theorem containsHtmlEntityBytes_append (bytes : List UInt8) {more : List UInt8}
    (hamp : 38 ∉ more) (hsemi : 59 ∉ more) :
    containsHtmlEntityBytes (bytes ++ more) = containsHtmlEntityBytes bytes := by
  induction bytes with
  | nil =>
    rw [List.nil_append]
    induction more with
    | nil => rfl
    | cons byte more ih =>
      have hbyte : byte ≠ 38 := fun heq => hamp (heq ▸ List.mem_cons_self)
      have hmore := ih (fun hin => hamp (List.mem_cons_of_mem _ hin))
        (fun hin => hsemi (List.mem_cons_of_mem _ hin))
      simp only [containsHtmlEntityBytes, hbyte, decide_false, Bool.false_and, Bool.false_or,
        hmore]
  | cons byte bytes ih =>
    rw [List.cons_append]
    simp only [containsHtmlEntityBytes, namesCharacter_append hsemi, ih]

/-! ## Names of files -/

/-- A character of a file name, a digit, a small letter, a point or a dash. -/
def isFilenameChar (c : Char) : Bool :=
  isAsciiDigit c || (97 ≤ c.toNat && c.toNat ≤ 122) || c = '.' || c = '-'

theorem isFilenameChar_spec {c : Char} (h : isFilenameChar c = true) :
    c ≠ ':' ∧ isControl c = false ∧ c.toNat < 128 ∧ c.toNat ≠ 38 ∧ c.toNat ≠ 59 := by
  have hcolon : ':'.toNat = 58 := rfl
  have hpoint : '.'.toNat = 46 := rfl
  have hdash : '-'.toNat = 45 := rfl
  simp only [isFilenameChar, isAsciiDigit, Bool.or_eq_true, Bool.and_eq_true,
    decide_eq_true_eq] at h
  have hnat : (48 ≤ c.toNat ∧ c.toNat ≤ 57) ∨ (97 ≤ c.toNat ∧ c.toNat ≤ 122) ∨
      c.toNat = 46 ∨ c.toNat = 45 := by
    rcases h with ((h | h) | rfl) | rfl
    · exact .inl h
    · exact .inr (.inl h)
    · exact .inr (.inr (.inl rfl))
    · exact .inr (.inr (.inr rfl))
  refine ⟨fun heq => ?_, ?_, by omega, by omega, by omega⟩
  · rw [heq, hcolon] at hnat
    omega
  · simp only [isControl, Bool.or_eq_false_iff, Bool.and_eq_false_iff, decide_eq_false_iff_not]
    omega

theorem encode_filename {text : Text} (h : text.all isFilenameChar = true) :
    38 ∉ Utf8.encode text ∧ 59 ∉ Utf8.encode text := by
  have hbytes : ∀ byte ∈ Utf8.encode text, byte ≠ 38 ∧ byte ≠ 59 := by
    intro byte hbyte
    obtain ⟨c, hc, hbyte⟩ := List.mem_flatMap.mp hbyte
    obtain ⟨-, -, hascii, hamp, hsemi⟩ := isFilenameChar_spec (List.all_eq_true.mp h c hc)
    rw [Utf8.encodeChar_ascii hascii, List.mem_singleton] at hbyte
    subst hbyte
    constructor
    · intro heq
      have hnat := congrArg UInt8.toNat heq
      rw [UInt8.toNat_ofNat_of_lt' (by exact Nat.lt_trans hascii (by decide))] at hnat
      exact hamp hnat
    · intro heq
      have hnat := congrArg UInt8.toNat heq
      rw [UInt8.toNat_ofNat_of_lt' (by exact Nat.lt_trans hascii (by decide))] at hnat
      exact hsemi hnat
  exact ⟨fun hin => (hbytes 38 hin).1 rfl, fun hin => (hbytes 59 hin).2 rfl⟩

theorem mediaTypeExtension_plain {mediaType extension : Text}
    (h : mediaTypeExtension mediaType = some extension) : extension.all isFilenameChar = true := by
  obtain ⟨row, hrow, rfl⟩ := Option.map_eq_some_iff.mp h
  have hall : ∀ row ∈ mediaTypeExtensions, row.2.toList.all isFilenameChar = true := by decide
  exact hall row (List.mem_of_find?_eq_some hrow)

theorem isLowercaseHex_plain {c : Char} (h : isLowercaseHex c = true) :
    isFilenameChar c = true := by
  simp only [isLowercaseHex, isFilenameChar, Bool.or_eq_true, Bool.and_eq_true,
    decide_eq_true_eq] at h ⊢
  rcases h with h | ⟨hlow, hhigh⟩
  · exact .inl (.inl (.inl h))
  · exact .inl (.inl (.inr ⟨hlow, by omega⟩))

theorem filename_plain {sha256 mediaType filename : Text}
    (h : assetFilenameFromSha256 sha256 mediaType = .ok filename) :
    filename.all isFilenameChar = true := by
  obtain ⟨hcanonical, h⟩ := refuse_bind_ok.mp h
  obtain ⟨normalized, -, h⟩ := ok_bind h
  obtain rfl := Except.ok.inj h
  rw [not_or, not_not] at hcanonical
  have hstart : "asset-".toList.all isFilenameChar = true := by decide
  have hsha256 : sha256.all isFilenameChar = true := List.all_eq_true.mpr fun c hc =>
    isLowercaseHex_plain (List.all_eq_true.mp (not_not.mp hcanonical.2) c hc)
  rw [List.all_append, List.all_append, hstart, hsha256]
  cases hextension : mediaTypeExtension normalized with
  | none => rfl
  | some extension =>
    rw [Option.map_some, Option.getD_some, List.all_cons, mediaTypeExtension_plain hextension]
    rfl

/-! ## Planned URIs are link targets -/

theorem validateLinkTarget_ok {target : Text} (hcontrol : target.any isControl = false)
    (hentity : containsHtmlEntity target = false) (hcolon : ':' ∉ target) :
    validateLinkTarget target = .ok () := by
  unfold validateLinkTarget
  rw [if_neg hcolon, hcontrol, hentity]
  rfl

theorem plannedUri_valid {start : Option Text} {sha256 mediaType filename : Text}
    (hstart : validateAssetUriPrefix start = .ok ())
    (hfilename : assetFilenameFromSha256 sha256 mediaType = .ok filename) :
    validateLinkTarget (joinUriPrefix start filename) = .ok () := by
  have hplain := filename_plain hfilename
  have hspec : ∀ c ∈ filename, c ≠ ':' ∧ isControl c = false := fun c hc =>
    ⟨(isFilenameChar_spec (List.all_eq_true.mp hplain c hc)).1,
      (isFilenameChar_spec (List.all_eq_true.mp hplain c hc)).2.1⟩
  have hcontrol : filename.any isControl = false := List.any_eq_false.mpr fun c hc =>
    Bool.eq_false_iff.mp (hspec c hc).2
  have hcolon : ':' ∉ filename := fun hin => (hspec ':' hin).1 rfl
  obtain ⟨hamp, hsemi⟩ := encode_filename hplain
  cases start with
  | none =>
    refine validateLinkTarget_ok hcontrol ?_ hcolon
    exact containsHtmlEntityBytes_append [] hamp hsemi
  | some start =>
    obtain ⟨hsafe, hstart⟩ := refuse_bind_ok.mp hstart
    obtain ⟨-, hstart⟩ := refuse_bind_ok.mp hstart
    have hstartColon := refuse_ok hstart
    simp only [not_or] at hsafe
    obtain ⟨-, -, -, -, hstartControl, hstartEntity⟩ := hsafe
    have hslash : Utf8.encode ['/'] = [47] := rfl
    refine validateLinkTarget_ok ?_ ?_ ?_
    · rw [joinUriPrefix, List.any_append, List.any_append, Bool.eq_false_iff.mpr hstartControl,
        hcontrol]
      rfl
    · rw [containsHtmlEntity, joinUriPrefix, List.append_assoc, Utf8.encode_append,
        Utf8.encode_append, hslash, containsHtmlEntityBytes_append]
      · exact Bool.eq_false_iff.mpr hstartEntity
      · exact fun hin => (List.mem_cons.mp hin).elim (by decide) hamp
      · exact fun hin => (List.mem_cons.mp hin).elim (by decide) hsemi
    · rw [joinUriPrefix, List.mem_append, List.mem_append, List.mem_singleton]
      rintro ((hin | hin) | hin)
      · exact hstartColon hin
      · exact absurd hin (by decide)
      · exact hcolon hin

/-! ## All nodes -/

def allNodes : Nat → List BlockNode → List BlockNode
  | 0, _ => []
  | levels + 1, nodes => nodes.flatMap fun node =>
      node :: node.block.childLists.flatMap (allNodes levels)

section
variable {bound levels : Nat} {nodes fewer : List BlockNode} {node : BlockNode}

theorem mem_allNodes : node ∈ allNodes (levels + 1) nodes ↔ ∃ top ∈ nodes, node = top ∨
    ∃ children ∈ top.block.childLists, node ∈ allNodes levels children := by
  simp only [allNodes, List.mem_flatMap, List.mem_cons]

theorem allNodes_mono (h : fewer ⊆ nodes) : allNodes levels fewer ⊆ allNodes levels nodes := by
  cases levels with
  | zero => exact List.Subset.refl _
  | succ levels =>
    intro node hnode
    obtain ⟨top, htop, hrest⟩ := mem_allNodes.mp hnode
    exact mem_allNodes.mpr ⟨top, h htop, hrest⟩

/-- Lists that are rendered for a block are parts of the lists in it. -/
theorem renderedLists_within {spreadsheetml : Bool} {block : Block BlockNode}
    {children : List BlockNode} (h : children ∈ renderedLists spreadsheetml block) :
    ∃ whole ∈ block.childLists, children ⊆ whole := by
  cases block with
  | table rows alignments =>
    obtain ⟨row, hrow, cell, hcell, hchildren⟩ := mem_renderedLists_table.mp h
    refine ⟨cell.blocks, List.mem_flatMap.mpr ⟨row, hrow, List.mem_map_of_mem hcell⟩, ?_⟩
    split at hchildren
    · obtain ⟨inner, hinner, rfl⟩ := List.mem_map.mp hchildren
      exact List.cons_subset.mpr ⟨List.mem_of_mem_filter hinner, List.nil_subset _⟩
    · rw [List.mem_singleton.mp hchildren]
      exact List.Subset.refl _
  | _ => exact ⟨children, h, List.Subset.refl _⟩

theorem renderedNodes_subset (assetMode : AssetMode) (spreadsheetml : Bool) :
    renderedNodes assetMode spreadsheetml levels nodes ⊆ allNodes levels nodes := by
  induction levels generalizing nodes with
  | zero => exact List.Subset.refl _
  | succ levels ih =>
    intro node hnode
    obtain ⟨top, htop, hrest⟩ := mem_renderedNodes.mp hnode
    refine mem_allNodes.mpr ⟨top, shownFrom_subset _ _ htop, hrest.imp_right ?_⟩
    rintro ⟨children, hchildren, hin⟩
    obtain ⟨whole, hwhole, hsub⟩ := renderedLists_within hchildren
    exact ⟨whole, hwhole, allNodes_mono hsub (ih hin)⟩

/-- Nodes in a node of a shaped list are among its nodes. -/
theorem children_mem_allNodes (hshaped : Shaped bound levels nodes)
    (hnode : node ∈ allNodes levels nodes) {children : List BlockNode} {inner : BlockNode}
    (hchildren : children ∈ node.block.childLists) (hinner : inner ∈ children) :
    inner ∈ allNodes levels nodes := by
  induction levels generalizing nodes with
  | zero => cases hnode
  | succ levels ih =>
    obtain ⟨top, htop, hnode⟩ := mem_allNodes.mp hnode
    have hlists := (hshaped top htop).2
    refine mem_allNodes.mpr ⟨top, htop, .inr ?_⟩
    rcases hnode with rfl | ⟨whole, hwhole, hnode⟩
    · refine ⟨children, hchildren, ?_⟩
      cases levels with
      | zero =>
        have hnil : children = [] := hlists children hchildren
        rw [hnil] at hinner
        cases hinner
      | succ levels => exact mem_allNodes.mpr ⟨inner, hinner, .inl rfl⟩
    · exact ⟨whole, hwhole, ih (hlists whole hwhole) hnode⟩

end

/-! ## Images -/

section
variable {x : External} {rules : EvidenceRules} {layout : Layout} {document : Document}
  {assets : List Asset} {options : ConversionOptions} {plan : AssetPlan} {levels : Nat}
  {nodes : List BlockNode} {referenced referenced' : OrderedMap Text Unit}

/-- Some image is among the references. -/
def KnowsImage (node : BlockNode) (referenced : OrderedMap Text Unit) : Prop :=
  ∀ asset alt, node.block = .image asset alt → (asset, ()) ∈ referenced

theorem plannedReferences_ok
    (h : plannedReferences plan levels nodes referenced = .ok referenced') :
    (∀ entry ∈ referenced, entry ∈ referenced') ∧
      ∀ node ∈ allNodes levels nodes, KnowsImage node referenced' := by
  induction levels generalizing nodes referenced referenced' with
  | zero =>
    obtain rfl := Except.ok.inj h
    exact ⟨fun _ hentry => hentry, List.forall_mem_nil _⟩
  | succ levels ih =>
    have hmono : ∀ (list : List BlockNode) (a b : OrderedMap Text Unit),
        (∀ entry ∈ a, entry ∈ b) → (∀ node ∈ list, KnowsImage node a) →
          ∀ node ∈ list, KnowsImage node b := fun list a b hle hknows node hnode asset alt hblock =>
      hle _ (hknows node hnode asset alt hblock)
    have hrun := foldlM_ok (fun a b => ∀ entry ∈ a, entry ∈ b)
      (fun top after => ∀ node ∈ top :: top.block.childLists.flatMap (allNodes levels),
        KnowsImage node after)
      (fun _ _ h => h) (fun _ _ _ h h' e he => h' e (h e he))
      (fun top _ _ hle => hmono _ _ _ hle) ?_ h
    · refine ⟨hrun.1, fun node hnode => ?_⟩
      obtain ⟨top, htop, hin⟩ := List.mem_flatMap.mp hnode
      exact hrun.2 top htop node hin
    intro top _ before after hstep
    obtain ⟨id, block, provenance⟩ := top
    have hlists : ∀ lists : List (List BlockNode), ∀ before after, lists.foldlM
        (fun referenced children => plannedReferences plan levels children referenced) before =
          .ok after → (∀ entry ∈ before, entry ∈ after) ∧
        ∀ children ∈ lists, ∀ node ∈ allNodes levels children, KnowsImage node after :=
      fun lists before after hfold => foldlM_ok (fun a b => ∀ entry ∈ a, entry ∈ b)
        (fun children after => ∀ node ∈ allNodes levels children, KnowsImage node after)
        (fun _ _ h => h) (fun _ _ _ h h' e he => h' e (h e he))
        (fun children _ _ hle => hmono _ _ _ hle)
        (fun children _ before after hchildren => ih hchildren) hfold
    by_cases himage : ∃ asset alt, block = .image asset alt
    · obtain ⟨asset, alt, rfl⟩ := himage
      obtain ⟨-, hstep⟩ := refuse_bind_ok.mp hstep
      obtain rfl := Except.ok.inj hstep
      refine ⟨fun entry hentry => ?_, fun node hnode => ?_⟩
      · rw [OrderedMap.mem_insert]
        by_cases hsame : entry.1 = asset
        · exact .inl (Prod.ext hsame rfl)
        · exact .inr ⟨hentry, hsame⟩
      · obtain rfl := List.mem_singleton.mp hnode
        intro asset' alt' hblock
        obtain ⟨rfl, rfl⟩ := Block.image.inj hblock
        exact OrderedMap.mem_insert.mpr (.inl rfl)
    · have hfold : block.childLists.foldlM
          (fun referenced children => plannedReferences plan levels children referenced) before =
            .ok after := by
        cases block with
        | image asset alt => exact absurd ⟨asset, alt, rfl⟩ himage
        | _ => exact hstep
      obtain ⟨hle, hall⟩ := hlists _ _ _ hfold
      refine ⟨hle, List.forall_mem_cons.mpr ⟨fun asset alt hblock => ?_, fun node hnode => ?_⟩⟩
      · exact absurd ⟨asset, alt, hblock⟩ himage
      · obtain ⟨children, hchildren, hin⟩ := List.mem_flatMap.mp hnode
        exact hall children hchildren node hin

theorem checkReferences_ok {ids : List (Text × Unit)}
    (h : checkReferences plan assets options ids = .ok ()) :
    ∀ id ∈ ids, checkReference plan assets options id.1 = .ok () := by
  induction ids with
  | nil => exact List.forall_mem_nil _
  | cons id ids ih =>
    obtain ⟨_, hid, h⟩ := ok_bind h
    exact List.forall_mem_cons.mpr ⟨hid, ih h⟩

theorem validateEmptyAsset_ok {asset : Asset} {id uri : Text}
    (h : validateEmptyAsset x asset options id = .ok ()) (hmode : options.assetMode ≠ .omit)
    (huri : asset.externalUri = some uri) : validateLinkTarget uri = .ok () := by
  rw [validateEmptyAsset, if_neg hmode, huri] at h
  cases htarget : validateLinkTarget uri with
  | ok _ => rfl
  | error e =>
    rw [validateExternalUri, htarget] at h
    cases h

/-- The file of an asset has a place that may be linked. -/
theorem uriOf_valid {id : Text} {asset : Asset} {uri : Text}
    (hstart : validateAssetUriPrefix options.assetUriPrefix = .ok ())
    (hasset : assetOf assets id = some asset) (hne : asset.bytes ≠ [])
    (huri : uriOf x options assets id = some uri) : validateLinkTarget uri = .ok () := by
  rw [uriOf, hasset, Option.bind_some, if_neg hne] at huri
  cases hfilename : filenameOf x asset with
  | error e =>
    rw [hfilename] at huri
    cases huri
  | ok filename =>
    rw [hfilename] at huri
    obtain rfl := Option.some.inj huri
    exact plannedUri_valid hstart hfilename

/-- An image has a target that may be linked. -/
theorem imageTarget_ok {context : RenderContext} {id : Text} {asset : Asset}
    (hresolves : Resolves x context.options assets context.plan)
    (hplannable : Plannable x rules layout document assets context.options)
    (hasset : assetOf assets id = some asset) (hmode : context.options.assetMode ≠ .omit)
    (hcheck : checkReference context.plan assets context.options id = .ok ()) :
    ∃ target, imageTarget context id asset = .ok target ∧
      (context.options.assetMode = .embed ∧ asset.bytes ≠ [] ∨
        validateLinkTarget target = .ok ()) := by
  rw [hresolves.checkReference, hasset, Option.elim_some] at hcheck
  have hgiven := refuse_ok hcheck
  have hmem := ((assetOf_eq_some hplannable.consistent.nodup).mp hasset).1
  unfold imageTarget
  by_cases hbytes : asset.bytes = []
  · rw [if_pos hbytes]
    have hempty := (hplannable.consistent.admitted asset hmem).empty hbytes
    cases huri : asset.externalUri with
    | some uri => exact ⟨uri, rfl, .inr (validateEmptyAsset_ok hempty hmode huri)⟩
    | none =>
      refine absurd ⟨hmode, ?_, ?_⟩ hgiven
      · rw [uriOf, hasset, Option.bind_some, if_pos hbytes]
        rfl
      · rw [huri, Option.isSome_none, Bool.and_false]
  · rw [if_neg hbytes]
    by_cases hembed : context.options.assetMode = .embed
    · rw [hembed]
      exact ⟨_, rfl, .inl ⟨rfl, hbytes⟩⟩
    · cases huri : uriOf x context.options assets id with
      | some uri =>
        refine ⟨uri, ?_, .inr (uriOf_valid hplannable.start hasset hbytes huri)⟩
        rw [hresolves.uri, huri]
        cases hcase : context.options.assetMode with
        | embed => exact absurd hcase hembed
        | _ => rfl
      | none =>
        refine absurd ⟨hmode, ?_, ?_⟩ hgiven
        · rw [huri]
          rfl
        · rw [List.isEmpty_eq_false_iff.mpr hbytes, Bool.false_and]

/-- An image of a plan is rendered. -/
theorem renderImage_ok (context : RenderContext) {id : Text} (alt : Option Text)
    (page : Option UInt32) (hresolves : Resolves x context.options context.assets context.plan)
    (hplannable : Plannable x rules layout document context.assets context.options)
    (hcheck : checkReference context.plan context.assets context.options id = .ok ()) :
    ∃ text, renderImage context id alt page = .ok text := by
  unfold renderImage
  dsimp only
  split
  · exact ⟨_, rfl⟩
  rename_i hmode
  rw [hresolves.asset]
  cases hasset : assetOf context.assets id with
  | none =>
    rw [hresolves.checkReference, hasset] at hcheck
    cases hcheck
  | some asset =>
    obtain ⟨target, htarget, hvalid⟩ := imageTarget_ok hresolves hplannable hasset hmode hcheck
    refine isOk_iff.mp ?_
    simp only [htarget, bind, Except.bind]
    split
    · rfl
    · rename_i hgenerated
      rw [hvalid.resolve_left hgenerated]
      rfl

end

/-! ## Totality -/

/-- Every link of the nodes has a target that is accepted. -/
def LinksAccepted (nodes : List BlockNode) : Prop :=
  ∀ node ∈ nodes, ∀ target ∈ linkTargetsOf (inlineContent node.block),
    validateLinkTarget target = .ok ()

/-- Every line of a list of merges is a range. -/
def MergesFormed (nodes : List BlockNode) : Prop :=
  ∀ node ∈ nodes, ∀ text, node.block = .code (some "xlsx-merge-html".toList) text →
    ∀ line ∈ lines text, (parseMergeSpan line).isSome

section
variable {u : Unicode} {x : External} {rules : EvidenceRules} {layout : Layout}
  {document : Document} {assets : List Asset} {options : ConversionOptions} {plan : AssetPlan}

/-- The nodes of a document. -/
def documentNodes (document : Document) : List BlockNode :=
  allNodes maxDocumentDepth.toNat document.blocks

/-- Tables with spans of the document are written in HTML. -/
def usesHtmlTables (document : Document) : Bool :=
  document.properties.find? (fun property => property.1 = "spreadsheet.encoding".toList)
    |>.any fun property => property.2 = "spreadsheetml".toList

/-- The nodes of a document that rendering comes to. -/
def renderedDocumentNodes (options : ConversionOptions) (document : Document) : List BlockNode :=
  renderedNodes options.assetMode (usesHtmlTables document) maxDocumentDepth.toNat document.blocks

theorem validateDocument_ok (h : validateDocument rules layout document = .ok ()) :
    document.validate rules layout = .ok () := by
  unfold validateDocument at h
  cases hvalid : document.validate rules layout with
  | ok _ => rfl
  | error e =>
    rw [hvalid] at h
    cases h

/-- Only a marker can still fail. -/
theorem failsAt_marker (hplan : planAssets x rules layout document assets options = .ok plan)
    (hlinks : LinksAccepted (documentNodes document))
    (hmerges : MergesFormed (documentNodes document)) {node : BlockNode} {e : RenderError}
    (hnode : node ∈ documentNodes document)
    (h : FailsAt ⟨u, plan, assets, options, document.properties⟩ node e) :
    ¬ MarkersFit node.block := by
  have hplannable := Plannable.of_ok hplan
  obtain ⟨-, hresolves, hcheck⟩ := planAssets_ok hplan
  have hshaped := validate_shaped (validateDocument_ok hplannable.valid)
  have hlink : ∀ inner ∈ documentNodes document,
      ¬ RefusesLink (inlineContent inner.block) e := by
    rintro inner hinner ⟨target, htarget, hrefused⟩
    rw [hlinks inner hinner target htarget] at hrefused
    cases hrefused
  cases h with
  | link h => exact absurd h (hlink node hnode)
  | @htmlLink rows alignments row cell inner hblock hrow hcell hinner h =>
    refine absurd h (hlink inner (children_mem_allNodes hshaped hnode ?_ hinner))
    rw [hblock]
    exact List.mem_flatMap.mpr ⟨row, hrow, List.mem_map_of_mem hcell⟩
  | @merges text hblock h =>
    obtain ⟨-, line, hline, hnone⟩ := renderMergeHtml_error h
    have hsome := hmerges node hnode text hblock line hline
    rw [hnone] at hsome
    cases hsome
  | @image asset alt hblock h =>
    obtain ⟨referenced, hreferenced, hchecked⟩ := ok_bind hcheck
    have hknown := (plannedReferences_ok hreferenced).2 node hnode asset alt hblock
    obtain ⟨text, htext⟩ := renderImage_ok ⟨u, plan, assets, options, document.properties⟩ alt
      node.provenance.page hresolves hplannable
      (checkReferences_ok hchecked (asset, ()) hknown)
    rw [htext] at h
    cases h
  | @marker start items index hblock hindex hoverflow _ =>
    rw [hblock]
    intro hfit
    have hlast : start.toNat + (items.length - 1) < 2 ^ 64 := hfit
    omega

/-- A planned document is rendered exactly when the markers of its lists fit. -/
theorem render_ok_iff (hflavor : toAsciiLowercase options.flavor = "gfm".toList)
    (hplan : planAssets x rules layout document assets options = .ok plan)
    (hlinks : LinksAccepted (documentNodes document))
    (hmerges : MergesFormed (documentNodes document)) :
    (∃ text, render u x rules layout document assets options = .ok text) ↔
      ∀ node ∈ renderedDocumentNodes options document, MarkersFit node.block := by
  have hshaped := validate_shaped (validateDocument_ok (Plannable.of_ok hplan).valid)
  have hrender : render u x rules layout document assets options =
      (do
        let output ← renderBlocksIn ⟨u, plan, assets, options, document.properties⟩
          maxDocumentDepth.toNat document.blocks .normal
        let output := trimBlankLines output
        return if output = [] then [] else output ++ ['\n']) := by
    rw [render, refuse_of_not (not_not_intro hflavor), hplan]
    rfl
  rw [hrender]
  constructor
  · rintro ⟨text, htext⟩
    obtain ⟨output, houtput, -⟩ := ok_bind htext
    exact fun node hnode => (renderBlocksIn_ok (Nat.le_refl _) hshaped houtput node hnode).1
  · intro hfit
    cases houtput : renderBlocksIn ⟨u, plan, assets, options, document.properties⟩
        maxDocumentDepth.toNat document.blocks .normal with
    | ok output => exact ⟨_, rfl⟩
    | error e =>
      obtain ⟨node, hnode, hfails⟩ :=
        renderBlocksIn_error (Nat.le_refl _) (Nat.le_refl _) hshaped houtput
      exact absurd (hfit node hnode) (failsAt_marker hplan hlinks hmerges
        (renderedNodes_subset _ _ hnode) hfails)

end

/-! ## Long lists -/

def noExternal : External where
  sha256Hex _ := []
  canonicalExternalAssetUri _ := none

def paragraphItem (id value : String) : ListItem BlockNode :=
  ⟨none, [.mk id.toList (.paragraph [.text value.toList []]) ⟨"docx".toList, none, []⟩]⟩

/-- A list from the last number on. -/
def lastNumberList (items : List (ListItem BlockNode)) : Document :=
  ⟨1, [], [.mk "list".toList (.list .ordered (2 ^ 64 - 1) items) ⟨"docx".toList, none, []⟩]⟩

theorem lastNumberList_accepted (items : List (ListItem BlockNode))
    (h : ∀ item ∈ items, ∃ id value, item = paragraphItem id value) :
    LinksAccepted (documentNodes (lastNumberList items)) ∧
      MergesFormed (documentNodes (lastNumberList items)) := by
  have hnodes : ∀ node ∈ documentNodes (lastNumberList items),
      linkTargetsOf (inlineContent node.block) = [] ∧ ∀ text,
        node.block ≠ .code (some "xlsx-merge-html".toList) text := by
    intro node hnode
    obtain ⟨top, htop, hrest⟩ := mem_allNodes.mp hnode
    obtain rfl := List.mem_singleton.mp htop
    rcases hrest with rfl | ⟨children, hchildren, hin⟩
    · exact ⟨rfl, fun text h => nomatch h⟩
    · obtain ⟨item, hitem, rfl⟩ := List.mem_map.mp hchildren
      obtain ⟨id, value, rfl⟩ := h item hitem
      obtain ⟨inner, hinner, hdeeper⟩ := mem_allNodes.mp hin
      obtain rfl := List.mem_singleton.mp hinner
      rcases hdeeper with rfl | ⟨deeper, hdeep, -⟩
      · exact ⟨rfl, fun text h => nomatch h⟩
      · cases hdeep
  refine ⟨fun node hnode target htarget => ?_, fun node hnode text hblock => ?_⟩
  · rw [(hnodes node hnode).1] at htarget
    cases htarget
  · exact absurd hblock ((hnodes node hnode).2 text)

/-- One item has the last number. -/
theorem one_item_rendered :
    (∃ plan, planAssets noExternal .plain ⟨1, 1⟩
      (lastNumberList [paragraphItem "a" "x"]) [] .default = .ok plan) ∧
    ((∃ text, render ⟨Char.isAlphanum⟩ noExternal .plain ⟨1, 1⟩
      (lastNumberList [paragraphItem "a" "x"]) [] .default = .ok text) ↔
      ∀ node ∈ renderedDocumentNodes .default (lastNumberList [paragraphItem "a" "x"]),
        MarkersFit node.block) := by
  have hitems : ∀ item ∈ [paragraphItem "a" "x"], ∃ id value, item = paragraphItem id value :=
    fun item hitem => ⟨"a", "x", List.mem_singleton.mp hitem⟩
  obtain ⟨hlinks, hmerges⟩ := lastNumberList_accepted _ hitems
  have hplan := isOk_iff.mp (show (planAssets noExternal .plain ⟨1, 1⟩
    (lastNumberList [paragraphItem "a" "x"]) [] .default).isOk by decide +kernel)
  obtain ⟨plan, hplan⟩ := hplan
  exact ⟨⟨plan, hplan⟩, render_ok_iff rfl hplan hlinks hmerges⟩

/-- A second item has no number, though in HTML it would be written without one. -/
theorem second_item_refused :
    toAsciiLowercase ConversionOptions.default.flavor = "gfm".toList ∧
    (∃ plan, planAssets noExternal .plain ⟨1, 1⟩
      (lastNumberList [paragraphItem "a" "x", paragraphItem "b" "y"]) [] .default =
        .ok plan) ∧
    LinksAccepted (documentNodes (lastNumberList [paragraphItem "a" "x", paragraphItem "b" "y"])) ∧
    MergesFormed (documentNodes (lastNumberList [paragraphItem "a" "x", paragraphItem "b" "y"])) ∧
    ¬ ∃ text, render ⟨Char.isAlphanum⟩ noExternal .plain ⟨1, 1⟩
      (lastNumberList [paragraphItem "a" "x", paragraphItem "b" "y"]) [] .default =
        .ok text := by
  have hitems : ∀ item ∈ [paragraphItem "a" "x", paragraphItem "b" "y"],
      ∃ id value, item = paragraphItem id value :=
    List.forall_mem_cons.mpr ⟨⟨"a", "x", rfl⟩,
      fun item hitem => ⟨"b", "y", List.mem_singleton.mp hitem⟩⟩
  obtain ⟨hlinks, hmerges⟩ := lastNumberList_accepted _ hitems
  refine ⟨rfl, isOk_iff.mp (by decide +kernel), hlinks, hmerges, fun h => ?_⟩
  have hok := isOk_iff.mpr h
  revert hok
  decide +kernel

end IntoMarkdown.Render
