import IntoMarkdown.Asr.Transcript

/-! # Labels

The numbers that are written in labels can be read back, so the labels that a compact map gives
are as different as the labels that it was made from. -/

namespace IntoMarkdown.Asr
open Ir Lib Lib.Strings

section
variable {n m : Nat} {remap : List (Text × Text)} {a b : Text}

/-! ## Numbers -/

theorem natText_eq (n : Nat) : natText n = Nat.toDigits 10 n := Nat.toList_repr

theorem isDigit_of_mem_natText {c : Char} (h : c ∈ natText n) : c.isDigit = true := by
  rw [natText_eq] at h
  exact Nat.isDigit_of_mem_toDigits (by decide) (by decide) h

theorem natText_injective (h : natText n = natText m) : n = m := by
  rw [natText_eq, natText_eq] at h
  rw [← @Nat.ofDigitChars_ten_toDigits n, h, Nat.ofDigitChars_ten_toDigits]

theorem utf8Size_of_isDigit {c : Char} (h : c.isDigit = true) : c.utf8Size = 1 := by
  have hlt : c.val ≤ 57 := of_decide_eq_true (Bool.and_eq_true_iff.mp h).2
  rw [Char.utf8Size, if_pos (UInt32.le_trans hlt (by decide))]

theorem byteLength_digits {text : Text} (h : ∀ c ∈ text, c.isDigit = true) :
    byteLength text = text.length := by
  induction text with
  | nil => rfl
  | cons c text ih =>
    obtain ⟨hdigit, hrest⟩ := List.forall_mem_cons.mp h
    rw [byteLength_cons, utf8Size_of_isDigit hdigit, ih hrest, List.length_cons, Nat.add_comm]

theorem isControl_of_isDigit {c : Char} (h : c.isDigit = true) : isControl c = false := by
  obtain ⟨hlow, hhigh⟩ := Bool.and_eq_true_iff.mp h
  have hlow' : 48 ≤ c.toNat := of_decide_eq_true hlow
  have hhigh' : c.toNat ≤ 57 := of_decide_eq_true hhigh
  simp only [isControl, Bool.or_eq_false_iff, Bool.and_eq_false_iff, decide_eq_false_iff_not]
  omega

/-! ## Numbered labels -/

theorem speakerLabel_injective (h : speakerLabel n = speakerLabel m) : n = m :=
  natText_injective (List.append_cancel_left h)

theorem byteLength_speakerLabel (n : Nat) :
    byteLength (speakerLabel n) = 8 + byteLength (natText n) := byteLength_append _ _

theorem any_speakerLabel (p : Char → Bool) (n : Nat) :
    (speakerLabel n).any p = ("speaker-".toList.any p || (natText n).any p) := List.any_append

theorem badSpeaker_speakerLabel (h : n < 10 ^ 40) : badSpeaker (speakerLabel n) = false := by
  have hdigits : byteLength (natText n) ≤ 40 := by
    rw [byteLength_digits fun c hc => isDigit_of_mem_natText hc, natText_eq]
    exact Nat.toDigits_length 10 n 40 (by decide) h
  have hempty : (speakerLabel n).isEmpty = false :=
    List.isEmpty_eq_false_iff.mpr (List.append_ne_nil_of_left_ne_nil (by decide) _)
  have hshort : ¬ 128 < byteLength (speakerLabel n) := by
    rw [byteLength_speakerLabel]
    omega
  have hcontrol : (speakerLabel n).any isControl = false := by
    have hname : "speaker-".toList.any isControl = false := by decide
    rw [any_speakerLabel, hname, Bool.false_or, List.any_eq_false]
    intro c hc
    rw [isControl_of_isDigit (isDigit_of_mem_natText hc)]
    exact Bool.false_ne_true
  rw [badSpeaker, hempty, hcontrol, decide_eq_false hshort]
  rfl

/-! ## Maps of labels -/

theorem mem_of_lookup {v : Text} (h : remap.lookup a = some v) : (a, v) ∈ remap := by
  obtain ⟨before, after, rfl, -⟩ := List.lookup_eq_some_iff.mp h
  exact List.mem_append_right before List.mem_cons_self

theorem target_of_lookup {v : Text} (h : remap.lookup a = some v) : target remap a = v := by
  rw [target, h, Option.getD_some]

theorem badSpeaker_target (hremap : ∀ pair ∈ remap, badSpeaker pair.2 = false)
    (ha : badSpeaker a = false) : badSpeaker (target remap a) = false := by
  rw [target]
  cases hlookup : remap.lookup a with
  | none => exact ha
  | some v => exact hremap (a, v) (mem_of_lookup hlookup)

/-- The targets are the labels by number. -/
def Numbered (remap : List (Text × Text)) : Prop :=
  remap.map Prod.snd = (List.range remap.length).map fun index => speakerLabel (index + 1)

theorem Numbered.target_injective (h : Numbered remap) (ha : (remap.lookup a).isSome)
    (hb : (remap.lookup b).isSome) (heq : target remap a = target remap b) : a = b := by
  obtain ⟨v, hv⟩ := Option.isSome_iff_exists.mp ha
  obtain ⟨w, hw⟩ := Option.isSome_iff_exists.mp hb
  rw [target_of_lookup hv, target_of_lookup hw] at heq
  have hnodup : (remap.map Prod.snd).Nodup := by
    rw [h]
    exact List.nodup_range.map fun i j hij => Nat.succ.inj (speakerLabel_injective hij)
  exact congrArg Prod.fst
    (List.inj_on_of_nodup_map hnodup (mem_of_lookup hv) (mem_of_lookup hw) heq)

theorem Numbered.target_valid (h : Numbered remap) (hlength : remap.length < 10 ^ 40)
    {pair : Text × Text} (hpair : pair ∈ remap) : badSpeaker pair.2 = false := by
  have hmem := List.mem_map_of_mem (f := Prod.snd) hpair
  rw [h] at hmem
  obtain ⟨index, hindex, heq⟩ := List.mem_map.mp hmem
  rw [← heq]
  exact badSpeaker_speakerLabel (Nat.lt_of_le_of_lt (List.mem_range.mp hindex) hlength)

theorem Numbered.addLabel (h : Numbered remap) (id : Text) : Numbered (addLabel remap id) := by
  rw [Asr.addLabel]
  split
  · exact h
  · rw [Numbered, List.map_append, h, List.length_append, List.length_singleton,
      List.range_succ, List.map_append]
    rfl

theorem length_addLabel (remap : List (Text × Text)) (id : Text) :
    (addLabel remap id).length ≤ remap.length + 1 := by
  rw [addLabel]
  split
  · exact Nat.le_succ _
  · exact Nat.le_of_eq List.length_append

theorem lookup_addLabel (remap : List (Text × Text)) (id other : Text) :
    ((addLabel remap id).lookup other).isSome = ((remap.lookup other).isSome || other == id) := by
  rw [addLabel]
  split
  · next hsome =>
    cases hother : (remap.lookup other).isSome with
    | true => rfl
    | false =>
      have hne : other ≠ id := by
        rintro rfl
        rw [hother] at hsome
        exact Bool.false_ne_true hsome
      rw [Bool.false_or, beq_eq_false_iff_ne.mpr hne]
  · next hnone =>
    rw [List.lookup_append, Option.isSome_or]
    congr 1
    rw [List.lookup_cons]
    cases hbeq : other == id <;> rfl

/-- Every label that is added has a number, and no label more is. -/
theorem foldl_addLabel (h : Numbered remap) (ids : List Text) :
    Numbered (ids.foldl addLabel remap) ∧
      (ids.foldl addLabel remap).length ≤ remap.length + ids.length ∧
      ∀ id, ((remap.lookup id).isSome ∨ id ∈ ids) →
        ((ids.foldl addLabel remap).lookup id).isSome := by
  induction ids generalizing remap with
  | nil => exact ⟨h, Nat.le_refl _, fun id hid => hid.resolve_right List.not_mem_nil⟩
  | cons first ids ih =>
    obtain ⟨hnumbered, hlength, hall⟩ := ih (h.addLabel first)
    have hfirst := length_addLabel remap first
    refine ⟨hnumbered, ?_, fun id hid => hall id ?_⟩
    · rw [List.foldl_cons, List.length_cons]
      omega
    · rw [lookup_addLabel, Bool.or_eq_true, beq_iff_eq]
      rcases hid with hid | hid
      · exact .inl (.inl hid)
      · rcases List.mem_cons.mp hid with rfl | hid
        · exact .inl (.inr rfl)
        · exact .inr hid

variable {segments : List Segment}

theorem numbered_compactRemap : Numbered (compactRemap segments) :=
  (foldl_addLabel (show Numbered [] from rfl) _).1

theorem length_compactRemap :
    (compactRemap segments).length ≤ (segments.flatMap labels).length :=
  (foldl_addLabel (show Numbered [] from rfl) _).2.1.trans (Nat.le_of_eq (Nat.zero_add _))

theorem lookup_compactRemap {segment : Segment} (hsegment : segment ∈ segments)
    (ha : a ∈ labels segment) : ((compactRemap segments).lookup a).isSome :=
  (foldl_addLabel (show Numbered [] from rfl) _).2.2 a
    (.inr (List.mem_flatMap.mpr ⟨segment, hsegment, ha⟩))

end

end IntoMarkdown.Asr
