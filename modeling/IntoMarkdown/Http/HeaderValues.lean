import IntoMarkdown.Http.Disposition

/-! # Tokens, quoted strings and extended values

What the readers of `policy.rs` accept, in the words of the grammar. -/

namespace IntoMarkdown.Http
open Lib

/-! ## Characters of a token -/

theorem isToken_ofNat : ∀ n < 128, isToken (UInt8.ofNat n) = isTokenChar (Char.ofNat n) := by
  decide +kernel

theorem isToken_lt {byte : UInt8} (h : isToken byte = true) : byte.toNat < 128 := by
  have hall : ∀ n < 256, isToken (UInt8.ofNat n) = true → n < 128 := by decide +kernel
  have hbyte := hall byte.toNat byte.toNat_lt
  rw [UInt8.ofNat_toNat] at hbyte
  exact hbyte h

theorem isTokenChar_lt {c : Char} (h : isTokenChar c = true) : c.toNat < 128 := by
  simp only [isTokenChar, Bool.or_eq_true, Bool.and_eq_true, decide_eq_true_eq] at h
  rcases h with ((h | h) | h) | h
  · omega
  · omega
  · omega
  · simp only [List.mem_cons, List.not_mem_nil, or_false] at h
    rcases h with rfl | rfl | rfl | rfl | rfl | rfl | rfl | rfl | rfl | rfl | rfl | rfl | rfl |
      rfl | rfl <;> decide

theorem all_isToken_encodeChar (c : Char) :
    (String.utf8EncodeChar c).all isToken = isTokenChar c := by
  by_cases hascii : c.toNat < 128
  · rw [Utf8.encodeChar_ascii hascii, List.all_cons, List.all_nil, Bool.and_true,
      isToken_ofNat c.toNat hascii, Char.ofNat_toNat]
  · have hchar : isTokenChar c = false := by
      by_contra hne
      exact hascii (isTokenChar_lt (by simpa using hne))
    obtain ⟨byte, rest, hbytes⟩ := List.exists_cons_of_ne_nil (@String.utf8EncodeChar_ne_nil c)
    have hbyte : isToken byte = false := by
      by_contra hne
      have hlt : byte.toNat < 128 := isToken_lt (by simpa using hne)
      exact hascii ((Utf8.toNat_of_mem (hbytes ▸ List.mem_cons_self) hlt).trans_lt hlt)
    rw [hbytes, List.all_cons, hbyte, hchar, Bool.false_and]

theorem all_isToken (text : Text) : (Utf8.encode text).all isToken = text.all isTokenChar := by
  induction text with
  | nil => rfl
  | cons c text ih =>
    rw [Utf8.encode, List.flatMap_cons, List.all_append, all_isToken_encodeChar, List.all_cons]
    exact congrArg (isTokenChar c && ·) ih

theorem isTokenText_iff {text : Text} : isTokenText text = true ↔ IsToken text := by
  rw [isTokenText, all_isToken, Bool.and_eq_true, decide_eq_true_eq, List.all_eq_true]
  rfl

theorem isTokenChar_toLower (c : Char) : isTokenChar c.toLower = isTokenChar c := by
  by_cases hascii : c.toNat < 128
  · have hall : ∀ n < 128, isTokenChar (Char.ofNat n).toLower = isTokenChar (Char.ofNat n) := by
      decide +kernel
    have hc := hall c.toNat hascii
    rwa [Char.ofNat_toNat] at hc
  · have hlower : c.toLower = c := by
      rw [Char.toLower, dif_neg]
      rintro ⟨-, hle⟩
      exact hascii (Nat.lt_of_le_of_lt (show c.val.toNat ≤ 90 from hle) (by decide))
    rw [hlower]

theorem all_isTokenChar_lower (text : Text) :
    (lower text).all isTokenChar = text.all isTokenChar := by
  rw [lower, List.all_map]
  exact congrArg text.all (funext isTokenChar_toLower)

/-- No token has a semicolon, an equals sign, a quotation mark or white space. -/
theorem isTokenChar_not {c : Char} (h : isTokenChar c = true) :
    c ≠ ';' ∧ c ≠ '=' ∧ c ≠ '"' ∧ isWhiteSpace c = false := by
  have hall : ∀ n < 128, isTokenChar (Char.ofNat n) = true → Char.ofNat n ≠ ';' ∧
      Char.ofNat n ≠ '=' ∧ Char.ofNat n ≠ '"' ∧ isWhiteSpace (Char.ofNat n) = false := by
    decide +kernel
  have hc := hall c.toNat (isTokenChar_lt h)
  rw [Char.ofNat_toNat] at hc
  exact hc h

theorem isBlank_not {c : Char} (h : isBlank c = true) : c ≠ ';' ∧ isWhiteSpace c = true := by
  rw [isBlank, Bool.or_eq_true, decide_eq_true_eq, decide_eq_true_eq] at h
  rcases h with rfl | rfl <;> decide

/-! ## Pieces -/

theorem piece_eq (piece : Text) : leading piece ++ (trim piece ++ trailing piece) = piece := by
  have hend : trim piece ++ trailing piece = piece.dropWhile isWhiteSpace := by
    rw [trim, trimWhere, trailing, ← List.reverse_append, List.takeWhile_append_dropWhile,
      List.reverse_reverse]
  rw [hend, leading, List.takeWhile_append_dropWhile]

section
variable {p : Char → Bool} {a b : Text}

theorem span_of (ha : ∀ c ∈ a, p c = true) (hb : ∀ c ∈ b.head?, p c = false) :
    (a ++ b).takeWhile p = a ∧ (a ++ b).dropWhile p = b := by
  rw [List.takeWhile_append_of_pos ha, List.dropWhile_append_of_pos ha]
  cases b with
  | nil => exact ⟨List.append_nil a, rfl⟩
  | cons c b =>
    have hc : ¬ p c = true := by simp [hb c rfl]
    rw [List.takeWhile_cons_of_neg hc, List.dropWhile_cons_of_neg hc, List.append_nil]
    exact ⟨rfl, rfl⟩

end

/-- Blanks around a text that has none at its ends. -/
theorem trim_of {before core after : Text} (hbefore : ∀ c ∈ before, isWhiteSpace c = true)
    (hafter : ∀ c ∈ after, isWhiteSpace c = true) (hne : core ≠ [])
    (hhead : ∀ c ∈ core.head?, isWhiteSpace c = false)
    (hlast : ∀ c ∈ core.getLast?, isWhiteSpace c = false) :
    leading (before ++ (core ++ after)) = before ∧ trim (before ++ (core ++ after)) = core ∧
      trailing (before ++ (core ++ after)) = after := by
  have hstart : ∀ c ∈ (core ++ after).head?, isWhiteSpace c = false := by
    rwa [List.head?_append_of_ne_nil _ hne]
  have hstop : ∀ c ∈ core.reverse.head?, isWhiteSpace c = false := by rwa [List.head?_reverse]
  have hback : ∀ c ∈ after.reverse, isWhiteSpace c = true := by
    intro c hc
    exact hafter c (List.mem_reverse.mp hc)
  obtain ⟨htake, hdrop⟩ := span_of hbefore hstart
  obtain ⟨htake', hdrop'⟩ := span_of hback hstop
  refine ⟨htake, ?_, ?_⟩
  · rw [trim, trimWhere, hdrop, List.reverse_append, hdrop', List.reverse_reverse]
  · rw [trailing, hdrop, List.reverse_append, htake', List.reverse_reverse]

theorem trim_blank {piece : Text} (h : ∀ c ∈ piece, isWhiteSpace c = true) :
    leading piece = piece ∧ trim piece = [] ∧ trailing piece = [] := by
  obtain ⟨htake, hdrop⟩ := span_of (b := []) h (by simp)
  rw [List.append_nil] at htake hdrop
  exact ⟨htake, by rw [trim, trimWhere, hdrop]; rfl, by rw [trailing, hdrop]; rfl⟩

theorem dropWhile_of_mem {c : Char} {text : Text} (h : c ∈ text) :
    text.dropWhile (· ≠ c) = c :: (text.dropWhile (· ≠ c)).tail := by
  induction text with
  | nil => cases h
  | cons d text ih =>
    by_cases hd : d = c
    · subst hd
      rw [List.dropWhile_cons_of_neg (by simp)]
      rfl
    · rw [List.dropWhile_cons_of_pos (by simpa using hd)]
      exact ih ((List.mem_cons.mp h).resolve_left fun heq => hd heq.symm)

theorem splitOnce_some {c : Char} {text before after : Text}
    (h : splitOnce c text = some (before, after)) : text = before ++ c :: after := by
  rw [splitOnce] at h
  split at h
  · rename_i hmem
    obtain ⟨rfl, rfl⟩ := Prod.mk.inj (Option.some.inj h)
    rw [← dropWhile_of_mem hmem, List.takeWhile_append_dropWhile]
  · cases h

theorem splitOnce_of {c : Char} {before : Text} (h : c ∉ before) (after : Text) :
    splitOnce c (before ++ c :: after) = some (before, after) := by
  have hspan := span_of (p := (· ≠ c)) (a := before) (b := c :: after)
    (fun d hd => by simpa using fun heq : d = c => h (heq ▸ hd)) (by simp)
  rw [splitOnce, if_pos (by simp), hspan.1, hspan.2, List.tail_cons]

/-! ## Quoted strings -/

/-- The parts of what is between the quotation marks. -/
def quotedParts : Text → List Quoted
  | [] => []
  | ['\\'] => []
  | '\\' :: c :: rest => .pair c :: quotedParts rest
  | c :: rest => .plain c :: quotedParts rest

theorem quotedParts_of {inner : Text} (h : wellQuoted inner = true) :
    (quotedParts inner).flatMap Quoted.text = inner ∧ ∀ part ∈ quotedParts inner, part.Valid := by
  induction inner using wellQuoted.induct with
  | case1 => exact ⟨rfl, fun part hpart => absurd hpart List.not_mem_nil⟩
  | case2 => cases h
  | case3 c rest ih =>
    rw [wellQuoted, Bool.and_eq_true] at h
    obtain ⟨htext, hvalid⟩ := ih h.2
    rw [quotedParts, List.flatMap_cons, htext]
    exact ⟨rfl, List.forall_mem_cons.mpr ⟨h.1, hvalid⟩⟩
  | case4 c rest hlast hpair ih =>
    rw [wellQuoted.eq_4 c rest hlast hpair, Bool.and_eq_true, Bool.and_eq_true,
      decide_eq_true_eq] at h
    obtain ⟨htext, hvalid⟩ := ih h.2
    rw [quotedParts.eq_4 c rest hlast hpair, List.flatMap_cons, htext]
    refine ⟨rfl, List.forall_mem_cons.mpr ⟨⟨h.1.2, h.1.1, ?_⟩, hvalid⟩⟩
    rintro rfl
    cases rest with
    | nil => exact hlast rfl rfl
    | cons d rest => exact hpair d rest rfl rfl

theorem wellQuoted_parts {parts : List Quoted} (h : ∀ part ∈ parts, part.Valid) :
    wellQuoted (parts.flatMap Quoted.text) = true := by
  induction parts with
  | nil => rfl
  | cons part parts ih =>
    obtain ⟨hpart, hrest⟩ := List.forall_mem_cons.mp h
    rw [List.flatMap_cons]
    cases part with
    | pair c => simp only [Quoted.text, List.cons_append, List.nil_append, wellQuoted, ih hrest,
        Bool.and_true, show isFieldChar c = true from hpart]
    | plain c =>
      obtain ⟨hfield, hquote, hslash⟩ := hpart
      rw [Quoted.text, List.singleton_append, wellQuoted.eq_4 _ _ (fun heq _ => hslash heq)
        (fun _ _ heq _ => hslash heq), ih hrest, hfield]
      simpa using hquote

/-- What the code reads in a quoted string is its content. -/
theorem unescape_parts {parts : List Quoted} (h : ∀ part ∈ parts, part.Valid) {content : Text}
    (hok : unescape false (parts.flatMap Quoted.text) = .ok content) :
    content = parts.map Quoted.content := by
  induction parts generalizing content with
  | nil => exact (Except.ok.inj hok).symm
  | cons part parts ih =>
    obtain ⟨hpart, hrest⟩ := List.forall_mem_cons.mp h
    rw [List.flatMap_cons] at hok
    cases part with
    | pair c =>
      rw [Quoted.text, List.cons_append, List.singleton_append, unescape, if_pos rfl,
        unescape] at hok
      obtain ⟨rest, hread, rfl⟩ := map_ok hok
      rw [ih hrest hread]
      rfl
    | plain c =>
      rw [Quoted.text, List.singleton_append, unescape, if_neg hpart.2.2] at hok
      split at hok
      · cases hok
      · obtain ⟨rest, hread, rfl⟩ := map_ok hok
        rw [ih hrest hread]
        rfl

theorem unquoted_quoted (inner : Text) : unquoted ('"' :: (inner ++ ['"'])) = some inner := by
  rw [unquoted, List.getLast?_concat, if_pos rfl, List.dropLast_concat]

theorem unquoted_some {raw inner : Text} (h : unquoted raw = some inner) :
    raw = '"' :: (inner ++ ['"']) := by
  unfold unquoted at h
  split at h
  · rename_i rest
    split at h
    · rename_i hlast
      rw [← Option.some.inj h, List.dropLast_append_getLast? _ hlast]
    · cases h
  · cases h

theorem unquoted_token {raw : Text} (h : IsToken raw) : unquoted raw = none := by
  unfold unquoted
  split
  · rename_i rest
    exact absurd rfl (isTokenChar_not (h.2 _ List.mem_cons_self)).2.2.1
  · rfl

/-! ## Values -/

theorem decodeQuotedOrToken_content {v : ParameterValue} (h : v.Valid) {content : Text}
    (hok : decodeQuotedOrToken v.text = .ok content) : content = v.content := by
  cases v with
  | token text =>
    rw [decodeQuotedOrToken, ParameterValue.text, unquoted_token h] at hok
    simp only [if_pos (isTokenText_iff.mpr h)] at hok
    exact (Except.ok.inj hok).symm
  | quoted parts =>
    rw [decodeQuotedOrToken, ParameterValue.text, unquoted_quoted] at hok
    exact unescape_parts h hok

theorem hex_ok {byte digit : UInt8} (h : hex byte = .ok digit) :
    Uri.hexValue byte = some digit.toNat ∧ digit.toNat < 16 := by
  have hall : ∀ n < 256, ∀ digit, hex (UInt8.ofNat n) = .ok digit →
      Uri.hexValue (UInt8.ofNat n) = some digit.toNat ∧ digit.toNat < 16 := by
    have hdecided : ∀ n < 256, (match hex (UInt8.ofNat n) with
        | .ok digit => decide (Uri.hexValue (UInt8.ofNat n) = some digit.toNat ∧ digit.toNat < 16)
        | .error _ => true) = true := by decide +kernel
    intro n hn digit hdigit
    have hn := hdecided n hn
    rw [hdigit] at hn
    exact of_decide_eq_true hn
  have hbyte := hall byte.toNat byte.toNat_lt digit
  rw [UInt8.ofNat_toNat] at hbyte
  exact hbyte h

theorem percentDecode_unescape {bytes decoded : Bytes} (h : percentDecode bytes = .ok decoded) :
    Uri.unescape bytes = some decoded := by
  induction bytes using percentDecode.induct generalizing decoded with
  | case1 => exact congrArg some (Except.ok.inj h)
  | case2 high low rest ih =>
    rw [percentDecode] at h
    obtain ⟨a, ha, h⟩ := ok_bind h
    obtain ⟨b, hb, h⟩ := ok_bind h
    obtain ⟨more, hmore, h⟩ := ok_bind h
    obtain rfl := Except.ok.inj h
    obtain ⟨hhigh, halt⟩ := hex_ok ha
    obtain ⟨hlow, hblt⟩ := hex_ok hb
    have hbyte : UInt8.ofNat (16 * a.toNat + b.toNat) = a * 16 + b := by
      apply UInt8.toNat_inj.mp
      rw [UInt8.toNat_ofNat', UInt8.toNat_add, UInt8.toNat_mul]
      show _ = (a.toNat * 16 % 2 ^ 8 + b.toNat) % 2 ^ 8
      omega
    rw [Uri.unescape, hhigh, hlow, ih hmore, Option.bind_some, Option.bind_some, Option.map_some,
      hbyte]
  | case3 byte rest hcut hattr ih =>
    rw [percentDecode.eq_3 _ _ hcut, if_pos hattr] at h
    obtain ⟨more, hmore, rfl⟩ := map_ok h
    rw [Uri.unescape_cons hattr.1, ih hmore, Option.map_some]
  | case4 byte rest hcut hattr =>
    rw [percentDecode.eq_3 _ _ hcut, if_neg hattr] at h
    cases h

theorem orInvalid_ok {α : Type} {x : Option α} {a : α} (h : orInvalid x = .ok a) : x = some a := by
  cases x with
  | none => cases h
  | some b => exact congrArg some (Except.ok.inj h)

theorem decodeRfc5987_extended {raw name : Text} (h : decodeRfc5987 raw = .ok name) :
    ExtendedValue raw name := by
  rw [decodeRfc5987] at h
  obtain ⟨⟨charset, rest⟩, hcharset, h⟩ := ok_bind h
  obtain ⟨⟨language, encoded⟩, hlanguage, h⟩ := ok_bind h
  obtain ⟨_, hreject, h⟩ := ok_bind h
  obtain ⟨bytes, hbytes, h⟩ := ok_bind h
  refine ⟨charset, language, encoded, ?_, not_not.mp (reject_ok hreject), ?_⟩
  · rw [splitOnce_some (orInvalid_ok hcharset), splitOnce_some (orInvalid_ok hlanguage)]
  · rw [Uri.decode, percentDecode_unescape hbytes, Option.bind_some, orInvalid_ok h]

/-- An extended value is no quoted string: its charset is a token. -/
theorem decodeRfc5987_token {raw name : Text} (h : decodeRfc5987 raw = .ok name) :
    raw.head? ≠ some '"' := by
  obtain ⟨charset, language, encoded, rfl, hcharset, -⟩ := decodeRfc5987_extended h
  intro hhead
  cases charset with
  | nil => cases hcharset
  | cons c charset =>
    obtain rfl := Option.some.inj hhead
    cases hcharset

end IntoMarkdown.Http
