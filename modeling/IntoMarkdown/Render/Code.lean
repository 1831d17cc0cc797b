import IntoMarkdown.Lib.MarkdownCode
import IntoMarkdown.Render.Text

/-! # Code is read as it was written -/

namespace IntoMarkdown.Render
open Lib Lib.Strings Lib.MarkdownLines Lib.MarkdownCode

/-! ## Lines -/

theorem not_mem_normalizeLf (value : Text) : '\r' ∉ normalizeLf value :=
  not_mem_replaceChar (by decide)

theorem all_singleLine (value : Text) : (singleLine value).all isWhitespace =
    value.all isWhitespace := by
  rw [singleLine, all_replaceChar rfl rfl, normalizeLf, all_replaceChar rfl rfl,
    all_replacePair rfl rfl rfl]

/-! ## Code spans -/

/-- An end of the value that is padded. -/
def isEdge (c : Char) : Bool := c = ' ' || c = '\x60'

theorem renderCodeSpan_normal {v : Text} (h : (singleLine v).all isWhitespace = false) :
    renderCodeSpan v .normal =
      fence (longestRun '\x60' (singleLine v) + 1) ++
        (if (singleLine v).head?.any isEdge || (singleLine v).getLast?.any isEdge then
          [' '] ++ singleLine v ++ [' '] else singleLine v) ++
        fence (longestRun '\x60' (singleLine v) + 1) := by
  unfold renderCodeSpan
  simp only [h, Bool.false_eq_true, if_false, reduceCtorEq]
  change (if (singleLine v).head?.any isEdge || (singleLine v).getLast?.any isEdge then _
    else _) = _
  split
  · simp only [fence, List.append_assoc]
  · rfl

theorem longestRun_padded (value : Text) :
    longestRun '\x60' ([' '] ++ value ++ [' ']) = longestRun '\x60' value := by
  rw [longestRun_eq, runsFrom_append, longestRun_eq]
  rfl

theorem renderCodeSpan_read {v : Text} (h : v.all isWhitespace = false) :
    readCodeSpan (renderCodeSpan v .normal) = some (singleLine v, []) := by
  rw [← all_singleLine] at h
  rw [renderCodeSpan_normal h]
  have hspaces : ¬ (singleLine v).all (· = ' ') := by
    intro hall
    refine Bool.eq_false_iff.mp h (List.all_eq_true.mpr fun c hc => ?_)
    rw [of_decide_eq_true (List.all_eq_true.mp hall c hc)]
    rfl
  split
  · rw [readCodeSpan_fenced, stripSpan_padded hspaces]
    · rw [longestRun_padded]
      exact Nat.lt_succ_self _
    · intro c hc
      obtain rfl := Option.some.inj hc
      decide
    · exact ⟨' ', List.getLast?_concat, by decide⟩
  · rename_i hedge
    rw [Bool.or_eq_true, not_or] at hedge
    obtain ⟨hhead, hlast⟩ := hedge
    have hne : singleLine v ≠ [] := fun hnil => by
      rw [hnil] at h
      cases h
    obtain ⟨last, hgetLast⟩ := Option.ne_none_iff_exists'.mp
      (mt List.getLast?_eq_none_iff.mp hne)
    rw [hgetLast, Option.any_some, isEdge, Bool.or_eq_true, not_or] at hlast
    rw [readCodeSpan_fenced (Nat.lt_succ_self _), stripSpan_self]
    · rintro ⟨hspace, -⟩
      rw [hspace] at hhead
      exact hhead rfl
    · intro c hc
      rw [Option.mem_def.mp hc, Option.any_some, isEdge, Bool.or_eq_true, not_or] at hhead
      exact fun heq => hhead.2 (decide_eq_true heq)
    · exact ⟨last, hgetLast, fun heq => hlast.2 (decide_eq_true heq)⟩

/-! ## Info strings -/

/-- A character that an info string may have. -/
def isInfoChar (c : Char) : Bool := c ≠ '\x60' && !isWhitespace c

theorem percent_info (byte : UInt8) : (percent byte).all isInfoChar = true := by
  have hall : ∀ n : Fin 256, (percent (UInt8.ofNat n)).all isInfoChar = true := by decide +kernel
  have h := hall ⟨byte.toNat, byte.toNat_lt⟩
  rwa [UInt8.ofNat_toNat] at h

theorem flatMap_percent_info (bytes : List UInt8) :
    (bytes.flatMap percent).all isInfoChar = true := by
  rw [List.all_flatMap]
  exact List.all_eq_true.mpr fun byte _ => percent_info byte

theorem ascii_info {c : Char} (hascii : isAscii c = true)
    (h : (Utf8.encode [c]).all (fun byte => isAsciiAlphanumericByte byte ||
      oneOf "_+-.#" byte) = true) : isInfoChar c = true := by
  have hall : ∀ n : Fin 128, (Utf8.encode [Char.ofNat n]).all (fun byte =>
      isAsciiAlphanumericByte byte || oneOf "_+-.#" byte) = true →
        isInfoChar (Char.ofNat n) = true := by decide +kernel
  have hn := hall ⟨c.toNat, of_decide_eq_true hascii⟩
  rw [Char.ofNat_toNat] at hn
  exact hn h

theorem sanitizeInfoString_info (value : Text) :
    (sanitizeInfoString value).all isInfoChar = true := by
  rw [sanitizeInfoString, encodeBytes, List.all_flatMap]
  refine List.all_eq_true.mpr fun c _ => ?_
  dsimp only
  split
  · rename_i hascii
    split
    · rename_i hsafe
      rw [List.all_cons, ascii_info hascii hsafe]
      rfl
    · exact flatMap_percent_info _
  · rename_i hascii
    split
    · rename_i hsafe
      rw [Bool.and_eq_true, Bool.and_eq_true] at hsafe
      have htick : c ≠ '\x60' := fun heq => hascii (heq ▸ rfl)
      rw [List.all_cons, isInfoChar, hsafe.1.1, decide_eq_true htick]
      rfl
    · exact flatMap_percent_info _

/-! ## Fences -/

/-- The text with a line feed at its end. -/
def ended (value : Text) : Text :=
  if value.getLast? = some '\n' then value else value ++ ['\n']

theorem longestRun_dropLast (base : Text) :
    longestRun '\x60' base ≤ longestRun '\x60' (base ++ ['\n']) := by
  rw [longestRun_eq, longestRun_eq, runsFrom_append]
  exact le_runsFrom _ _ _

/-- The lines of a text without the line feed at its end. -/
theorem exists_base (value : Text) : ∃ base, ended value = base ++ ['\n'] ∧
    (∀ c ∈ base, c ∈ value) ∧ longestRun '\x60' base ≤ longestRun '\x60' value := by
  unfold ended
  split
  · rename_i hlast
    obtain ⟨base, rfl⟩ := List.getLast?_eq_some_iff.mp hlast
    exact ⟨base, rfl, fun c hc => List.mem_append_left _ hc, longestRun_dropLast base⟩
  · exact ⟨value, rfl, fun c hc => hc, Nat.le_refl _⟩

theorem renderFence_eq (text info : Text) : renderFence text (some info) =
    fence (max (longestRun '\x60' (normalizeLf text) + 1) 3) ++ info ++
      '\n' :: (ended (normalizeLf text) ++
        fence (max (longestRun '\x60' (normalizeLf text) + 1) 3)) := by
  unfold renderFence ended
  simp only [Option.getD_some, fence, List.append_assoc, List.cons_append]
  split
  · rfl
  · rw [List.append_assoc]
    rfl

theorem info_plain {info : Text} (h : info.all isInfoChar = true) :
    ∀ c ∈ info, c ≠ '\x60' ∧ c ≠ '\n' ∧ c ≠ '\r' ∧ isSpaceOrTab c = false := by
  intro c hc
  have hchar := List.all_eq_true.mp h c hc
  rw [isInfoChar, Bool.and_eq_true, Bool.not_eq_true'] at hchar
  obtain ⟨htick, hspace⟩ := hchar
  refine ⟨of_decide_eq_true htick, ?_, ?_, spaced_of_whitespace hspace⟩
  · rintro rfl
    exact absurd hspace (by decide)
  · rintro rfl
    exact absurd hspace (by decide)

theorem renderFence_read (text : Text) {info : Text} (hinfo : info.all isInfoChar = true) :
    ∃ n, readFence (renderFence text (some info)) =
      some ⟨info, ended (normalizeLf text), [fence n]⟩ := by
  obtain ⟨base, hbase, hsub, hrun⟩ := exists_base (normalizeLf text)
  refine ⟨max (longestRun '\x60' (normalizeLf text) + 1) 3, ?_⟩
  rw [renderFence_eq, hbase, List.append_assoc base, List.singleton_append]
  exact readFence_fenced (Nat.le_max_right _ _)
    ((Nat.lt_succ_of_le hrun).trans_le (Nat.le_max_left _ _)) (info_plain hinfo)
    fun hin => not_mem_normalizeLf text (hsub _ hin)

/-- Code is read as it was written, from a span and from under a fence. -/
theorem code_survives :
    (∀ v : Text, v.all isWhitespace = false →
      readCodeSpan (renderCodeSpan v .normal) = some (singleLine v, [])) ∧
    ∀ (text : Text) (language : Option Text),
      (∀ info ∈ language.map sanitizeInfoString, ∀ c ∈ info,
        c ≠ '\x60' ∧ isWhitespace c = false) ∧
      ∃ n, readFence (renderFence text (language.map sanitizeInfoString)) =
        some ⟨(language.map sanitizeInfoString).getD [], ended (normalizeLf text), [fence n]⟩ := by
  refine ⟨fun v => renderCodeSpan_read, fun text language => ⟨fun info hinfo c hc => ?_, ?_⟩⟩
  · obtain ⟨value, -, rfl⟩ := Option.map_eq_some_iff.mp hinfo
    have hchar := List.all_eq_true.mp (sanitizeInfoString_info value) c hc
    rw [isInfoChar, Bool.and_eq_true, Bool.not_eq_true'] at hchar
    exact ⟨of_decide_eq_true hchar.1, hchar.2⟩
  · cases language with
    | none => exact @renderFence_read text [] rfl
    | some value => exact renderFence_read text (sanitizeInfoString_info value)

end IntoMarkdown.Render
