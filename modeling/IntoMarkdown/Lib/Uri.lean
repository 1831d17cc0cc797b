import IntoMarkdown.Lib.Paths

/-! # Relative references

A URI reference read into its components, and the path that it has against a base:
the two are merged, then the dot segments are removed. -/

namespace IntoMarkdown.Lib.Uri
open Strings Paths

structure Reference where
  scheme : Option Text
  authority : Option Text
  path : Text
  query : Option Text
  fragment : Option Text

def before (stops : List Char) (text : Text) : Text := text.takeWhile fun c => c ∉ stops

def startingAt (stops : List Char) (text : Text) : Text := text.dropWhile fun c => c ∉ stops

def readScheme (text : Text) : Option Text × Text :=
  match before [':', '/', '?', '#'] text, startingAt [':', '/', '?', '#'] text with
  | c :: name, ':' :: rest => (some (c :: name), rest)
  | _, _ => (none, text)

def readAuthority : Text → Option Text × Text
  | '/' :: '/' :: rest => (some (before ['/', '?', '#'] rest), startingAt ['/', '?', '#'] rest)
  | text => (none, text)

def readQuery : Text → Option Text × Text
  | '?' :: rest => (some (before ['#'] rest), startingAt ['#'] rest)
  | text => (none, text)

def readFragment : Text → Option Text
  | '#' :: rest => some rest
  | _ => none

/-- The components of a reference, in the order of its grammar. -/
def Reference.read (text : Text) : Reference :=
  let afterScheme := (readScheme text).2
  let afterAuthority := (readAuthority afterScheme).2
  let afterPath := startingAt ['?', '#'] afterAuthority
  { scheme := (readScheme text).1
    authority := (readAuthority afterScheme).1
    path := before ['?', '#'] afterAuthority
    query := (readQuery afterPath).1
    fragment := readFragment (readQuery afterPath).2 }

/-! ## Removing dot segments -/

/-- The output without its last segment and the slash before it. -/
def dropSegment (output : Text) : Text := (output.reverse.dropWhile (· ≠ '/')).tail.reverse

/-- One turn over the input buffer, its cases in the order of the algorithm. -/
def dotStep (input output : Text) : Text × Text :=
  if ['.', '.', '/'] <+: input then (input.drop 3, output)
  else if ['.', '/'] <+: input then (input.drop 2, output)
  else if ['/', '.', '/'] <+: input then (input.drop 2, output)
  else if input = ['/', '.'] then (['/'], output)
  else if ['/', '.', '.', '/'] <+: input then (input.drop 3, dropSegment output)
  else if input = ['/', '.', '.'] then (['/'], dropSegment output)
  else if input = ['.'] ∨ input = ['.', '.'] then ([], output)
  else (input.tail.dropWhile (· ≠ '/'), output ++ (input.take 1 ++ input.tail.takeWhile (· ≠ '/')))

def removeDots : Nat → Text → Text → Text
  | 0, _, output => output
  | fuel + 1, input, output =>
    if input = [] then output else removeDots fuel (dotStep input output).1 (dotStep input output).2

/-- Each turn shortens the input. -/
def removeDotSegments (path : Text) : Text := removeDots path.length path []

/-- A turn that removes a segment when none is left. -/
def climbsNow (input output : Text) : Bool :=
  output = [] && (['/', '.', '.', '/'] <+: input || input = ['/', '.', '.'])

def dotClimbs : Nat → Text → Text → Bool
  | 0, _, _ => false
  | fuel + 1, input, output =>
    input ≠ [] && (climbsNow input output ||
      dotClimbs fuel (dotStep input output).1 (dotStep input output).2)

/-- All but the last segment of the base, then the reference. -/
def merge (base path : Text) : Text := (base.reverse.dropWhile (· ≠ '/')).reverse ++ path

/-- What the dot segments are removed from. -/
def mergedPath (base path : Text) : Text := if ['/'] <+: path then path else merge base path

/-- The path of a reference without scheme and authority. -/
def resolvePath (base path : Text) : Text :=
  if path = [] then base else removeDotSegments (mergedPath base path)

/-- The reference asks for a segment above the root. -/
def climbs (base path : Text) : Bool :=
  path ≠ [] && dotClimbs (mergedPath base path).length (mergedPath base path) []

/-! ## Segments -/

/-- An absolute path of these segments. -/
def flat (segments : List Text) : Text := segments.flatMap fun segment => '/' :: segment

def Plain (segments : List Text) : Prop := ∀ segment ∈ segments, '/' ∉ segment

/-- The segments that are left, where a dot segment at the end leaves an empty one. -/
def walk : List Text → List Text → List Text
  | [], out => out
  | segment :: rest, out =>
    if segment = ['.'] then if rest = [] then out ++ [[]] else walk rest out
    else if segment = ['.', '.'] then
      if rest = [] then out.dropLast ++ [[]] else walk rest out.dropLast
    else walk rest (out ++ [segment])

def walkClimbs : List Text → List Text → Bool
  | [], _ => false
  | segment :: rest, out =>
    if segment = ['.'] then walkClimbs rest out
    else if segment = ['.', '.'] then out = [] || walkClimbs rest out.dropLast
    else walkClimbs rest (out ++ [segment])

@[simp] theorem flat_nil : flat [] = [] := rfl

@[simp] theorem flat_cons (segment : Text) (rest : List Text) :
    flat (segment :: rest) = '/' :: (segment ++ flat rest) := rfl

@[simp] theorem flat_append (a b : List Text) : flat (a ++ b) = flat a ++ flat b :=
  List.flatMap_append ..

theorem flat_eq_nil {segments : List Text} : flat segments = [] ↔ segments = [] := by
  cases segments <;> simp

theorem flat_splitOn (text : Text) : flat (splitOn '/' text) = '/' :: text := by
  obtain ⟨first, rest, hsplit⟩ := List.exists_cons_of_ne_nil (MarkdownCode.splitOn_ne_nil '/' text)
  have hjoined := joined_splitOn '/' text
  rw [hsplit] at hjoined ⊢
  exact congrArg ('/' :: ·) hjoined

theorem takeWhile_segment {segment : Text} (h : '/' ∉ segment) (rest : List Text) :
    (segment ++ flat rest).takeWhile (· ≠ '/') = segment := by
  rw [List.takeWhile_append_of_pos]
  · cases rest <;> simp
  · intro c hc
    exact decide_eq_true (ne_of_mem_of_not_mem hc h)

theorem dropWhile_segment {segment : Text} (h : '/' ∉ segment) (rest : List Text) :
    (segment ++ flat rest).dropWhile (· ≠ '/') = flat rest := by
  rw [List.dropWhile_append_of_pos]
  · cases rest <;> simp
  · intro c hc
    exact decide_eq_true (ne_of_mem_of_not_mem hc h)

theorem dropSegment_flat {out : List Text} (h : Plain out) :
    dropSegment (flat out) = flat out.dropLast := by
  induction out using List.reverseRecOn with
  | nil => rfl
  | append_singleton out last _ =>
    have hlast : '/' ∉ last.reverse := fun hmem =>
      h last (by simp) (List.mem_reverse.mp hmem)
    have hdrop : (last.reverse ++ '/' :: (flat out).reverse).dropWhile (· ≠ '/') =
        '/' :: (flat out).reverse := by
      rw [List.dropWhile_append_of_pos]
      · simp
      · intro c hc
        exact decide_eq_true (ne_of_mem_of_not_mem hc hlast)
    simp only [dropSegment, flat_append, flat_cons, flat_nil, List.append_nil, List.reverse_append,
      List.reverse_cons, List.append_assoc, List.cons_append, List.nil_append, hdrop,
      List.tail_cons, List.reverse_reverse, List.dropLast_concat]

/-- The input starts with these segment and slash just when the segment is the first of more. -/
theorem starts_iff {segment word : Text} {rest : List Text} (h : '/' ∉ segment) (hw : '/' ∉ word) :
    '/' :: (word ++ ['/']) <+: flat (segment :: rest) ↔ segment = word ∧ rest ≠ [] := by
  rw [flat_cons, List.cons_prefix_cons]
  constructor
  · rintro ⟨-, tail, htail⟩
    have htake := congrArg (List.takeWhile (· ≠ '/')) htail
    rw [takeWhile_segment h, List.append_assoc, List.singleton_append,
      List.takeWhile_append_of_pos
        (fun c hc => decide_eq_true (ne_of_mem_of_not_mem hc hw))] at htake
    simp only [ne_eq, not_true_eq_false, decide_false, Bool.false_eq_true, not_false_eq_true,
      List.takeWhile_cons_of_neg, List.append_nil] at htake
    refine ⟨htake.symm, ?_⟩
    rintro rfl
    rw [flat_nil, List.append_nil, ← htake, List.append_assoc] at htail
    have hlength := congrArg List.length htail
    simp only [List.length_append, List.length_cons] at hlength
    omega
  · rintro ⟨rfl, hrest⟩
    obtain ⟨next, more, rfl⟩ := List.exists_cons_of_ne_nil hrest
    exact ⟨rfl, next ++ flat more, by simp⟩

theorem equals_iff {segment word : Text} {rest : List Text} (hw : '/' ∉ word) :
    flat (segment :: rest) = '/' :: word ↔ segment = word ∧ rest = [] := by
  rw [flat_cons, List.cons_inj_right]
  constructor
  · intro heq
    have hrest : rest = [] := by
      rcases rest with _ | ⟨next, more⟩
      · rfl
      · exact absurd (heq ▸ List.mem_append_right _ List.mem_cons_self) hw
    subst hrest
    exact ⟨by simpa using heq, rfl⟩
  · rintro ⟨rfl, rfl⟩
    exact List.append_nil _

/-- What one turn does with the first segment. -/
theorem dotStep_flat {segment : Text} {rest out : List Text} (h : '/' ∉ segment) (hout : Plain out) :
    dotStep (flat (segment :: rest)) (flat out) =
      if segment = ['.'] then (if rest = [] then ['/'] else flat rest, flat out)
      else if segment = ['.', '.'] then
        (if rest = [] then ['/'] else flat rest, flat out.dropLast)
      else (flat rest, flat (out ++ [segment])) := by
  have hdot : ['/', '.', '/'] <+: flat (segment :: rest) ↔ segment = ['.'] ∧ rest ≠ [] :=
    @starts_iff segment ['.'] rest h (by decide)
  have hdots : ['/', '.', '.', '/'] <+: flat (segment :: rest) ↔
      segment = ['.', '.'] ∧ rest ≠ [] := @starts_iff segment ['.', '.'] rest h (by decide)
  have hdotEnd : flat (segment :: rest) = ['/', '.'] ↔ segment = ['.'] ∧ rest = [] :=
    @equals_iff segment ['.'] rest (by decide)
  have hdotsEnd : flat (segment :: rest) = ['/', '.', '.'] ↔ segment = ['.', '.'] ∧ rest = [] :=
    @equals_iff segment ['.', '.'] rest (by decide)
  have hparent : ¬ ['.', '.', '/'] <+: flat (segment :: rest) := by simp
  have hhere : ¬ ['.', '/'] <+: flat (segment :: rest) := by simp
  have hword : ¬ (flat (segment :: rest) = ['.'] ∨ flat (segment :: rest) = ['.', '.']) := by simp
  rw [dotStep, if_neg hparent, if_neg hhere]
  by_cases hd : segment = ['.']
  · by_cases hr : rest = []
    · rw [if_neg fun h => (hdot.mp h).2 hr, if_pos (hdotEnd.mpr ⟨hd, hr⟩), if_pos hd, if_pos hr]
    · rw [if_pos (hdot.mpr ⟨hd, hr⟩), if_pos hd, if_neg hr]
      subst hd
      rfl
  · rw [if_neg fun h => hd (hdot.mp h).1, if_neg fun h => hd (hdotEnd.mp h).1, if_neg hd]
    by_cases hdd : segment = ['.', '.']
    · by_cases hr : rest = []
      · rw [if_neg fun h => (hdots.mp h).2 hr, if_pos (hdotsEnd.mpr ⟨hdd, hr⟩), if_pos hdd,
          if_pos hr, dropSegment_flat hout]
      · rw [if_pos (hdots.mpr ⟨hdd, hr⟩), if_pos hdd, if_neg hr, dropSegment_flat hout]
        subst hdd
        rfl
    · rw [if_neg fun h => hdd (hdots.mp h).1, if_neg fun h => hdd (hdotsEnd.mp h).1, if_neg hword,
        if_neg hdd, flat_cons, List.tail_cons, takeWhile_segment h, dropWhile_segment h,
        flat_append, flat_cons, flat_nil, List.append_nil]
      rfl

theorem climbsNow_flat {segment : Text} {rest out : List Text} (h : '/' ∉ segment) :
    climbsNow (flat (segment :: rest)) (flat out) = true ↔ segment = ['.', '.'] ∧ out = [] := by
  have hdots : ['/', '.', '.', '/'] <+: flat (segment :: rest) ↔
      segment = ['.', '.'] ∧ rest ≠ [] := @starts_iff segment ['.', '.'] rest h (by decide)
  have hdotsEnd : flat (segment :: rest) = ['/', '.', '.'] ↔ segment = ['.', '.'] ∧ rest = [] :=
    @equals_iff segment ['.', '.'] rest (by decide)
  simp only [climbsNow, Bool.and_eq_true, Bool.or_eq_true, decide_eq_true_eq, flat_eq_nil,
    hdots, hdotsEnd]
  constructor
  · rintro ⟨hout, ⟨hdd, -⟩ | ⟨hdd, -⟩⟩
    · exact ⟨hdd, hout⟩
    · exact ⟨hdd, hout⟩
  · rintro ⟨hdd, hout⟩
    by_cases hr : rest = []
    · exact ⟨hout, .inr ⟨hdd, hr⟩⟩
    · exact ⟨hout, .inl ⟨hdd, hr⟩⟩

theorem plain_dropLast {out : List Text} (h : Plain out) : Plain out.dropLast :=
  fun segment hmem => h segment (List.dropLast_subset _ hmem)

theorem plain_append {a b : List Text} (ha : Plain a) (hb : Plain b) : Plain (a ++ b) :=
  fun segment hmem => (List.mem_append.mp hmem).elim (ha segment) (hb segment)

theorem plain_splitOn (text : Text) : Plain (splitOn '/' text) := not_mem_of_splitOn '/' text

theorem removeDots_nil (fuel : Nat) (output : Text) : removeDots fuel [] output = output := by
  cases fuel <;> rfl

theorem removeDots_slash {fuel : Nat} (h : 1 ≤ fuel) (output : Text) :
    removeDots fuel ['/'] output = output ++ ['/'] := by
  obtain ⟨fuel, rfl⟩ : ∃ k, fuel = k + 1 := ⟨fuel - 1, by omega⟩
  rw [removeDots, if_neg (List.cons_ne_nil _ _)]
  exact removeDots_nil fuel (output ++ ['/'])

theorem dotClimbs_slash (fuel : Nat) (output : Text) : dotClimbs fuel ['/'] output = false := by
  rcases fuel with _ | _ | fuel
  · rfl
  · simp [dotClimbs, climbsNow]
  · simp [dotClimbs, climbsNow, dotStep]

/-- On an absolute path the turns walk over its segments. -/
theorem removeDots_flat {segments out : List Text} {fuel : Nat} (hs : Plain segments)
    (hout : Plain out) (hfuel : (flat segments).length ≤ fuel) :
    removeDots fuel (flat segments) (flat out) = flat (walk segments out) ∧
      dotClimbs fuel (flat segments) (flat out) = walkClimbs segments out := by
  induction segments generalizing out fuel with
  | nil => cases fuel <;> exact ⟨rfl, rfl⟩
  | cons segment rest ih =>
    obtain ⟨hsegment, hrest⟩ := List.forall_mem_cons.mp hs
    simp only [flat_cons, List.length_cons, List.length_append] at hfuel
    obtain ⟨fuel, rfl⟩ : ∃ k, fuel = k + 1 := ⟨fuel - 1, by omega⟩
    have hne : flat (segment :: rest) ≠ [] := by simp
    rw [removeDots, dotClimbs, if_neg hne, dotStep_flat hsegment hout, walk, walkClimbs,
      decide_eq_true hne, Bool.true_and]
    have hnow : climbsNow (flat (segment :: rest)) (flat out) =
        (decide (segment = ['.', '.']) && decide (out = [])) := by
      rw [Bool.eq_iff_iff, climbsNow_flat hsegment, Bool.and_eq_true, decide_eq_true_eq,
        decide_eq_true_eq]
    rw [hnow]
    by_cases hd : segment = ['.']
    · have hlength : 1 ≤ fuel := by
        rw [hd, List.length_singleton] at hfuel
        omega
      have hdd : segment ≠ ['.', '.'] := by simp [hd]
      simp only [if_pos hd, decide_eq_false hdd, Bool.false_and, Bool.false_or]
      by_cases hr : rest = []
      · subst hr
        exact ⟨by simp [removeDots_slash hlength], dotClimbs_slash fuel _⟩
      · simp only [if_neg hr]
        exact ih hrest hout (by omega)
    · by_cases hdd : segment = ['.', '.']
      · have hlength : 1 ≤ fuel := by
          rw [hdd] at hfuel
          simp only [List.length_cons, List.length_nil] at hfuel
          omega
        simp only [if_neg hd, if_pos hdd, decide_eq_true hdd, Bool.true_and]
        by_cases hr : rest = []
        · subst hr
          exact ⟨by simp [removeDots_slash hlength], by simp [dotClimbs_slash, walkClimbs]⟩
        · simp only [if_neg hr]
          have hfuel : (flat rest).length ≤ fuel := by omega
          obtain ⟨hremoved, hclimbs⟩ := ih hrest (plain_dropLast hout) hfuel
          exact ⟨hremoved, congrArg _ hclimbs⟩
      · simp only [if_neg hd, if_neg hdd, decide_eq_false hdd, Bool.false_and, Bool.false_or]
        exact ih hrest (plain_append hout (List.forall_mem_singleton.mpr hsegment)) (by omega)

/-! ## Resolution over segments -/

def dots : List Text := [['.'], ['.', '.']]

def NoDots (segments : List Text) : Prop := ∀ segment ∈ segments, segment ∉ dots

theorem walk_noDots {segments : List Text} (h : NoDots segments) (more out : List Text) :
    walk (segments ++ more) out = walk more (out ++ segments) ∧
      walkClimbs (segments ++ more) out = walkClimbs more (out ++ segments) := by
  induction segments generalizing out with
  | nil => simp
  | cons segment rest ih =>
    obtain ⟨hsegment, hrest⟩ := List.forall_mem_cons.mp h
    simp only [dots, List.mem_cons, List.not_mem_nil, or_false, not_or] at hsegment
    have hnext := ih hrest (out ++ [segment])
    rw [List.append_assoc, List.singleton_append] at hnext
    rw [List.cons_append, walk, walkClimbs, if_neg hsegment.1, if_neg hsegment.2,
      if_neg hsegment.1, if_neg hsegment.2]
    exact hnext

theorem merge_flat {segments : List Text} {last : Text} (hlast : '/' ∉ last) (path : Text) :
    merge (flat (segments ++ [last])) path = flat (segments ++ splitOn '/' path) := by
  have hdrop : (last.reverse ++ '/' :: (flat segments).reverse).dropWhile (· ≠ '/') =
      '/' :: (flat segments).reverse := by
    rw [List.dropWhile_append_of_pos]
    · simp
    · intro c hc
      exact decide_eq_true (ne_of_mem_of_not_mem (List.mem_reverse.mp hc) hlast)
  simp only [merge, flat_append, flat_cons, flat_nil, List.append_nil, List.reverse_append,
    List.reverse_cons, List.append_assoc, List.cons_append, List.nil_append, hdrop,
    List.reverse_reverse, flat_splitOn]

/-- A relative path is walked from the directory of its base. -/
theorem resolvePath_flat {segments : List Text} {last path : Text} (hs : Plain segments)
    (hlast : '/' ∉ last) (hdots : NoDots segments) (hpath : path ≠ [])
    (hrelative : ¬ ['/'] <+: path) :
    resolvePath (flat (segments ++ [last])) path =
        flat (walk (splitOn '/' path) segments) ∧
      climbs (flat (segments ++ [last])) path = walkClimbs (splitOn '/' path) segments := by
  have hplain : Plain (segments ++ splitOn '/' path) := plain_append hs (plain_splitOn path)
  have hnone : Plain [] := List.forall_mem_nil _
  obtain ⟨hremoved, hclimbs⟩ := removeDots_flat hplain hnone le_rfl
  obtain ⟨hwalk, hwalkClimbs⟩ := walk_noDots hdots (splitOn '/' path) []
  rw [List.nil_append] at hwalk hwalkClimbs
  rw [resolvePath, climbs, if_neg hpath, mergedPath, if_neg hrelative, merge_flat hlast,
    removeDotSegments, decide_eq_true hpath, Bool.true_and]
  exact ⟨hremoved.trans (by rw [hwalk]), hclimbs.trans hwalkClimbs⟩

/-! ## Percent escapes -/

def hexValue (byte : UInt8) : Option Nat :=
  if 48 ≤ byte ∧ byte ≤ 57 then some (byte.toNat - 48)
  else if 97 ≤ byte ∧ byte ≤ 102 then some (byte.toNat - 97 + 10)
  else if 65 ≤ byte ∧ byte ≤ 70 then some (byte.toNat - 65 + 10)
  else none

/-- The bytes that a text with escapes stands for. -/
def unescape : List UInt8 → Option (List UInt8)
  | [] => some []
  | 37 :: high :: low :: rest =>
    (hexValue high).bind fun h => (hexValue low).bind fun l =>
      (unescape rest).map (UInt8.ofNat (16 * h + l) :: ·)
  | byte :: rest => if byte = 37 then none else (unescape rest).map (byte :: ·)

def decode (text : Text) : Option Text := (unescape (Utf8.encode text)).bind Utf8.decode

theorem unescape_cons {byte : UInt8} (h : byte ≠ 37) (rest : List UInt8) :
    unescape (byte :: rest) = (unescape rest).map (byte :: ·) := by
  rw [unescape, if_neg h]
  intro high low more hbyte
  exact absurd hbyte h

theorem unescape_append {a b x y : List UInt8} (ha : unescape a = some x)
    (hb : unescape b = some y) : unescape (a ++ b) = some (x ++ y) := by
  induction a using unescape.induct generalizing x with
  | case1 =>
    obtain rfl := Option.some.inj ha
    exact hb
  | case2 high low rest ih =>
    rw [unescape] at ha
    obtain ⟨h, hhigh, ha⟩ := Option.bind_eq_some_iff.mp ha
    obtain ⟨l, hlow, ha⟩ := Option.bind_eq_some_iff.mp ha
    obtain ⟨decoded, hrest, rfl⟩ := Option.map_eq_some_iff.mp ha
    simp only [List.cons_append, unescape, hhigh, hlow, ih hrest, Option.bind_some,
      Option.map_some]
  | case3 rest hcut =>
    rw [unescape] at ha
    · cases ha
    · exact hcut
  | case4 byte rest hcut hbyte ih =>
    rw [unescape_cons hbyte] at ha
    obtain ⟨decoded, hrest, rfl⟩ := Option.map_eq_some_iff.mp ha
    rw [List.cons_append, unescape_cons hbyte, ih hrest, Option.map_some, List.cons_append]

theorem decode_eq_some {raw text : Text} :
    decode raw = some text ↔ unescape (Utf8.encode raw) = some (Utf8.encode text) := by
  constructor
  · intro h
    obtain ⟨bytes, hbytes, h⟩ := Option.bind_eq_some_iff.mp h
    rw [hbytes, Utf8.encode_of_decode h]
  · intro h
    rw [decode, h, Option.bind_some, Utf8.decode_encode]

theorem decode_nil : decode [] = some [] := decode_eq_some.mpr rfl

/-- Segment by segment, a path is decoded as a whole. -/
theorem decode_flat {raws parts : List Text}
    (h : List.Forall₂ (fun raw part => decode raw = some part) raws parts) :
    decode (flat raws) = some (flat parts) := by
  induction h with
  | nil => exact decode_nil
  | @cons raw part raws parts hraw _ ih =>
    have hslash : unescape (Utf8.encode ['/']) = some (Utf8.encode ['/']) := by decide +kernel
    have hrest := unescape_append (decode_eq_some.mp hraw) (decode_eq_some.mp ih)
    have hall := unescape_append hslash hrest
    rw [← Utf8.encode_append, ← Utf8.encode_append, ← Utf8.encode_append,
      ← Utf8.encode_append] at hall
    exact decode_eq_some.mpr hall

/-- A text without escapes stands for itself. -/
theorem decode_of_not_mem {text : Text} (h : '%' ∉ text) : decode text = some text := by
  have hbytes : ∀ byte ∈ Utf8.encode text, byte ≠ 37 := by
    intro byte hbyte heq
    subst heq
    obtain ⟨c, hc, hmem⟩ := List.mem_flatMap.mp hbyte
    have hnat : c.toNat = '%'.toNat := Utf8.toNat_of_mem hmem (by decide)
    rw [Char.toNat_inj.mp hnat] at hc
    exact h hc
  refine decode_eq_some.mpr ?_
  generalize Utf8.encode text = bytes at hbytes
  induction bytes with
  | nil => rfl
  | cons byte rest ih =>
    obtain ⟨hbyte, hrest⟩ := List.forall_mem_cons.mp hbytes
    rw [unescape_cons hbyte, ih hrest, Option.map_some]

end IntoMarkdown.Lib.Uri
