import IntoMarkdown.Lib.Except
import IntoMarkdown.Lib.Json

/-! # What a JSON text cannot contain

Every text that the reader accepts passes a scanner that knows only strings and
neighbours. So an object is never followed by another one, also where the place
lies inside a string, and a text starts as its value does. -/

namespace IntoMarkdown.Lib.Json
variable {μ : Type}

/-- Outside strings after a character, in a string, or after a backslash in one. -/
inductive Mode where
  | out (last : Char) | str | esc
  deriving DecidableEq

def scanChar : Mode → Char → Option Mode
  | .str, c => if c = '"' then some (.out '"') else if c = '\\' then some .esc else some .str
  | .esc, _ => some .str
  | .out last, c =>
    if isSpace c then some (.out last)
    else if last = '\x7d' ∧ c = '\x7b' then none
    else if last = '"' ∧ ¬ (c = ',' ∨ c = ':' ∨ c = ']' ∨ c = '\x7d') then none
    else if c = '"' then some .str
    else some (.out c)

def scan (mode : Mode) (text : List Char) : Option Mode := text.foldlM scanChar mode

theorem scan_append (mode : Mode) (a b : List Char) :
    scan mode (a ++ b) = (scan mode a).bind fun mode => scan mode b := by
  simp only [scan, List.foldlM_append]
  rfl

theorem scan_cons (mode : Mode) (c : Char) (cs : List Char) :
    scan mode (c :: cs) = (scanChar mode c).bind fun mode => scan mode cs := by
  simp only [scan, List.foldlM_cons]
  rfl

theorem scan_trans {m m' m'' : Mode} {a b : List Char} (ha : scan m a = some m')
    (hb : scan m' b = some m'') : scan m (a ++ b) = some m'' := by
  rw [scan_append, ha]
  exact hb

/-- A value may start here. -/
def Fresh (last : Char) : Prop := last ≠ '\x7d' ∧ last ≠ '"'

instance (last : Char) : Decidable (Fresh last) := inferInstanceAs (Decidable (_ ∧ _))

/-- Neither a brace, nor a quote, nor a space. -/
def isPlain (c : Char) : Bool := decide (Fresh c) && c ≠ '\x7b' && !isSpace c

/-- The reader has used a part of the text that leads from one mode to another. -/
def Uses (m m' : Mode) (text rest : List Char) : Prop :=
  ∃ used, text = used ++ rest ∧ scan m used = some m'

theorem Uses.refl (m : Mode) (text : List Char) : Uses m m text text := ⟨[], rfl, rfl⟩

theorem Uses.trans {m m' m'' : Mode} {a b c : List Char} (h : Uses m m' a b)
    (h' : Uses m' m'' b c) : Uses m m'' a c := by
  obtain ⟨u, rfl, hu⟩ := h
  obtain ⟨u', rfl, hu'⟩ := h'
  exact ⟨u ++ u', (List.append_assoc _ _ _).symm, scan_trans hu hu'⟩

theorem Uses.char {m m' : Mode} {c : Char} (h : scanChar m c = some m') (rest : List Char) :
    Uses m m' (c :: rest) rest := by
  refine ⟨[c], rfl, ?_⟩
  rw [scan_cons, h]
  rfl

theorem uses_skipSpace (last : Char) (cs : List Char) :
    Uses (.out last) (.out last) cs (skipSpace cs) := by
  induction cs with
  | nil => exact .refl _ _
  | cons c cs ih =>
    by_cases hc : isSpace c
    · have hskip : skipSpace (c :: cs) = skipSpace cs := by simp [skipSpace, hc]
      rw [hskip]
      exact (Uses.char (by simp [scanChar, hc]) _).trans ih
    · have hskip : skipSpace (c :: cs) = c :: cs := by simp [skipSpace, hc]
      rw [hskip]
      exact .refl _ _

theorem skipSpace_head {cs rest : List Char} {c : Char} (h : skipSpace cs = c :: rest) :
    isSpace c = false := by
  induction cs with
  | nil => cases h
  | cons d cs ih =>
    by_cases hd : isSpace d
    · exact ih (by simpa [skipSpace, hd] using h)
    · have hcons : d :: cs = c :: rest := by simpa [skipSpace, hd] using h
      obtain ⟨rfl, -⟩ := List.cons.inj hcons
      simpa using hd

/-! ## Strings, words and numbers -/

theorem scanChar_plain {c : Char} (h : c ≠ '"' ∧ c ≠ '\\') : scanChar .str c = some .str := by
  simp only [scanChar, if_neg h.1, if_neg h.2]

theorem hexValue_plain {c : Char} {n : Nat} (h : hexValue c = some n) : c ≠ '"' ∧ c ≠ '\\' := by
  constructor <;> (rintro rfl; simp [hexValue] at h)

theorem uses_readHex4 {cs rest : List Char} {n : Nat} (h : readHex4 cs = some (n, rest)) :
    Uses .str .str cs rest := by
  match cs, h with
  | a :: b :: c :: d :: cs, h =>
    simp only [readHex4, Option.bind_eq_bind, Option.bind_eq_some_iff, Option.pure_def,
      Option.some.injEq, Prod.mk.injEq] at h
    obtain ⟨_, ha, _, hb, _, hc, _, hd, -, rfl⟩ := h
    exact (Uses.char (scanChar_plain (hexValue_plain ha)) _).trans <|
      (Uses.char (scanChar_plain (hexValue_plain hb)) _).trans <|
      (Uses.char (scanChar_plain (hexValue_plain hc)) _).trans <|
      Uses.char (scanChar_plain (hexValue_plain hd)) _

theorem uses_escape (e : Char) (rest : List Char) : Uses .str .str ('\\' :: e :: rest) rest :=
  (Uses.char rfl _).trans (Uses.char rfl _)

theorem uses_readUnicode {cs rest : List Char} {c : Char} (h : readUnicode cs = some (c, rest)) :
    Uses .str .str cs rest := by
  simp only [readUnicode, Option.bind_eq_bind, Option.bind_eq_some_iff] at h
  obtain ⟨⟨high, cs'⟩, hhigh, h⟩ := h
  have hfirst := uses_readHex4 hhigh
  split_ifs at h with h1 h2
  · -- the second half of a surrogate pair
    split at h
    · rename_i cs'' hcs
      simp only [Option.bind_eq_some_iff] at h
      obtain ⟨⟨low, cs3⟩, hlow, h⟩ := h
      split_ifs at h
      simp only [Option.pure_def, Option.some.injEq, Prod.mk.injEq] at h
      obtain ⟨-, rfl⟩ := h
      obtain rfl : cs' = '\\' :: 'u' :: cs'' := hcs
      exact hfirst.trans ((uses_escape 'u' cs'').trans (uses_readHex4 hlow))
    · cases h
  · simp only [Option.pure_def, Option.some.injEq, Prod.mk.injEq] at h
    obtain ⟨-, rfl⟩ := h
    exact hfirst

theorem uses_readChar {c : Char} {cs rest : List Char} {d : Char} (hq : c ≠ '"')
    (h : readChar (c :: cs) = some (d, rest)) : Uses .str .str (c :: cs) rest := by
  simp only [readChar] at h
  split_ifs at h with hb hlow
  · subst hb
    cases cs with
    | nil => cases h
    | cons e cs =>
      simp only at h
      split_ifs at h with hu
      · exact (uses_escape e cs).trans (uses_readUnicode h)
      · obtain ⟨_, -, he⟩ := Option.map_eq_some_iff.mp h
        obtain ⟨-, rfl⟩ := Prod.mk.inj he
        exact uses_escape e _
  · obtain ⟨-, rfl⟩ := Prod.mk.inj (Option.some.inj h)
    exact Uses.char (scanChar_plain ⟨hq, hb⟩) _

theorem uses_readChars {fuel : Nat} {cs rest : List Char} {s : List Char}
    (h : readChars fuel cs = some (s, rest)) : Uses .str (.out '"') cs rest := by
  induction fuel generalizing cs s with
  | zero => cases h
  | succ fuel ih =>
    cases cs with
    | nil => cases h
    | cons c cs =>
      simp only [readChars] at h
      split_ifs at h with hq
      · obtain ⟨-, rfl⟩ := Prod.mk.inj (Option.some.inj h)
        subst hq
        exact Uses.char rfl _
      · simp only [Option.bind_eq_bind, Option.bind_eq_some_iff] at h
        obtain ⟨⟨d, cs'⟩, hd, ⟨s', cs''⟩, hs, h⟩ := h
        simp only [Option.pure_def, Option.some.injEq, Prod.mk.injEq] at h
        obtain ⟨-, rfl⟩ := h
        exact (uses_readChar hq hd).trans (ih hs)

theorem uses_readString {cs rest : List Char} {s : String} (h : readString cs = .ok (s, rest)) :
    Uses .str (.out '"') cs rest := by
  unfold readString at h
  split at h
  · cases h
  · rename_i hs
    obtain ⟨-, rfl⟩ := Prod.mk.inj (Except.ok.inj h)
    exact uses_readChars hs

/-- Characters that are neither delimiters nor quotes can be read one after another. -/
theorem scan_word {word : List Char} {last : Char} (hl : Fresh last)
    (h : word.all isPlain = true) :
    ∃ last', scan (.out last) word = some (.out last') := by
  induction word generalizing last with
  | nil => exact ⟨last, rfl⟩
  | cons c word ih =>
    simp only [List.all_cons, Bool.and_eq_true, isPlain, decide_eq_true_eq] at h
    obtain ⟨⟨⟨hc, -⟩, hspace⟩, htail⟩ := h
    rw [Bool.not_eq_true'] at hspace
    obtain ⟨last', hrest⟩ := ih hc htail
    refine ⟨last', ?_⟩
    rw [scan_cons]
    simp [scanChar, hspace, hl.1, hl.2, hc.2, hrest]

theorem isNumeric_plain {c : Char} (h : isNumeric c = true) : isPlain c = true := by
  have hne {d : Char} (hd : isNumeric d = false) : c ≠ d := by
    rintro rfl
    rw [h] at hd
    cases hd
  simp [isPlain, Fresh, isSpace, hne (d := '\x7d') (by decide), hne (d := '"') (by decide),
    hne (d := '\x7b') (by decide), hne (d := ' ') (by decide), hne (d := '\n') (by decide),
    hne (d := '\t') (by decide), hne (d := '\r') (by decide)]

theorem uses_readNumber {read : List Char → Option μ} {cs rest : List Char} {v : Value μ}
    {last : Char} (hl : Fresh last) (h : readNumber read cs = .ok (v, rest)) :
    ∃ last', Uses (.out last) (.out last') cs rest := by
  unfold readNumber at h
  split at h
  · cases h
  · obtain ⟨-, rfl⟩ := Prod.mk.inj (Except.ok.inj h)
    have hplain : (cs.takeWhile isNumeric).all isPlain = true := by
      rw [List.all_eq_true]
      exact fun c hc => isNumeric_plain (List.mem_takeWhile_imp hc)
    obtain ⟨last', hscan⟩ := scan_word hl hplain
    exact ⟨last', cs.takeWhile isNumeric, (List.takeWhile_append_dropWhile).symm, hscan⟩

theorem uses_readWord {word : List Char} {w v : Value μ} {cs rest : List Char} {last : Char}
    (hword : word.all isPlain = true) (hl : Fresh last)
    (h : readWord word w cs = .ok (v, rest)) :
    ∃ last', Uses (.out last) (.out last') cs rest := by
  unfold readWord at h
  split_ifs at h with hp
  obtain ⟨-, rfl⟩ := Prod.mk.inj (Except.ok.inj h)
  obtain ⟨tail, rfl⟩ := hp
  obtain ⟨last', hscan⟩ := scan_word hl hword
  exact ⟨last', word, by simp, hscan⟩

/-! ## Values -/

theorem scanChar_out {last c : Char} (hl : Fresh last) (hs : isSpace c = false) (hq : c ≠ '"') :
    scanChar (.out last) c = some (.out c) := by
  simp [scanChar, hs, hl.1, hl.2, hq]

/-- A character that may follow a value. -/
theorem scanChar_after {c : Char} (h : c = ',' ∨ c = ':' ∨ c = ']' ∨ c = '\x7d') (last : Char) :
    scanChar (.out last) c = some (.out c) := by
  rcases h with rfl | rfl | rfl | rfl <;> simp [scanChar, isSpace]

/-- The reader's three functions use text that scans from outside a string to
outside a string. By induction on the fuel. -/
theorem uses_read (read : List Char → Option μ) (fuel : Nat) :
    (∀ remaining cs v rest last, Fresh last → readValue read fuel remaining cs = .ok (v, rest) →
      ∃ last', Uses (.out last) (.out last') cs rest) ∧
    (∀ remaining first cs vs rest last, (first = true → Fresh last) →
      readItems read fuel remaining first cs = .ok (vs, rest) →
      ∃ last', Uses (.out last) (.out last') cs rest) ∧
    (∀ remaining first cs vs rest last, (first = true → Fresh last) →
      readEntries read fuel remaining first cs = .ok (vs, rest) →
      ∃ last', Uses (.out last) (.out last') cs rest) := by
  induction fuel with
  | zero => exact ⟨nofun, nofun, nofun⟩
  | succ fuel ih =>
    obtain ⟨ihvalue, ihitems, ihentries⟩ := ih
    refine ⟨?_, ?_, ?_⟩
    · intro remaining cs v rest last hl h
      have hskip := uses_skipSpace last cs
      unfold readValue at h
      split at h
      · cases h
      · rename_i c cs' hcs
        rw [hcs] at hskip
        have hspace := skipSpace_head hcs
        split_ifs at h with h1 h2 h3 h4 h5 h6 h7 h8 h9
        · -- a string
          obtain ⟨⟨s, cs''⟩, hs, h⟩ := ok_bind h
          obtain ⟨-, rfl⟩ := Prod.mk.inj (Except.ok.inj h)
          have hquote : scanChar (.out last) c = some .str := by
            subst h1
            simp [scanChar, isSpace, hl.1, hl.2]
          exact ⟨_, hskip.trans ((Uses.char hquote _).trans (uses_readString hs))⟩
        · -- an array
          obtain ⟨⟨items, cs''⟩, hitems, h⟩ := ok_bind h
          obtain ⟨-, rfl⟩ := Prod.mk.inj (Except.ok.inj h)
          have hfresh : Fresh c := by
            subst h2
            decide
          obtain ⟨last', huse⟩ := ihitems _ _ _ _ _ c (fun _ => hfresh) hitems
          exact ⟨last', hskip.trans ((Uses.char (scanChar_out hl hspace h1) _).trans huse)⟩
        · -- an object
          obtain ⟨⟨entries, cs''⟩, hentries, h⟩ := ok_bind h
          obtain ⟨-, rfl⟩ := Prod.mk.inj (Except.ok.inj h)
          have hfresh : Fresh c := by
            subst h4
            decide
          obtain ⟨last', huse⟩ := ihentries _ _ _ _ _ c (fun _ => hfresh) hentries
          exact ⟨last', hskip.trans ((Uses.char (scanChar_out hl hspace h1) _).trans huse)⟩
        · subst h6
          obtain ⟨last', huse⟩ := uses_readWord (by decide) (show Fresh 'n' by decide) h
          exact ⟨last', hskip.trans ((Uses.char (scanChar_out hl hspace h1) _).trans huse)⟩
        · subst h7
          obtain ⟨last', huse⟩ := uses_readWord (by decide) (show Fresh 't' by decide) h
          exact ⟨last', hskip.trans ((Uses.char (scanChar_out hl hspace h1) _).trans huse)⟩
        · subst h8
          obtain ⟨last', huse⟩ := uses_readWord (by decide) (show Fresh 'f' by decide) h
          exact ⟨last', hskip.trans ((Uses.char (scanChar_out hl hspace h1) _).trans huse)⟩
        · obtain ⟨last', huse⟩ := uses_readNumber hl h
          exact ⟨last', hskip.trans huse⟩
    · intro remaining first cs vs rest last hl h
      have hskip := uses_skipSpace last cs
      unfold readItems at h
      split at h
      · cases h
      · rename_i c cs' hcs
        rw [hcs] at hskip
        by_cases h1 : c = ']'
        · rw [if_pos h1] at h
          obtain ⟨-, rfl⟩ := Prod.mk.inj (Except.ok.inj h)
          exact ⟨c, hskip.trans (Uses.char (scanChar_after (.inr (.inr (.inl h1))) last) _)⟩
        rw [if_neg h1] at h
        by_cases h2 : first = true ∨ c = ','
        · rw [if_pos h2] at h
          obtain ⟨⟨v, cs1⟩, hv, h⟩ := ok_bind h
          obtain ⟨⟨items, cs2⟩, hitems, h⟩ := ok_bind h
          obtain ⟨-, rfl⟩ := Prod.mk.inj (Except.ok.inj h)
          cases first with
          | true =>
            obtain ⟨last1, huse⟩ := ihvalue _ _ _ _ _ (hl rfl) hv
            obtain ⟨last2, htail⟩ := ihitems _ _ _ _ _ last1 (by simp) hitems
            exact ⟨last2, hskip.trans (huse.trans htail)⟩
          | false =>
            obtain rfl : c = ',' := by simpa using h2
            obtain ⟨last1, huse⟩ := ihvalue _ _ _ _ ',' (by decide) hv
            obtain ⟨last2, htail⟩ := ihitems _ _ _ _ _ last1 (by simp) hitems
            exact ⟨last2, hskip.trans
              ((Uses.char (scanChar_after (.inl rfl) last) _).trans (huse.trans htail))⟩
        · rw [if_neg h2] at h
          cases h
    · intro remaining first cs vs rest last hl h
      have hskip := uses_skipSpace last cs
      unfold readEntries at h
      split at h
      · cases h
      · rename_i c cs' hcs
        rw [hcs] at hskip
        by_cases h1 : c = '\x7d'
        · rw [if_pos h1] at h
          obtain ⟨-, rfl⟩ := Prod.mk.inj (Except.ok.inj h)
          exact ⟨c, hskip.trans (Uses.char (scanChar_after (.inr (.inr (.inr h1))) last) _)⟩
        rw [if_neg h1] at h
        by_cases h2 : first = true ∨ c = ','
        · rw [if_pos h2] at h
          -- where the key starts, and what may come before it
          obtain ⟨before, hfresh, hkey⟩ : ∃ before, Fresh before ∧
              Uses (.out last) (.out before) (c :: cs') (if first then c :: cs' else cs') := by
            cases first with
            | true => exact ⟨last, hl rfl, .refl _ _⟩
            | false =>
              obtain rfl : c = ',' := by simpa using h2
              exact ⟨',', by decide, Uses.char (scanChar_after (.inl rfl) last) _⟩
          have hstart := (hskip.trans hkey).trans (uses_skipSpace before _)
          split at h
          · rename_i cs1 hcs1
            rw [hcs1] at hstart
            obtain ⟨⟨key, cs2⟩, hstring, h⟩ := ok_bind h
            have hquote : scanChar (.out before) '"' = some .str := by
              simp [scanChar, isSpace, hfresh.1, hfresh.2]
            have hname := (hstart.trans ((Uses.char hquote _).trans (uses_readString hstring))).trans
              (uses_skipSpace '"' _)
            simp only at h
            split at h
            · rename_i cs3 hcs3
              rw [hcs3] at hname
              obtain ⟨⟨v, cs4⟩, hv, h⟩ := ok_bind h
              obtain ⟨⟨entries, cs5⟩, hentries, h⟩ := ok_bind h
              obtain ⟨-, rfl⟩ := Prod.mk.inj (Except.ok.inj h)
              obtain ⟨last1, huse⟩ := ihvalue _ _ _ _ ':' (by decide) hv
              obtain ⟨last2, htail⟩ := ihentries _ _ _ _ _ last1 (by simp) hentries
              exact ⟨last2, hname.trans
                ((Uses.char (scanChar_after (.inr (.inl rfl)) '"') _).trans (huse.trans htail))⟩
            · cases h
          · cases h
        · rw [if_neg h2] at h
          cases h

theorem scan_of_parse {read : List Char → Option μ} {limit : Nat} {text : List Char} {v : Value μ}
    (h : parse read limit text = .ok v) : ∃ last', scan (.out ',') text = some (.out last') := by
  unfold parse at h
  obtain ⟨⟨w, rest⟩, hread, h⟩ := ok_bind h
  have hrest : skipSpace rest = [] := by
    by_contra hne
    simp [hne] at h
  obtain ⟨last', huse⟩ := (uses_read read _).1 _ _ _ _ ',' (by decide) hread
  obtain ⟨used, hused, hscan⟩ := huse.trans (uses_skipSpace last' rest)
  rw [hrest, List.append_nil] at hused
  exact ⟨last', hused ▸ hscan⟩

/-- No text has an object's end and then the first key of another one, not even
where the place lies in a string. -/
theorem parse_close_open {read : List Char → Option μ} {limit : Nat} {before after : List Char}
    {c : Char} {v : Value μ} (hs : isSpace c = false)
    (hc : ¬ (c = ',' ∨ c = ':' ∨ c = ']' ∨ c = '\x7d')) :
    parse read limit (before ++ '\x7d' :: '\x7b' :: '"' :: c :: after) ≠ .ok v := by
  intro h
  obtain ⟨last', hscan⟩ := scan_of_parse h
  have hquote : ∀ rest, scan (.out '"') (c :: rest) = none := by
    intro rest
    rw [scan_cons]
    simp [scanChar, hs, hc]
  have hfail : ∀ m, scan m ('\x7d' :: '\x7b' :: '"' :: c :: after) = none := by
    intro m
    cases m with
    | str =>
      have : scan .str ('\x7d' :: '\x7b' :: '"' :: c :: after) = scan (.out '"') (c :: after) := rfl
      rw [this, hquote]
    | esc =>
      have : scan .esc ('\x7d' :: '\x7b' :: '"' :: c :: after) = scan (.out '"') (c :: after) := rfl
      rw [this, hquote]
    | out last =>
      rw [scan_cons, scanChar_after (.inr (.inr (.inr rfl)))]
      rfl
  rw [scan_append] at hscan
  cases hb : scan (.out ',') before with
  | none => simp [hb] at hscan
  | some m => simp [hb, hfail] at hscan

/-! ## The start of a text and what comes after its value -/

/-- A value that a struct can be read from. -/
def Value.IsContainer : Value μ → Prop
  | .array _ | .object _ => True
  | _ => False

theorem readWord_value {word : List Char} {w v : Value μ} {cs rest : List Char}
    (h : readWord word w cs = .ok (v, rest)) : v = w := by
  unfold readWord at h
  split_ifs at h
  exact (Prod.mk.inj (Except.ok.inj h)).1.symm

theorem readValue_head {read : List Char → Option μ} {fuel remaining : Nat} {cs rest : List Char}
    {v : Value μ} (h : readValue read fuel remaining cs = .ok (v, rest)) (hv : v.IsContainer) :
    ∃ c cs', skipSpace cs = c :: cs' ∧ (c = '[' ∨ c = '\x7b') := by
  cases fuel with
  | zero => cases h
  | succ fuel =>
    unfold readValue at h
    split at h
    · cases h
    · rename_i c cs' hcs
      refine ⟨c, cs', hcs, ?_⟩
      split_ifs at h with h1 h2 h3 h4 h5 h6 h7 h8 h9
      · obtain ⟨⟨s, cs''⟩, -, h⟩ := ok_bind h
        obtain ⟨rfl, -⟩ := Prod.mk.inj (Except.ok.inj h)
        cases hv
      · exact Or.inl h2
      · exact Or.inr h4
      · rw [readWord_value h] at hv
        cases hv
      · rw [readWord_value h] at hv
        cases hv
      · rw [readWord_value h] at hv
        cases hv
      · unfold readNumber at h
        split at h
        · cases h
        · obtain ⟨rfl, -⟩ := Prod.mk.inj (Except.ok.inj h)
          cases hv

theorem parse_head {read : List Char → Option μ} {limit : Nat} {text : List Char} {v : Value μ}
    (h : parse read limit text = .ok v) (hv : v.IsContainer) :
    ∃ c cs, skipSpace text = c :: cs ∧ (c = '[' ∨ c = '\x7b') := by
  obtain ⟨⟨w, rest⟩, hread, h⟩ := ok_bind h
  have hvalue : w = v := by
    by_cases hrest : skipSpace rest = []
    · simpa [hrest, pure, Except.pure] using h
    · simp [hrest] at h
  exact readValue_head hread (hvalue ▸ hv)

/-- Numerals for values that hold no number. -/
def noNumbers (read : List Char → Option μ) : Numerals Empty μ where
  print := nofun
  read := read
  value := nofun

theorem noNumbers_lawful (read : List Char → Option μ) : (noNumbers read).Lawful where
  start := nofun
  numeric := nofun
  read := nofun

/-- Nothing but spaces comes after the value of a text. -/
theorem parse_trailing (read : List Char → Option μ) (limit : Nat) (v : Value Empty)
    {c : Char} {after : List Char} (hn : isNumeric c = false) (hs : isSpace c = false)
    (w : Value μ) : parse read limit (print (noNumbers read) v ++ c :: after) ≠ .ok w := by
  have hsize := size_le_length (noNumbers_lawful read) v
  intro h
  obtain ⟨⟨u, rest⟩, hread, h⟩ := ok_bind h
  have hprint := readValue_print (noNumbers_lawful read) v
    (2 * (print (noNumbers read) v ++ c :: after).length + 2) limit (c :: after)
    (by rw [List.length_append]; omega) (stops_cons hn after)
  rw [show (noNumbers read).read = read from rfl, hread] at hprint
  split_ifs at hprint
  obtain ⟨-, rfl⟩ := Prod.mk.inj (Except.ok.inj hprint)
  simp only [skipSpace_cons hs] at h
  cases h

end IntoMarkdown.Lib.Json
