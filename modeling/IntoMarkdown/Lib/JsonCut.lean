import IntoMarkdown.Lib.JsonText
import IntoMarkdown.Lib.Utf8

/-! # Cut JSON texts

What the reader takes from a text it takes from every longer text as well, so
that the text of a container has no shorter reading: a cut text is rejected. -/

namespace IntoMarkdown.Lib.Json

variable {ν μ : Type}

/-! ## Strings, words and numbers -/

theorem skipSpace_append {cs rest : List Char} {c : Char} (h : skipSpace cs = c :: rest)
    (more : List Char) : skipSpace (cs ++ more) = c :: (rest ++ more) := by
  unfold skipSpace at h ⊢
  rw [List.dropWhile_append, h]
  rfl

theorem readHex4_append {cs rest : List Char} {n : Nat} (h : readHex4 cs = some (n, rest))
    (more : List Char) : readHex4 (cs ++ more) = some (n, rest ++ more) := by
  unfold readHex4 at h
  split at h
  · rename_i a b c d cs'
    simp only [List.cons_append, readHex4]
    cases ha : hexValue a <;> cases hb : hexValue b <;> cases hc : hexValue c <;>
      cases hd : hexValue d <;> simp [ha, hb, hc, hd] at h ⊢
    obtain ⟨hn, rfl⟩ := h
    exact ⟨hn, rfl⟩
  · cases h

theorem readUnicode_append {cs rest : List Char} {c : Char} (h : readUnicode cs = some (c, rest))
    (more : List Char) : readUnicode (cs ++ more) = some (c, rest ++ more) := by
  unfold readUnicode at h ⊢
  cases hhigh : readHex4 cs with
  | none => simp [hhigh] at h
  | some r =>
    obtain ⟨high, cs'⟩ := r
    rw [hhigh] at h
    rw [readHex4_append hhigh]
    simp only [Option.bind_eq_bind, Option.bind_some] at h ⊢
    split_ifs at h ⊢ with h1 h2
    · -- the second half of a surrogate pair
      split at h
      · rename_i cs''
        cases hlow : readHex4 cs'' with
        | none => simp [hlow] at h
        | some r =>
          obtain ⟨low, cs3⟩ := r
          rw [hlow] at h
          simp only [List.cons_append, readHex4_append hlow, Option.bind_some] at h ⊢
          split_ifs at h ⊢ with h3
          simp only [Option.pure_def, Option.some.injEq, Prod.mk.injEq] at h ⊢
          exact ⟨h.1, congrArg (· ++ more) h.2⟩
      · cases h
    · simp only [Option.pure_def, Option.some.injEq, Prod.mk.injEq] at h ⊢
      exact ⟨h.1, congrArg (· ++ more) h.2⟩

theorem readChar_append {cs rest : List Char} {c : Char} (h : readChar cs = some (c, rest))
    (more : List Char) : readChar (cs ++ more) = some (c, rest ++ more) := by
  unfold readChar at h
  split at h
  · cases h
  · rename_i d cs'
    simp only [List.cons_append, readChar]
    split_ifs at h ⊢ with h1 h2
    · split at h
      · cases h
      · rename_i e cs''
        simp only [List.cons_append]
        split_ifs at h ⊢ with h3
        · exact readUnicode_append h more
        · cases he : simpleEscape e with
          | none => simp [he] at h
          | some x =>
            rw [he] at h
            cases h
            rfl
    · cases h
      rfl

theorem readChars_append {fuel fuel' : Nat} {cs rest s : List Char}
    (h : readChars fuel cs = some (s, rest)) (hfuel : fuel ≤ fuel') (more : List Char) :
    readChars fuel' (cs ++ more) = some (s, rest ++ more) := by
  induction fuel generalizing fuel' cs s with
  | zero => cases h
  | succ fuel ih =>
    obtain ⟨fuel', rfl⟩ := Nat.exists_eq_add_of_le' (Nat.zero_lt_of_lt hfuel)
    unfold readChars at h
    split at h
    · cases h
    · rename_i c cs'
      simp only [List.cons_append, readChars]
      split_ifs at h ⊢ with hq
      · cases h
        rfl
      · cases hc : readChar (c :: cs') with
        | none => simp [hc] at h
        | some r =>
          obtain ⟨d, cs''⟩ := r
          have happ := readChar_append hc more
          rw [List.cons_append] at happ
          rw [hc] at h
          rw [happ]
          cases hs : readChars fuel cs'' with
          | none => simp [hs] at h
          | some r =>
            obtain ⟨s', rest'⟩ := r
            simp only [Option.bind_eq_bind, Option.bind_some, hs] at h
            cases h
            have htail : readChars fuel' (cs'' ++ more) = some (s', rest ++ more) :=
              ih hs (by omega)
            simp [htail]

theorem readString_append {cs rest : List Char} {s : String} (h : readString cs = .ok (s, rest))
    (more : List Char) : readString (cs ++ more) = .ok (s, rest ++ more) := by
  unfold readString at h ⊢
  split at h
  · cases h
  · rename_i t cs' ht
    have happ := readChars_append ht
      (show cs.length + 1 ≤ (cs ++ more).length + 1 by simp) more
    rw [happ]
    cases h
    rfl

theorem readWord_more {word : List Char} {w v : Value μ} {cs rest : List Char}
    (h : readWord word w cs = .ok (v, rest)) (more : List Char) :
    readWord word w (cs ++ more) = .ok (v, rest ++ more) := by
  unfold readWord at h ⊢
  split_ifs at h with hp
  obtain ⟨tail, rfl⟩ := hp
  obtain ⟨rfl, rfl⟩ := Prod.mk.inj (Except.ok.inj h)
  rw [if_pos ⟨tail ++ more, by simp⟩]
  simp

theorem readNumber_append {read : List Char → Option μ} {cs rest : List Char} {v : Value μ}
    (h : readNumber read cs = .ok (v, rest)) (hrest : rest ≠ []) (more : List Char) :
    readNumber read (cs ++ more) = .ok (v, rest ++ more) := by
  unfold readNumber at h ⊢
  split at h
  · cases h
  · rename_i n hn
    obtain ⟨rfl, rfl⟩ := Prod.mk.inj (Except.ok.inj h)
    have hlen : (cs.takeWhile isNumeric).length ≠ cs.length := by
      intro hlen
      have hsum := congrArg List.length (List.takeWhile_append_dropWhile (p := isNumeric) (l := cs))
      rw [List.length_append] at hsum
      exact hrest (List.length_eq_zero_iff.mp (by omega))
    rw [List.takeWhile_append, if_neg hlen, hn, List.dropWhile_append, if_neg (by simpa using hrest)]

/-! ## Values -/

theorem readItems_ne_nil {read : List Char → Option μ} {fuel remaining : Nat} {cs rest : List Char}
    {vs : List (Value μ)} (h : readItems read fuel remaining false cs = .ok (vs, rest)) :
    cs ≠ [] := by
  rintro rfl
  cases fuel <;> cases h

theorem readEntries_ne_nil {read : List Char → Option μ} {fuel remaining : Nat}
    {cs rest : List Char} {vs : List (String × Value μ)}
    (h : readEntries read fuel remaining false cs = .ok (vs, rest)) : cs ≠ [] := by
  rintro rfl
  cases fuel <;> cases h

theorem if_append (first : Bool) (c : Char) (rest more : List Char) :
    (if first = true then c :: (rest ++ more) else rest ++ more) =
      (if first = true then c :: rest else rest) ++ more := by
  cases first <;> rfl

/-- The reader's three functions take from a longer text what they take from a
shorter one; a number has to end before the shorter text does. By induction on
the fuel. -/
theorem read_append (read : List Char → Option μ) (fuel : Nat) :
    (∀ fuel' remaining cs v rest more, fuel ≤ fuel' → (rest ≠ [] ∨ v.IsContainer) →
      readValue read fuel remaining cs = .ok (v, rest) →
      readValue read fuel' remaining (cs ++ more) = .ok (v, rest ++ more)) ∧
    (∀ fuel' remaining first cs vs rest more, fuel ≤ fuel' →
      readItems read fuel remaining first cs = .ok (vs, rest) →
      readItems read fuel' remaining first (cs ++ more) = .ok (vs, rest ++ more)) ∧
    (∀ fuel' remaining first cs vs rest more, fuel ≤ fuel' →
      readEntries read fuel remaining first cs = .ok (vs, rest) →
      readEntries read fuel' remaining first (cs ++ more) = .ok (vs, rest ++ more)) := by
  induction fuel with
  | zero => exact ⟨nofun, nofun, nofun⟩
  | succ fuel ih =>
    obtain ⟨ihvalue, ihitems, ihentries⟩ := ih
    refine ⟨?_, ?_, ?_⟩
    · intro fuel' remaining cs v rest more hfuel hend h
      obtain ⟨fuel', rfl⟩ := Nat.exists_eq_add_of_le' (Nat.zero_lt_of_lt hfuel)
      have hfuel : fuel ≤ fuel' := by omega
      unfold readValue at h
      split at h
      · cases h
      · rename_i c cs' hcs
        unfold readValue
        rw [skipSpace_append hcs]
        dsimp only
        split_ifs at h ⊢ with h1 h2 h3 h4 h5 h6 h7 h8 h9
        · obtain ⟨⟨s, cs''⟩, hs, h⟩ := ok_bind h
          obtain ⟨rfl, rfl⟩ := Prod.mk.inj (Except.ok.inj h)
          rw [readString_append hs]
          rfl
        · obtain ⟨⟨items, cs''⟩, hitems, h⟩ := ok_bind h
          obtain ⟨rfl, rfl⟩ := Prod.mk.inj (Except.ok.inj h)
          rw [ihitems _ _ _ _ _ _ more hfuel hitems]
          rfl
        · obtain ⟨⟨entries, cs''⟩, hentries, h⟩ := ok_bind h
          obtain ⟨rfl, rfl⟩ := Prod.mk.inj (Except.ok.inj h)
          rw [ihentries _ _ _ _ _ _ more hfuel hentries]
          rfl
        · exact readWord_more h more
        · exact readWord_more h more
        · exact readWord_more h more
        · have hnumber : ¬ v.IsContainer := by
            unfold readNumber at h
            split at h
            · cases h
            · obtain ⟨rfl, -⟩ := Prod.mk.inj (Except.ok.inj h)
              exact id
          exact readNumber_append h (hend.resolve_right hnumber) more
    · intro fuel' remaining first cs vs rest more hfuel h
      obtain ⟨fuel', rfl⟩ := Nat.exists_eq_add_of_le' (Nat.zero_lt_of_lt hfuel)
      have hfuel : fuel ≤ fuel' := by omega
      unfold readItems at h
      split at h
      · cases h
      · rename_i c cs' hcs
        unfold readItems
        rw [skipSpace_append hcs]
        dsimp only
        by_cases h1 : c = ']'
        · rw [if_pos h1] at h ⊢
          cases h
          rfl
        · rw [if_neg h1] at h ⊢
          by_cases h2 : first = true ∨ c = ','
          · rw [if_pos h2] at h ⊢
            obtain ⟨⟨v, cs''⟩, hvalue, h⟩ := ok_bind h
            obtain ⟨⟨items, cs3⟩, hitems, h⟩ := ok_bind h
            obtain ⟨rfl, rfl⟩ := Prod.mk.inj (Except.ok.inj h)
            have hv := ihvalue _ _ _ _ _ more hfuel (.inl (readItems_ne_nil hitems)) hvalue
            rw [if_append, hv]
            simp only [bind, Except.bind]
            rw [ihitems _ _ _ _ _ _ more hfuel hitems]
            rfl
          · rw [if_neg h2] at h
            cases h
    · intro fuel' remaining first cs vs rest more hfuel h
      obtain ⟨fuel', rfl⟩ := Nat.exists_eq_add_of_le' (Nat.zero_lt_of_lt hfuel)
      have hfuel : fuel ≤ fuel' := by omega
      unfold readEntries at h
      split at h
      · cases h
      · rename_i c cs' hcs
        unfold readEntries
        rw [skipSpace_append hcs]
        dsimp only
        by_cases h1 : c = '\x7d'
        · rw [if_pos h1] at h ⊢
          cases h
          rfl
        · rw [if_neg h1] at h ⊢
          by_cases h2 : first = true ∨ c = ','
          · rw [if_pos h2] at h ⊢
            split at h
            · rename_i cs'' hkey
              obtain ⟨⟨key, cs3⟩, hs, h⟩ := ok_bind h
              dsimp only at h
              split at h
              · rename_i cs4 hcolon
                obtain ⟨⟨v, cs5⟩, hvalue, h⟩ := ok_bind h
                obtain ⟨⟨entries, cs6⟩, hentries, h⟩ := ok_bind h
                obtain ⟨rfl, rfl⟩ := Prod.mk.inj (Except.ok.inj h)
                have hv := ihvalue _ _ _ _ _ more hfuel (.inl (readEntries_ne_nil hentries)) hvalue
                rw [if_append, skipSpace_append hkey]
                simp only [readString_append hs, bind, Except.bind, skipSpace_append hcolon, hv]
                rw [ihentries _ _ _ _ _ _ more hfuel hentries]
                rfl
              · cases h
            · cases h
          · rw [if_neg h2] at h
            cases h

theorem readValue_container {read : List Char → Option μ} {fuel remaining : Nat}
    {cs rest : List Char} {c : Char} {v : Value μ} (hc : c = '[' ∨ c = '\x7b')
    (h : readValue read fuel remaining (c :: cs) = .ok (v, rest)) : v.IsContainer := by
  have hspace : isSpace c = false := by
    rcases hc with rfl | rfl <;> decide
  cases fuel with
  | zero => cases h
  | succ fuel =>
    unfold readValue at h
    rw [skipSpace_cons hspace] at h
    rcases hc with rfl | rfl
    · simp only [Char.reduceEq, ↓reduceIte] at h
      split_ifs at h
      obtain ⟨⟨items, cs'⟩, -, h⟩ := ok_bind h
      obtain ⟨rfl, -⟩ := Prod.mk.inj (Except.ok.inj h)
      trivial
    · simp only [Char.reduceEq, ↓reduceIte] at h
      split_ifs at h
      obtain ⟨⟨entries, cs'⟩, -, h⟩ := ok_bind h
      obtain ⟨rfl, -⟩ := Prod.mk.inj (Except.ok.inj h)
      trivial

theorem print_container {N : Numerals ν μ} {v : Value ν} (hv : v.IsContainer) :
    ∃ c cs, print N v = c :: cs ∧ (c = '[' ∨ c = '\x7b') := by
  cases v with
  | array items => exact ⟨_, _, rfl, .inl rfl⟩
  | object entries => exact ⟨_, _, rfl, .inr rfl⟩
  | _ => cases hv

/-- No text of a container has a shorter text that is read. -/
theorem parse_cut {N : Numerals ν μ} (hN : N.Lawful) {limit : Nat} {v : Value ν}
    (hv : v.IsContainer) {part more : List Char} (h : print N v = part ++ more) (hmore : more ≠ [])
    (w : Value μ) : parse N.read limit part ≠ .ok w := by
  intro hread
  obtain ⟨⟨u, rest⟩, hread, -⟩ := ok_bind hread
  obtain ⟨c, cs, hprint, hc⟩ := print_container (N := N) hv
  have hsize := size_le_length hN v
  rw [h, List.length_append] at hsize
  cases part with
  | nil => cases hread
  | cons d part =>
    obtain rfl : d = c := by
      rw [h] at hprint
      exact (List.cons.inj hprint).1
    have happ := (read_append N.read _).1 (2 * (d :: part).length + 2 + 2 * more.length) _ _ _ _ more
      (by omega) (.inr (readValue_container hc hread)) hread
    have hwhole := readValue_print hN v (2 * (d :: part).length + 2 + 2 * more.length) limit []
      (by omega) stops_nil
    rw [List.append_nil, h, happ] at hwhole
    split_ifs at hwhole
    have hend := (Prod.mk.inj (Except.ok.inj hwhole)).2
    exact hmore (List.append_eq_nil_iff.mp hend).2

theorem stops_space {spaces : List Char} (h : spaces.all isSpace = true) : Stops spaces := by
  rintro c cs rfl
  simp only [List.all_cons, Bool.and_eq_true] at h
  cases hn : isNumeric c with
  | false => rfl
  | true =>
    have hplain := isNumeric_plain hn
    simp [isPlain, h.1] at hplain

theorem skipSpace_space {spaces : List Char} (h : spaces.all isSpace = true) :
    skipSpace spaces = [] := by
  unfold skipSpace
  rw [List.dropWhile_eq_nil_iff]
  simpa using h

/-- Spaces after the text of a value are skipped. -/
theorem parse_print_space {N : Numerals ν μ} (hN : N.Lawful) {limit : Nat} {v : Value ν}
    (hv : v.depth ≤ limit) {spaces : List Char} (h : spaces.all isSpace = true) :
    parse N.read limit (print N v ++ spaces) = .ok (v.map N.value) := by
  have hsize := size_le_length hN v
  have hread := readValue_print hN v (2 * (print N v ++ spaces).length + 2) limit spaces
    (by rw [List.length_append]; omega) (stops_space h)
  unfold parse
  rw [hread, if_pos hv]
  simp only [bind, Except.bind, skipSpace_space h, ↓reduceIte]
  rfl

/-! ## Texts as bytes -/

/-- What a JSON writer puts into a file. -/
def write (N : Numerals ν μ) (v : Value ν) : List UInt8 := Utf8.encode (print N v)

/-- The one value of a file, where its bytes are UTF-8. -/
def readBytes (read : List Char → Option μ) (limit : Nat) (bytes : List UInt8) :
    Option (Value μ) :=
  (Utf8.decode bytes).bind fun text => (parse read limit text).toOption

theorem readBytes_write {N : Numerals ν μ} (hN : N.Lawful) {limit : Nat} {v : Value ν}
    (hv : v.depth ≤ limit) {spaces : List Char} (h : spaces.all isSpace = true) :
    readBytes N.read limit (write N v ++ Utf8.encode spaces) = some (v.map N.value) := by
  unfold readBytes write
  rw [← Utf8.encode_append, Utf8.decode_encode, Option.bind_some, parse_print_space hN hv h]
  rfl

theorem readBytes_cut {N : Numerals ν μ} (hN : N.Lawful) {limit : Nat} {v : Value ν}
    (hv : v.IsContainer) {part more : List UInt8} (h : write N v = part ++ more)
    (hmore : more ≠ []) : readBytes N.read limit part = none := by
  unfold readBytes
  cases htext : Utf8.decode part with
  | none => rfl
  | some text =>
    obtain ⟨tail, hprint, rfl⟩ := Utf8.decode_cut h htext
    have htail : tail ≠ [] := by
      rintro rfl
      exact hmore rfl
    cases hread : parse N.read limit text with
    | error e => simp [hread, Except.toOption]
    | ok w => exact absurd hread (parse_cut hN hv hprint htail w)

end IntoMarkdown.Lib.Json
