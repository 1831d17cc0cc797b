import IntoMarkdown.Lib.MarkdownLines

/-! # Code in Markdown

How a code span and a fenced code block are read, and what keeps their content whole. -/

namespace IntoMarkdown.Lib.MarkdownCode
open Strings MarkdownLines

/-! ## Runs -/

/-- The longest run so far and the run at the end. -/
def runStep (needle : Char) (runs : Nat × Nat) (c : Char) : Nat × Nat :=
  if c = needle then (max runs.1 (runs.2 + 1), runs.2 + 1) else (runs.1, 0)

def runsFrom (needle : Char) (runs : Nat × Nat) (text : Text) : Nat × Nat :=
  text.foldl (runStep needle) runs

section
variable {needle : Char} {runs : Nat × Nat} {text : Text}

theorem longestRun_eq : longestRun needle text = (runsFrom needle (0, 0) text).1 := rfl

theorem runsFrom_append (more : Text) :
    runsFrom needle runs (text ++ more) = runsFrom needle (runsFrom needle runs text) more :=
  List.foldl_append

theorem le_runsFrom (needle : Char) (runs : Nat × Nat) (text : Text) :
    runs.1 ≤ (runsFrom needle runs text).1 := by
  induction text generalizing runs with
  | nil => exact Nat.le_refl _
  | cons c text ih =>
    refine Nat.le_trans ?_ (ih (runStep needle runs c))
    unfold runStep
    split
    · exact Nat.le_max_left _ _
    · exact Nat.le_refl _

theorem runsFrom_replicate (n : Nat) :
    n + 1 + runs.2 ≤ (runsFrom needle runs (List.replicate (n + 1) needle)).1 := by
  induction n generalizing runs with
  | zero =>
    rw [List.replicate_one, runsFrom, List.foldl_cons, List.foldl_nil, runStep, if_pos rfl]
    dsimp only
    omega
  | succ n ih =>
    have hnext := @ih (max runs.1 (runs.2 + 1), runs.2 + 1)
    rw [List.replicate_succ, runsFrom, List.foldl_cons, runStep, if_pos rfl]
    refine Nat.le_trans ?_ hnext
    dsimp only
    omega

/-- A run anywhere in the text is no longer than the longest one. -/
theorem le_longestRun {n : Nat} (h : List.replicate n needle <:+: text) :
    n ≤ longestRun needle text := by
  obtain ⟨before, after, rfl⟩ := h
  rw [longestRun_eq, runsFrom_append, runsFrom_append]
  refine Nat.le_trans ?_ (le_runsFrom needle _ after)
  cases n with
  | zero => exact Nat.zero_le _
  | succ n => exact Nat.le_trans (Nat.le_add_right _ _) (runsFrom_replicate n)

theorem runsFrom_last {c : Char} (hc : c ≠ needle) (h : text.getLast? = some c) :
    (runsFrom needle runs text).2 = 0 := by
  obtain ⟨start, rfl⟩ := List.getLast?_eq_some_iff.mp h
  rw [runsFrom_append]
  exact congrArg Prod.snd (if_neg hc)

end

/-! ## Fences -/

def fence (n : Nat) : Text := List.replicate n '\x60'

theorem length_fence (n : Nat) : (fence n).length = n := List.length_replicate

theorem eq_of_mem_fence {n : Nat} {c : Char} (h : c ∈ fence n) : c = '\x60' :=
  List.eq_of_mem_replicate h

theorem not_mem_fence {n : Nat} {c : Char} (h : c ≠ '\x60') : c ∉ fence n := fun hin =>
  h (eq_of_mem_fence hin)

theorem takeWhile_fence (n : Nat) : (fence n).takeWhile (· = '\x60') = fence n :=
  List.takeWhile_eq_self_iff.mpr fun _ hc => decide_eq_true (eq_of_mem_fence hc)

theorem fence_length {n : Nat} {rest : Text} (h : ∀ c ∈ rest.head?, c ≠ '\x60') :
    ((fence n ++ rest).takeWhile (· = '\x60')).length = n := by
  rw [takeWhile_append_of_head fun c hc => decide_eq_false (h c hc), takeWhile_fence,
    length_fence]

/-! ## Code spans -/

/-- The text up to the next run of exactly `n` backticks, and the text after it; `run` of
them end the content so far. -/
def closeSpan (n : Nat) : Nat → Text → Text → Option (Text × Text)
  | run, content, [] =>
    if run = n then some (content.take (content.length - n), []) else none
  | run, content, c :: rest =>
    if c = '\x60' then closeSpan n (run + 1) (content ++ [c]) rest
    else if run = n then some (content.take (content.length - n), c :: rest)
    else closeSpan n 0 (content ++ [c]) rest

/-- One space at both ends is no part of the content, unless all of it is spaces. -/
def stripSpan (content : Text) : Text :=
  if content.head? = some ' ' ∧ content.getLast? = some ' ' ∧ ¬ content.all (· = ' ') then
    content.tail.dropLast
  else content

/-- The content of the code span that the text starts with, and the text after it. -/
def readCodeSpan (text : Text) : Option (Text × Text) :=
  let n := (text.takeWhile (· = '\x60')).length
  if n = 0 then none
  else (closeSpan n 0 [] (text.drop n)).map fun r => (stripSpan r.1, r.2)

section
variable {n run : Nat} {longest : Nat} {content text rest : Text}

theorem closeSpan_scan (hrun : run < n) (hlong : (runsFrom '\x60' (longest, run) text).1 < n) :
    closeSpan n run content (text ++ rest) =
      closeSpan n (runsFrom '\x60' (longest, run) text).2 (content ++ text) rest := by
  induction text generalizing run longest content with
  | nil =>
    rw [List.nil_append, List.append_nil]
    rfl
  | cons c text ih =>
    have hmono := le_runsFrom '\x60' (runStep '\x60' (longest, run) c) text
    have hstep : runsFrom '\x60' (longest, run) (c :: text) =
        runsFrom '\x60' (runStep '\x60' (longest, run) c) text := rfl
    rw [hstep] at hlong ⊢
    rw [List.cons_append, closeSpan, List.append_cons content c text]
    by_cases hc : c = '\x60'
    · rw [runStep, if_pos hc] at hlong hmono ⊢
      rw [if_pos hc]
      have hnext : run + 1 < n :=
        ((Nat.le_max_right longest (run + 1)).trans hmono).trans_lt hlong
      exact ih hnext hlong
    · rw [runStep, if_neg hc] at hlong ⊢
      rw [if_neg hc, if_neg (Nat.ne_of_lt hrun)]
      exact ih (Nat.zero_lt_of_lt hrun) hlong

theorem closeSpan_fence (k : Nat) : closeSpan n run content (fence k) =
    if run + k = n then some ((content ++ fence k).take (content.length + k - n), [])
    else none := by
  unfold fence
  induction k generalizing run content with
  | zero => rw [List.replicate_zero, closeSpan, List.append_nil, Nat.add_zero, Nat.add_zero]
  | succ k ih =>
    rw [List.replicate_succ, closeSpan, if_pos rfl, ih, List.append_assoc, List.length_append,
      List.length_singleton, Nat.add_assoc, Nat.add_assoc, Nat.add_comm 1 k]
    rfl

/-- Content without runs as long as the fence, and without backticks at its ends, is read. -/
theorem readCodeSpan_fenced (hn : longestRun '\x60' text < n)
    (hhead : ∀ c ∈ text.head?, c ≠ '\x60') (hlast : ∃ c, text.getLast? = some c ∧ c ≠ '\x60') :
    readCodeSpan (fence n ++ text ++ fence n) = some (stripSpan text, []) := by
  obtain ⟨last, hlast, hlastNe⟩ := hlast
  have hpos : 0 < n := Nat.zero_lt_of_lt hn
  have hne : text ≠ [] := fun h => by
    rw [h] at hlast
    cases hlast
  have hstart : ((fence n ++ text ++ fence n).takeWhile (· = '\x60')).length = n := by
    rw [List.append_assoc, fence_length]
    rwa [List.head?_append_of_ne_nil _ hne]
  have hdrop : (fence n ++ text ++ fence n).drop n = text ++ fence n := by
    rw [List.append_assoc]
    exact List.drop_left' (length_fence n)
  have hscan : closeSpan n 0 [] (text ++ fence n) = _ := closeSpan_scan hpos hn
  unfold readCodeSpan
  dsimp only
  rw [hstart, hdrop, if_neg (Nat.ne_of_gt hpos), hscan, runsFrom_last hlastNe hlast,
    closeSpan_fence, if_pos (Nat.zero_add n), Nat.add_sub_cancel, List.nil_append, List.take_left]
  rfl

theorem stripSpan_padded (h : ¬ text.all (· = ' ')) : stripSpan ([' '] ++ text ++ [' ']) = text := by
  have hall : ¬ ([' '] ++ text ++ [' ']).all (· = ' ') := fun hall => h <| by
    rw [List.all_append, List.all_append, Bool.and_eq_true, Bool.and_eq_true] at hall
    exact hall.1.2
  rw [stripSpan, if_pos ⟨rfl, List.getLast?_concat, hall⟩]
  exact List.dropLast_concat

theorem stripSpan_self (h : ¬ (text.head? = some ' ' ∧ text.getLast? = some ' ')) :
    stripSpan text = text := if_neg fun hall => h ⟨hall.1, hall.2.1⟩

end

/-! ## Lines of a text -/

def lineEndings (text : Text) : Text :=
  replaceChar '\r' ['\n'] (replacePair '\r' '\n' ['\n'] text)

section
variable {c : Char} {text : Text}

theorem replaceChar_of_not_mem {by' : Text} (h : c ∉ text) : replaceChar c by' text = text := by
  induction text with
  | nil => rfl
  | cons d text ih =>
    obtain ⟨hne, hrest⟩ := List.ne_and_not_mem_of_not_mem_cons h
    have hrest' := ih hrest
    unfold replaceChar at hrest' ⊢
    rw [List.flatMap_cons, if_neg hne.symm, hrest']
    rfl

theorem replacePair_of_not_mem {d : Char} {by' : Text} (h : c ∉ text) :
    replacePair c d by' text = text := by
  induction text with
  | nil => rfl
  | cons a text ih =>
    obtain ⟨hne, hrest⟩ := List.ne_and_not_mem_of_not_mem_cons h
    cases text with
    | nil => rfl
    | cons b rest => rw [replacePair, if_neg fun hpair => hne hpair.1.symm, ih hrest]

theorem not_mem_replaceChar {by' : Text} (h : c ∉ by') : c ∉ replaceChar c by' text := by
  intro hin
  obtain ⟨d, -, hd⟩ := List.mem_flatMap.mp hin
  split at hd
  · exact h hd
  · rename_i hne
    exact hne (List.mem_singleton.mp hd).symm

theorem all_replaceChar {p : Char → Bool} {by' : Text} (hc : p c = true) (hby : by'.all p = true) :
    (replaceChar c by' text).all p = text.all p := by
  unfold replaceChar
  induction text with
  | nil => rfl
  | cons d text ih =>
    rw [List.flatMap_cons, List.all_append, List.all_cons, ih]
    congr 1
    split
    · rename_i hd
      rw [hby, hd, hc]
    · rw [List.all_cons, List.all_nil, Bool.and_true]

theorem all_replacePair {d : Char} {p : Char → Bool} {by' : Text} (hc : p c = true)
    (hd : p d = true) (hby : by'.all p = true) :
    (replacePair c d by' text).all p = text.all p := by
  induction text using replacePair.induct c d with
  | case1 => rfl
  | case2 a => rfl
  | case3 a b rest hpair ih =>
    obtain ⟨rfl, rfl⟩ := hpair
    rw [replacePair, if_pos ⟨rfl, rfl⟩, List.all_append, hby, ih, List.all_cons, List.all_cons, hc,
      hd]
    rfl
  | case4 a b rest hpair ih =>
    rw [replacePair, if_neg hpair, List.all_cons, ih, List.all_cons (a := a)]

theorem lineEndings_of_not_mem (h : '\r' ∉ text) : lineEndings text = text := by
  rw [lineEndings, replacePair_of_not_mem h, replaceChar_of_not_mem h]

theorem splitOn_cons (c d : Char) (text : Text) : splitOn c (d :: text) =
    if d = c then [] :: splitOn c text
    else (d :: (splitOn c text).headD []) :: (splitOn c text).tail := rfl

theorem splitOn_ne_nil (c : Char) (text : Text) : splitOn c text ≠ [] := by
  cases text with
  | nil => exact List.cons_ne_nil _ _
  | cons d text =>
    rw [splitOn_cons]
    split <;> exact List.cons_ne_nil _ _

theorem splitOn_joined (c : Char) (text rest : Text) :
    splitOn c (text ++ c :: rest) = splitOn c text ++ splitOn c rest := by
  induction text with
  | nil => rw [List.nil_append, splitOn_cons, if_pos rfl]; rfl
  | cons d text ih =>
    rw [List.cons_append, splitOn_cons, splitOn_cons, ih]
    obtain ⟨line, lines, hlines⟩ := List.exists_cons_of_ne_nil (splitOn_ne_nil c text)
    rw [hlines]
    split <;> rfl

theorem flatMap_splitOn (c : Char) (text : Text) :
    ((splitOn c text).flatMap fun line => line ++ [c]) = text ++ [c] := by
  induction text with
  | nil => rfl
  | cons d text ih =>
    rw [splitOn_cons]
    obtain ⟨line, lines, hlines⟩ := List.exists_cons_of_ne_nil (splitOn_ne_nil c text)
    rw [hlines] at ih ⊢
    rw [List.flatMap_cons] at ih
    split
    · rename_i hd
      rw [List.flatMap_cons, List.flatMap_cons, ih, hd]
      rfl
    · rw [List.headD_cons, List.tail_cons, List.flatMap_cons, List.cons_append, List.cons_append,
        ih]
      rfl

theorem headD_splitOn (c : Char) (text : Text) : (splitOn c text).headD [] <+: text := by
  induction text with
  | nil => exact List.nil_prefix
  | cons d text ih =>
    rw [splitOn_cons]
    split
    · exact List.nil_prefix
    · exact List.cons_prefix_cons.mpr ⟨rfl, ih⟩

theorem splitOn_inside : ∀ line ∈ splitOn c text, line <:+: text := by
  induction text with
  | nil => exact List.forall_mem_singleton.mpr (List.infix_refl [])
  | cons d text ih =>
    rw [splitOn_cons]
    have htail : ∀ line ∈ splitOn c text, line <:+: d :: text := fun line hline =>
      (ih line hline).trans (List.suffix_cons d text).isInfix
    split
    · exact List.forall_mem_cons.mpr ⟨List.nil_infix, htail⟩
    · refine List.forall_mem_cons.mpr ⟨?_, fun line hline =>
        htail line (List.mem_of_mem_tail hline)⟩
      exact (List.cons_prefix_cons.mpr ⟨rfl, headD_splitOn c text⟩).isInfix

end

/-! ## Fenced code -/

/-- A line that ends a block under a fence of `n` backticks. -/
def closesFence (n : Nat) (line : Text) : Bool :=
  spaces line ≤ 3 && n ≤ ((body line).takeWhile (· = '\x60')).length &&
    ((body line).dropWhile (· = '\x60')).all isSpaceOrTab

def trimBlanks (text : Text) : Text :=
  ((text.dropWhile isSpaceOrTab).reverse.dropWhile isSpaceOrTab).reverse

structure FencedCode where
  info : Text
  content : Text
  closing : List Text
  deriving DecidableEq, Repr

/-- The block of code that starts in the first line: its content has the indentation of the
fence taken off, and it goes on to the first line that closes it. -/
def readFence (text : Text) : Option FencedCode :=
  let opening := (splitOn '\n' (lineEndings text)).headD []
  let lines := (splitOn '\n' (lineEndings text)).tail
  let n := ((body opening).takeWhile (· = '\x60')).length
  let info := trimBlanks ((body opening).drop n)
  if spaces opening ≤ 3 ∧ 3 ≤ n ∧ '\x60' ∉ info then
    some ⟨info,
      (lines.takeWhile fun line => !closesFence n line).flatMap fun line =>
        line.drop (min (spaces line) (spaces opening)) ++ ['\n'],
      lines.dropWhile fun line => !closesFence n line⟩
  else none

section
variable {n : Nat} {line info base : Text}

theorem closesFence_run (h : closesFence n line = true) :
    List.replicate n '\x60' <:+: line := by
  simp only [closesFence, Bool.and_eq_true, decide_eq_true_eq] at h
  obtain ⟨⟨-, hn⟩, -⟩ := h
  have hrun : (body line).takeWhile (· = '\x60') =
      List.replicate ((body line).takeWhile (· = '\x60')).length '\x60' :=
    List.eq_replicate_of_mem fun c hc => by simpa using List.mem_takeWhile_imp hc
  have hstarts : List.replicate n '\x60' <+: (body line).takeWhile (· = '\x60') := by
    rw [hrun]
    exact List.prefix_replicate_iff.mpr ⟨by rwa [List.length_replicate], by
      rw [List.length_replicate]⟩
  exact (hstarts.trans (List.takeWhile_prefix _)).isInfix.trans
    (List.dropWhile_suffix _).isInfix

theorem trimBlanks_of_none (h : ∀ c ∈ info, isSpaceOrTab c = false) : trimBlanks info = info := by
  have hdrop : ∀ text : Text, (∀ c ∈ text, isSpaceOrTab c = false) →
      text.dropWhile isSpaceOrTab = text := by
    intro text htext
    cases text with
    | nil => rfl
    | cons c text =>
      exact List.dropWhile_cons_of_neg (Bool.eq_false_iff.mp (htext c List.mem_cons_self))
  rw [trimBlanks, hdrop info h, hdrop _ fun c hc => h c (List.mem_reverse.mp hc),
    List.reverse_reverse]

theorem body_fence (k : Nat) (info : Text) : spaces (fence (k + 1) ++ info) = 0 ∧
    body (fence (k + 1) ++ info) = fence (k + 1) ++ info := ⟨rfl, rfl⟩

theorem closesFence_fence (k : Nat) : closesFence (k + 1) (fence (k + 1)) = true := by
  obtain ⟨hspaces, hbody⟩ := body_fence k []
  rw [List.append_nil] at hspaces hbody
  have hrest : (fence (k + 1)).dropWhile (· = '\x60') = [] :=
    List.dropWhile_eq_nil_iff.mpr fun _ hc => decide_eq_true (eq_of_mem_fence hc)
  simp only [closesFence, hspaces, hbody, takeWhile_fence, hrest, length_fence, List.all_nil,
    Nat.zero_le, Nat.le_refl, decide_true, Bool.and_true]

/-- Under a fence longer than each of its runs the content is read whole. -/
theorem readFence_fenced (hn : 3 ≤ n) (hlong : longestRun '\x60' base < n)
    (hinfo : ∀ c ∈ info, c ≠ '\x60' ∧ c ≠ '\n' ∧ c ≠ '\r' ∧ isSpaceOrTab c = false)
    (hbase : '\r' ∉ base) :
    readFence (fence n ++ info ++ '\n' :: (base ++ '\n' :: fence n)) =
      some ⟨info, base ++ ['\n'], [fence n]⟩ := by
  obtain ⟨k, rfl⟩ : ∃ k, n = k + 1 := ⟨n - 1, by omega⟩
  have hopening : '\n' ∉ fence (k + 1) ++ info := fun hin =>
    (List.mem_append.mp hin).elim (not_mem_fence (by decide)) fun hin => (hinfo _ hin).2.1 rfl
  have hreturn : '\r' ∉ fence (k + 1) ++ info ++ '\n' :: (base ++ '\n' :: fence (k + 1)) := by
    simp only [List.mem_append, List.mem_cons, not_or]
    exact ⟨⟨not_mem_fence (by decide), fun hin => (hinfo _ hin).2.2.1 rfl⟩, by decide, hbase,
      by decide, not_mem_fence (by decide)⟩
  have hlines : splitOn '\n' (fence (k + 1) ++ info ++ '\n' :: (base ++ '\n' :: fence (k + 1))) =
      (fence (k + 1) ++ info) :: (splitOn '\n' base ++ [fence (k + 1)]) := by
    rw [splitOn_append hopening, splitOn_joined, splitOn_of_not_mem (not_mem_fence (by decide))]
  have hopen : ∀ line ∈ splitOn '\n' base, (!closesFence (k + 1) line) = true := by
    intro line hline
    rw [Bool.not_eq_true', Bool.eq_false_iff]
    intro hcloses
    have hle := le_longestRun ((closesFence_run hcloses).trans (splitOn_inside line hline))
    omega
  obtain ⟨hspaces, hbody⟩ := body_fence k info
  have hhead : ∀ c ∈ info.head?, c ≠ '\x60' := fun c hc => (hinfo c (List.mem_of_mem_head? hc)).1
  have hdrop : (fence (k + 1) ++ info).drop (k + 1) = info := List.drop_left' (length_fence _)
  have hnone : ∀ c ∈ info, isSpaceOrTab c = false := fun c hc => (hinfo c hc).2.2.2
  unfold readFence
  simp only [lineEndings_of_not_mem hreturn, hlines, List.headD_cons, List.tail_cons, hbody,
    hspaces, fence_length hhead, hdrop, trimBlanks_of_none hnone]
  rw [if_pos ⟨Nat.zero_le _, hn, fun hin => (hinfo _ hin).1 rfl⟩,
    List.takeWhile_append_of_pos hopen, List.dropWhile_append_of_pos hopen]
  simp only [List.takeWhile_cons, List.dropWhile_cons, closesFence_fence, Bool.not_true,
    Bool.false_eq_true, if_false, List.append_nil, Nat.min_zero, List.drop_zero, flatMap_splitOn]

end

end IntoMarkdown.Lib.MarkdownCode
