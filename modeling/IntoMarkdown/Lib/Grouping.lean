import IntoMarkdown.Lib.Infix

/-! # Grouping

A writer puts parentheses around an operand that binds less than its place asks for, and around an
argument that is made by the separator itself. What it writes is read as the same tree, but for
parentheses, unless an argument has a separator outside of parentheses. -/

namespace IntoMarkdown.Lib.Infix

variable {α β : Type}

namespace Tree

/-- A lone missing argument is none. -/
def present : List (Tree α β) → List (Tree α β)
  | [.missing] => []
  | arguments => arguments

mutual

/-- The tree without its parentheses. -/
def strip : Tree α β → Tree α β
  | .missing => .missing
  | .operand text => .operand text
  | .binary operator left right => .binary operator (strip left) (strip right)
  | .sign operator body => .sign operator (strip body)
  | .suffix body => .suffix (strip body)
  | .group body => strip body
  | .call name arguments => .call name (present (stripAll arguments))

def stripAll : List (Tree α β) → List (Tree α β)
  | [] => []
  | argument :: rest => strip argument :: stripAll rest

end

def enclosed (parentheses : Bool) (tree : Tree α β) : Tree α β :=
  if parentheses then .group tree else tree

def isGroup : Tree α β → Bool
  | .group _ => true
  | _ => false

/-- Trees whose operands are not missing, and no lone argument of a call. -/
inductive Tidy : Tree α β → Prop
  | operand {text} : Tidy (.operand text)
  | binary {operator left right} : Tidy left → Tidy right → Tidy (.binary operator left right)
  | sign {operator body} : Tidy body → Tidy (.sign operator body)
  | suffix {body} : Tidy body → Tidy (.suffix body)
  | group {body} : Tidy body → Tidy (.group body)
  | call {name arguments} : arguments ≠ [.missing] →
    (∀ argument ∈ arguments, argument ≠ .missing → Tidy argument) → Tidy (.call name arguments)

/-! ## Parentheses -/

def solid : Token α β → Bool
  | .lparen | .rparen => false
  | _ => true

def opens : Token α β → Bool
  | .lparen | .call _ => true
  | _ => false

def closes : Token α β → Bool
  | .rparen => true
  | _ => false

section
variable {separator : β} {tree other : Tree α β}

/-- Behind as many tokens that are no parentheses, the texts are cut alike. -/
theorem cut {before before' after after' : List (Token α β)} {token token' : Token α β}
    (h : before ++ token :: after = before' ++ token' :: after') (htoken : solid token = true)
    (htoken' : solid token' = true) (hcount : before.countP solid = before'.countP solid) :
    before = before' ∧ token = token' ∧ after = after' := by
  rcases List.append_eq_append_iff.mp h with ⟨between, rfl, hrest⟩ | ⟨between, rfl, hrest⟩
  · cases between with
    | nil =>
      obtain ⟨rfl, rfl⟩ := List.cons.inj hrest
      exact ⟨(List.append_nil _).symm, rfl, rfl⟩
    | cons head between =>
      obtain ⟨rfl, -⟩ := List.cons.inj hrest
      rw [List.countP_append, List.countP_cons_of_pos htoken] at hcount
      omega
  · cases between with
    | nil =>
      obtain ⟨rfl, rfl⟩ := List.cons.inj hrest
      exact ⟨List.append_nil _, rfl, rfl⟩
    | cons head between =>
      obtain ⟨rfl, -⟩ := List.cons.inj hrest
      rw [List.countP_append, List.countP_cons_of_pos htoken'] at hcount
      omega

theorem countP_writeMore {count : Token α β → Bool} (arguments : List (Tree α β)) :
    (writeMore separator arguments).countP count =
      arguments.length * (if count (.op separator) then 1 else 0) +
        (arguments.map fun argument => (write separator argument).countP count).sum := by
  induction arguments with
  | nil => simp [writeMore]
  | cons argument arguments ih =>
    rw [writeMore, List.countP_cons, List.countP_append, ih, List.length_cons, List.map_cons,
      List.sum_cons, Nat.succ_mul]
    omega

/-- As many parentheses are opened as are closed. -/
theorem balanced (separator : β) (tree : Tree α β) :
    (write separator tree).countP opens = (write separator tree).countP closes := by
  have hmore (arguments : List (Tree α β)) (h : ∀ argument ∈ arguments,
      (write separator argument).countP opens = (write separator argument).countP closes) :
      (writeMore separator arguments).countP opens =
        (writeMore separator arguments).countP closes := by
    rw [countP_writeMore, countP_writeMore, List.map_congr_left h]
    rfl
  induction tree with
  | missing => rfl
  | operand text => rfl
  | binary operator left right ihleft ihright =>
    rw [write, List.countP_append, List.countP_append, List.countP_cons, List.countP_cons, ihleft,
      ihright]
    rfl
  | sign operator body ih =>
    rw [write, List.countP_cons, List.countP_cons, ih]
    rfl
  | suffix body ih =>
    rw [write, List.countP_append, List.countP_append, ih]
    rfl
  | group body ih =>
    rw [write, List.countP_cons, List.countP_cons, List.countP_append, List.countP_append, ih]
    exact Nat.add_right_comm _ _ _
  | call name arguments ih =>
    cases arguments with
    | nil => rfl
    | cons argument arguments =>
      obtain ⟨hargument, hrest⟩ := List.forall_mem_cons.mp ih
      rw [write, writeAll, List.countP_cons, List.countP_cons, List.countP_append,
        List.countP_append, List.countP_append, List.countP_append, hargument, hmore _ hrest]
      exact Nat.add_right_comm _ _ _

theorem stripAll_eq (arguments : List (Tree α β)) : stripAll arguments = arguments.map strip := by
  induction arguments with
  | nil => rfl
  | cons argument arguments ih => rw [stripAll, ih, List.map_cons]

theorem writeAll_present (arguments : List (Tree α β)) :
    writeAll separator (present arguments) = writeAll separator arguments := by
  unfold present
  split
  · rfl
  · rfl

/-- Without its parentheses a tree is written with the same other tokens. -/
theorem countP_strip (separator : β) (tree : Tree α β) :
    (write separator (strip tree)).countP solid = (write separator tree).countP solid := by
  induction tree with
  | missing => rfl
  | operand text => rfl
  | binary operator left right ihleft ihright =>
    rw [strip, write, write, List.countP_append, List.countP_append, List.countP_cons,
      List.countP_cons, ihleft, ihright]
  | sign operator body ih => rw [strip, write, write, List.countP_cons, List.countP_cons, ih]
  | suffix body ih => rw [strip, write, write, List.countP_append, List.countP_append, ih]
  | group body ih =>
    rw [strip, ih, write, List.countP_cons, List.countP_append]
    rfl
  | call name arguments ih =>
    rw [strip, write, write, List.countP_cons, List.countP_cons, List.countP_append,
      List.countP_append, writeAll_present, stripAll_eq]
    cases arguments with
    | nil => rfl
    | cons argument arguments =>
      obtain ⟨hargument, hrest⟩ := List.forall_mem_cons.mp ih
      have hmore : (arguments.map strip).map (fun tree => (write separator tree).countP solid) =
          arguments.map fun tree => (write separator tree).countP solid := by
        rw [List.map_map]
        exact List.map_congr_left hrest
      rw [List.map_cons, writeAll, writeAll, List.countP_append, List.countP_append,
        countP_writeMore, countP_writeMore, hargument, List.length_map, hmore]

theorem countP_of_strip (h : strip tree = strip other) :
    (write separator tree).countP solid = (write separator other).countP solid := by
  rw [← countP_strip, h, countP_strip]

def nest : Nat → Tree α β → Tree α β
  | 0, tree => tree
  | depth + 1, tree => .group (nest depth tree)

theorem exists_nest (tree : Tree α β) : ∃ depth core, tree = nest depth core ∧
    isGroup core = false := by
  induction tree with
  | group body ih =>
    obtain ⟨depth, core, rfl, hcore⟩ := ih
    exact ⟨depth + 1, core, rfl, hcore⟩
  | missing => exact ⟨0, _, rfl, rfl⟩
  | operand text => exact ⟨0, _, rfl, rfl⟩
  | binary operator left right _ _ => exact ⟨0, _, rfl, rfl⟩
  | sign operator body _ => exact ⟨0, _, rfl, rfl⟩
  | suffix body _ => exact ⟨0, _, rfl, rfl⟩
  | call name arguments _ => exact ⟨0, _, rfl, rfl⟩

theorem strip_nest (depth : Nat) (tree : Tree α β) : strip (nest depth tree) = strip tree := by
  induction depth with
  | zero => rfl
  | succ depth ih => rw [nest, strip, ih]

theorem write_nest (depth : Nat) (tree : Tree α β) :
    write separator (nest depth tree) =
      List.replicate depth .lparen ++ (write separator tree ++ List.replicate depth .rparen) := by
  induction depth with
  | zero => exact (List.append_nil _).symm
  | succ depth ih =>
    rw [nest, write, ih, List.replicate_succ, List.cons_append, List.append_assoc,
      List.append_assoc, ← List.replicate_succ']

theorem isGroup_nest {core : Tree α β} (h : isGroup core = false) (depth : Nat) :
    isGroup (nest depth core) = decide (0 < depth) := by
  cases depth with
  | zero => exact h
  | succ depth => rfl

/-- A tree that is not in parentheses is not written as if it were. -/
theorem depth_eq_zero {depth : Nat} (htree : isGroup tree = false) (hother : isGroup other = false)
    (hstrip : strip tree = strip other)
    (h : write separator tree = write separator (nest depth other)) : depth = 0 := by
  rw [write_nest] at h
  cases depth with
  | zero => rfl
  | succ depth =>
    rw [List.replicate_succ, List.cons_append] at h
    cases tree with
    | missing => cases h
    | operand text => cases h
    | sign operator body => cases h
    | call name arguments => cases h
    | group body => cases htree
    | suffix body =>
      have hlast := congrArg List.getLast? h
      rw [write, List.getLast?_concat, List.replicate_succ', ← List.append_assoc,
        ← List.append_assoc, ← List.cons_append, List.getLast?_concat] at hlast
      cases hlast
    | binary operator left right =>
      cases other with
      | binary operator' left' right' =>
        rw [strip, strip] at hstrip
        injection hstrip with _ hleft
        rw [write, write, ← List.cons_append, ← List.replicate_succ, List.append_assoc,
          List.cons_append, ← List.append_assoc] at h
        obtain ⟨hbefore, -⟩ := cut h rfl rfl (by
          rw [List.countP_append, countP_of_strip hleft, List.countP_replicate]
          exact (Nat.zero_add _).symm)
        have hopens : (write separator left).countP opens =
            depth + 1 + (write separator left').countP opens := by
          rw [hbefore, List.countP_append, List.countP_replicate]
          rfl
        have hcloses : (write separator left).countP closes =
            0 + (write separator left').countP closes := by
          rw [hbefore, List.countP_append, List.countP_replicate]
          rfl
        rw [balanced, balanced separator left', hcloses] at hopens
        omega
      | group body => cases hother
      | _ => cases hstrip

theorem depth_eq_of_le {a b : Nat} (htree : isGroup tree = false) (hother : isGroup other = false)
    (hstrip : strip tree = strip other)
    (h : write separator (nest a tree) = write separator (nest b other)) (hle : a ≤ b) : a = b := by
  obtain ⟨more, rfl⟩ := Nat.exists_eq_add_of_le hle
  rw [write_nest, write_nest, List.replicate_add, Nat.add_comm, List.replicate_add,
    List.append_assoc] at h
  have hinner := List.append_cancel_left h
  rw [← List.append_assoc, ← List.append_assoc] at hinner
  have hcancel := List.append_cancel_right hinner
  rw [List.append_assoc, ← write_nest] at hcancel
  rw [depth_eq_zero htree hother hstrip hcancel, Nat.add_zero]

theorem isGroup_eq (hstrip : strip tree = strip other)
    (h : write separator tree = write separator other) : isGroup tree = isGroup other := by
  obtain ⟨depth, core, rfl, hcore⟩ := exists_nest tree
  obtain ⟨depth', core', rfl, hcore'⟩ := exists_nest other
  rw [strip_nest, strip_nest] at hstrip
  have hsame : depth = depth' := by
    rcases Nat.le_total depth depth' with hle | hle
    · exact depth_eq_of_le hcore hcore' hstrip h hle
    · exact (depth_eq_of_le hcore' hcore hstrip.symm h.symm hle).symm
  rw [isGroup_nest hcore, isGroup_nest hcore', hsame]

theorem Tidy.strip_ne (h : Tidy tree) : strip tree ≠ .missing := by
  induction h with
  | group _ ih => exact ih
  | operand => simp [strip]
  | binary _ _ _ _ => simp [strip]
  | sign _ _ => simp [strip]
  | suffix _ _ => simp [strip]
  | call _ _ _ => simp [strip]

theorem present_of_ne {arguments : List (Tree α β)} (h : arguments ≠ [.missing]) :
    present arguments = arguments := by
  unfold present
  split
  · exact absurd rfl h
  · rfl

theorem present_ne (arguments : List (Tree α β)) : present arguments ≠ [.missing] := by
  by_cases h : arguments = [.missing]
  · rw [h]
    exact (List.cons_ne_nil _ _).symm
  · rwa [present_of_ne h]

theorem present_subset (arguments : List (Tree α β)) : present arguments ⊆ arguments := by
  by_cases h : arguments = [.missing]
  · rw [h]
    exact List.nil_subset _
  · rw [present_of_ne h]
    exact List.Subset.refl _

theorem present_map_strip (arguments : List (Tree α β)) :
    present ((present arguments).map strip) = present (arguments.map strip) := by
  by_cases h : arguments = [.missing]
  · rw [h]
    rfl
  · rw [present_of_ne h]

theorem present_of_tidy {arguments : List (Tree α β)} (hlone : arguments ≠ [.missing])
    (h : ∀ argument ∈ arguments, argument ≠ .missing → Tidy argument) :
    present (arguments.map strip) = arguments.map strip := by
  refine present_of_ne fun hmap => ?_
  cases arguments with
  | nil => cases hmap
  | cons argument arguments =>
    obtain ⟨hstrip, hrest⟩ := List.cons.inj hmap
    obtain rfl := List.map_eq_nil_iff.mp hrest
    have hargument : argument ≠ .missing := fun hmissing => hlone (hmissing ▸ rfl)
    exact (h argument List.mem_cons_self hargument).strip_ne hstrip

theorem Tidy.enclosed (h : Tidy tree) (parentheses : Bool) :
    Tidy (.enclosed parentheses tree) := by
  cases parentheses with
  | true => exact .group h
  | false => exact h

theorem strip_enclosed (parentheses : Bool) (tree : Tree α β) :
    strip (enclosed parentheses tree) = strip tree := by
  cases parentheses with
  | true => rw [enclosed, if_pos rfl, strip]
  | false => rfl

/-- How a tree is known from what is written for it. -/
def Known (separator : β) (tree : Tree α β) : Prop :=
  ∀ other, Tidy other → strip tree = strip other →
    write separator tree = write separator other → tree = other

theorem argument_eq (htidy : tree ≠ .missing → Tidy tree) (hother : other ≠ .missing → Tidy other)
    (hstrip : strip tree = strip other) (hknown : tree ≠ .missing → Known separator tree)
    (h : write separator tree = write separator other) : tree = other := by
  by_cases htree : tree = .missing
  · subst htree
    by_contra hne
    exact (hother (Ne.symm hne)).strip_ne hstrip.symm
  · by_cases hmissing : other = .missing
    · subst hmissing
      exact absurd hstrip (htidy htree).strip_ne
    · exact hknown htree other (hother hmissing) hstrip h

theorem split_more {arguments others : List (Tree α β)} (hstrip : strip tree = strip other)
    (hmore : arguments.map strip = others.map strip)
    (h : write separator tree ++ writeMore separator arguments =
      write separator other ++ writeMore separator others) :
    write separator tree = write separator other ∧
      writeMore separator arguments = writeMore separator others := by
  cases arguments with
  | nil =>
    obtain rfl := List.map_eq_nil_iff.mp hmore.symm
    exact ⟨List.append_cancel_right h, rfl⟩
  | cons argument arguments =>
    cases others with
    | nil => cases hmore
    | cons argument' others =>
      rw [writeMore, writeMore] at h ⊢
      obtain ⟨hwrite, -, hrest⟩ := cut h rfl rfl (countP_of_strip hstrip)
      exact ⟨hwrite, congrArg _ hrest⟩

theorem writeMore_injective {arguments others : List (Tree α β)}
    (htidy : ∀ argument ∈ arguments, argument ≠ .missing → Tidy argument)
    (hothers : ∀ argument ∈ others, argument ≠ .missing → Tidy argument)
    (hstrip : arguments.map strip = others.map strip)
    (hknown : ∀ argument ∈ arguments, argument ≠ .missing → Known separator argument)
    (h : writeMore separator arguments = writeMore separator others) : arguments = others := by
  induction arguments generalizing others with
  | nil => exact (List.map_eq_nil_iff.mp hstrip.symm).symm
  | cons argument arguments ih =>
    cases others with
    | nil => cases hstrip
    | cons argument' others =>
      obtain ⟨hhead, hrest⟩ := List.cons.inj hstrip
      obtain ⟨htidy, hrestTidy⟩ := List.forall_mem_cons.mp htidy
      obtain ⟨hother, hotherTidy⟩ := List.forall_mem_cons.mp hothers
      obtain ⟨hknown, hrestKnown⟩ := List.forall_mem_cons.mp hknown
      rw [writeMore, writeMore] at h
      obtain ⟨hwrite, hmore⟩ := split_more hhead hrest (List.tail_eq_of_cons_eq h)
      rw [argument_eq htidy hother hhead hknown hwrite,
        ih hrestTidy hotherTidy hrest hrestKnown hmore]

theorem writeAll_injective {arguments others : List (Tree α β)}
    (htidy : ∀ argument ∈ arguments, argument ≠ .missing → Tidy argument)
    (hothers : ∀ argument ∈ others, argument ≠ .missing → Tidy argument)
    (hstrip : arguments.map strip = others.map strip)
    (hknown : ∀ argument ∈ arguments, argument ≠ .missing → Known separator argument)
    (h : writeAll separator arguments = writeAll separator others) : arguments = others := by
  refine writeMore_injective htidy hothers hstrip hknown ?_
  cases arguments with
  | nil => rw [List.map_eq_nil_iff.mp hstrip.symm]
  | cons argument arguments =>
    cases others with
    | nil => cases hstrip
    | cons argument' others => exact congrArg (List.cons (.op separator)) h

/-- **Parentheses.** What is written for a tree tells where its parentheses are. -/
theorem Tidy.known (h : Tidy tree) : Known separator tree := by
  induction h with
  | operand =>
    intro other hother hstrip h
    have hgroup := isGroup_eq hstrip h
    cases hother with
    | operand => exact hstrip
    | group _ => cases hgroup
    | _ => cases hstrip
  | binary _ _ ihleft ihright =>
    intro other hother hstrip h
    have hgroup := isGroup_eq hstrip h
    cases hother with
    | binary hleft hright =>
      obtain ⟨rfl, hstripLeft, hstripRight⟩ := Tree.binary.inj hstrip
      obtain ⟨hbefore, -, hafter⟩ := cut h rfl rfl (countP_of_strip hstripLeft)
      rw [ihleft _ hleft hstripLeft hbefore, ihright _ hright hstripRight hafter]
    | group _ => cases hgroup
    | _ => cases hstrip
  | sign _ ih =>
    intro other hother hstrip h
    have hgroup := isGroup_eq hstrip h
    cases hother with
    | sign hbody =>
      obtain ⟨rfl, hstripBody⟩ := Tree.sign.inj hstrip
      rw [ih _ hbody hstripBody (List.tail_eq_of_cons_eq h)]
    | group _ => cases hgroup
    | _ => cases hstrip
  | suffix _ ih =>
    intro other hother hstrip h
    have hgroup := isGroup_eq hstrip h
    cases hother with
    | suffix hbody => rw [ih _ hbody (Tree.suffix.inj hstrip) (List.append_cancel_right h)]
    | group _ => cases hgroup
    | _ => cases hstrip
  | group _ ih =>
    intro other hother hstrip h
    have hgroup := isGroup_eq hstrip h
    cases hother with
    | group hbody =>
      rw [ih _ hbody hstrip (List.append_cancel_right (List.tail_eq_of_cons_eq h))]
    | _ => cases hgroup
  | call hlone hall ih =>
    intro other hother hstrip h
    have hgroup := isGroup_eq hstrip h
    cases hother with
    | call hlone' hall' =>
      obtain ⟨rfl, hstripAll⟩ := Tree.call.inj hstrip
      rw [stripAll_eq, stripAll_eq, present_of_tidy hlone hall, present_of_tidy hlone' hall']
        at hstripAll
      rw [writeAll_injective hall hall' hstripAll ih
        (List.append_cancel_right (List.tail_eq_of_cons_eq h))]
    | group _ => cases hgroup
    | _ => cases hstrip

end

end Tree

namespace Levels
variable (g : Levels β)

/-- The trees that a writer is given: no operand is missing, and signs are signs. -/
inductive Sound : Tree α β → Prop
  | operand {text} : Sound (.operand text)
  | binary {operator left right} : Sound left → Sound right → Sound (.binary operator left right)
  | sign {operator body} : g.isSign operator → Sound body → Sound (.sign operator body)
  | suffix {body} : Sound body → Sound (.suffix body)
  | group {body} : Sound body → Sound (.group body)
  | call {name arguments} : (∀ argument ∈ arguments, argument ≠ .missing → Sound argument) →
    Sound (.call name arguments)

/-- The tree binds less than a level asks for. -/
def below (level : Nat) : Tree α β → Bool
  | .binary operator _ _ => g.level operator < level
  | .sign _ _ => g.signLevel < level
  | .suffix _ => g.suffixLevel < level
  | _ => false

/-- A separator outside of parentheses. -/
def Bare : Tree α β → Prop
  | .binary operator left right => operator = g.separator ∨ Bare left ∨ Bare right
  | .sign _ body | .suffix body => Bare body
  | _ => False

/-- No argument of a call has a separator outside of parentheses. -/
inductive Plain : Tree α β → Prop
  | missing : Plain .missing
  | operand {text} : Plain (.operand text)
  | binary {operator left right} : Plain left → Plain right → Plain (.binary operator left right)
  | sign {operator body} : Plain body → Plain (.sign operator body)
  | suffix {body} : Plain body → Plain (.suffix body)
  | group {body} : Plain body → Plain (.group body)
  | call {name arguments} : (∀ argument ∈ arguments, ¬ g.Bare argument) →
    (∀ argument ∈ arguments, Plain argument) → Plain (.call name arguments)

/-- The tree is an operand of a level, in an argument or outside of one, exactly where it is plain
and has no separator that an argument must not have. -/
def FitsIff (inside : Bool) (level : Nat) (tree : Tree α β) : Prop :=
  g.Fits inside level tree ↔ g.Plain tree ∧ (inside = true → ¬ g.Bare tree)

variable {g} {tree : Tree α β} {inside : Bool} {level : Nat}

theorem Fits.tidy (h : g.Fits inside level tree) : tree.Tidy := by
  induction h with
  | operand => exact .operand
  | binary _ _ _ _ ihleft ihright => exact .binary ihleft ihright
  | sign _ _ _ ih => exact .sign ih
  | suffix _ _ ih => exact .suffix ih
  | group _ ih => exact .group ih
  | call hlone _ ih => exact .call hlone ih

theorem not_below_zero (tree : Tree α β) : g.below 0 tree = false := by
  cases tree <;> rfl

theorem fits_group (h : g.FitsIff false 0 tree) : g.FitsIff inside level (.group tree) := by
  constructor
  · rintro (- | - | - | - | hbody | -)
    exact ⟨.group (h.mp hbody).1, fun _ => id⟩
  · rintro ⟨- | - | - | - | - | hplain | -, -⟩
    exact .group (h.mpr ⟨hplain, fun hinside => absurd hinside Bool.false_ne_true⟩)

theorem fits_enclosed {parentheses : Bool} (hgroup : g.FitsIff false 0 tree)
    (h : parentheses = false → g.FitsIff inside level tree) :
    g.FitsIff inside level (.enclosed parentheses tree) := by
  cases parentheses with
  | true => exact fits_group hgroup
  | false => exact h rfl

theorem fits_binary {operator : β} {left right : Tree α β} (hlevel : level ≤ g.level operator)
    (hleft : g.FitsIff inside (g.level operator) left)
    (hright : g.FitsIff inside (g.level operator + 1) right) :
    g.FitsIff inside level (.binary operator left right) := by
  constructor
  · rintro (- | ⟨-, hinside, hl, hr⟩ | - | - | - | -)
    obtain ⟨hplain, hbare⟩ := hleft.mp hl
    obtain ⟨hplain', hbare'⟩ := hright.mp hr
    refine ⟨.binary hplain hplain', fun h => ?_⟩
    rintro (hoperator | hl | hr)
    · exact hinside h hoperator
    · exact hbare h hl
    · exact hbare' h hr
  · rintro ⟨- | - | ⟨hplain, hplain'⟩ | - | - | - | -, hbare⟩
    exact .binary hlevel (fun h heq => hbare h (Or.inl heq))
      (hleft.mpr ⟨hplain, fun h hl => hbare h (Or.inr (Or.inl hl))⟩)
      (hright.mpr ⟨hplain', fun h hr => hbare h (Or.inr (Or.inr hr))⟩)

theorem fits_sign {operator : β} (hsign : g.isSign operator) (hlevel : level ≤ g.signLevel)
    (h : g.FitsIff inside g.signLevel tree) : g.FitsIff inside level (.sign operator tree) := by
  constructor
  · rintro (- | - | ⟨-, -, hbody⟩ | - | - | -)
    exact ⟨.sign (h.mp hbody).1, (h.mp hbody).2⟩
  · rintro ⟨- | - | - | hplain | - | - | -, hbare⟩
    exact .sign hsign hlevel (h.mpr ⟨hplain, hbare⟩)

theorem fits_suffix (hlevel : level ≤ g.suffixLevel) (h : g.FitsIff inside g.suffixLevel tree) :
    g.FitsIff inside level (.suffix tree) := by
  constructor
  · rintro (- | - | - | ⟨-, hbody⟩ | - | -)
    exact ⟨.suffix (h.mp hbody).1, (h.mp hbody).2⟩
  · rintro ⟨- | - | - | - | hplain | - | -, hbare⟩
    exact .suffix hlevel (h.mpr ⟨hplain, hbare⟩)

theorem fits_call {name : α} {arguments : List (Tree α β)} (hlone : arguments ≠ [.missing])
    (h : ∀ argument ∈ arguments, argument ≠ .missing → g.FitsIff true 0 argument) :
    g.FitsIff inside level (.call name arguments) := by
  constructor
  · rintro (- | - | - | - | - | ⟨-, hfits⟩)
    have hall (argument : Tree α β) (hargument : argument ∈ arguments) :
        ¬ g.Bare argument ∧ g.Plain argument := by
      by_cases hmissing : argument = .missing
      · rw [hmissing]
        exact ⟨id, .missing⟩
      · have hfit := (h argument hargument hmissing).mp (hfits argument hargument hmissing)
        exact ⟨hfit.2 rfl, hfit.1⟩
    exact ⟨.call (fun argument hargument => (hall argument hargument).1)
      fun argument hargument => (hall argument hargument).2, fun _ => id⟩
  · rintro ⟨- | - | - | - | - | - | ⟨hbare, hplain⟩, -⟩
    exact .call hlone fun argument hargument hmissing =>
      (h argument hargument hmissing).mpr ⟨hplain argument hargument, fun _ => hbare argument hargument⟩

/-! ## What the writer writes -/

section
variable [DecidableEq β] (g)

/-- The tree is made by the separator itself. -/
def isSeparated : Tree α β → Bool
  | .binary operator _ _ => operator = g.separator
  | _ => false

mutual

/-- The tree with the parentheses that its operators ask for. -/
def grouped : Tree α β → Tree α β
  | .missing => .missing
  | .operand text => .operand text
  | .binary operator left right =>
    .binary operator (.enclosed (g.below (g.level operator) left) (grouped left))
      (.enclosed (g.below (g.level operator + 1) right) (grouped right))
  | .sign operator body => .sign operator (.enclosed (g.below g.signLevel body) (grouped body))
  | .suffix body => .suffix (.enclosed (g.below g.suffixLevel body) (grouped body))
  | .group body => .group (grouped body)
  | .call name arguments => .call name (Tree.present (groupedAll arguments))

def groupedAll : List (Tree α β) → List (Tree α β)
  | [] => []
  | argument :: rest =>
    .enclosed (g.isSeparated argument) (grouped argument) :: groupedAll rest

end

variable {g}

theorem groupedAll_eq (arguments : List (Tree α β)) : g.groupedAll arguments =
    arguments.map fun argument => .enclosed (g.isSeparated argument) (g.grouped argument) := by
  induction arguments with
  | nil => rfl
  | cons argument arguments ih => rw [groupedAll, ih, List.map_cons]

theorem mem_groupedAll {arguments : List (Tree α β)} {argument : Tree α β}
    (h : argument ∈ Tree.present (g.groupedAll arguments)) (hmissing : argument ≠ .missing) :
    ∃ source ∈ arguments, source ≠ .missing ∧
      argument = .enclosed (g.isSeparated source) (g.grouped source) := by
  have hmem := Tree.present_subset _ h
  rw [groupedAll_eq] at hmem
  obtain ⟨source, hsource, rfl⟩ := List.mem_map.mp hmem
  refine ⟨source, hsource, ?_, rfl⟩
  rintro rfl
  exact hmissing rfl

theorem Sound.tidy_grouped (h : g.Sound tree) : (g.grouped tree).Tidy := by
  induction h with
  | operand => exact .operand
  | binary _ _ ihleft ihright => exact .binary (ihleft.enclosed _) (ihright.enclosed _)
  | sign _ _ ih => exact .sign (ih.enclosed _)
  | suffix _ ih => exact .suffix (ih.enclosed _)
  | group _ ih => exact .group ih
  | call _ ih =>
    refine .call (Tree.present_ne _) fun argument hargument hmissing => ?_
    obtain ⟨source, hsource, hne, rfl⟩ := mem_groupedAll hargument hmissing
    exact (ih source hsource hne).enclosed _

/-- The parentheses change nothing else. -/
theorem strip_grouped (tree : Tree α β) : (g.grouped tree).strip = tree.strip := by
  induction tree with
  | missing => rfl
  | operand text => rfl
  | binary operator left right ihleft ihright =>
    rw [grouped, Tree.strip, Tree.strip, Tree.strip_enclosed, Tree.strip_enclosed, ihleft, ihright]
  | sign operator body ih => rw [grouped, Tree.strip, Tree.strip, Tree.strip_enclosed, ih]
  | suffix body ih => rw [grouped, Tree.strip, Tree.strip, Tree.strip_enclosed, ih]
  | group body ih => rw [grouped, Tree.strip, Tree.strip, ih]
  | call name arguments ih =>
    have hall : (g.groupedAll arguments).map Tree.strip = arguments.map Tree.strip := by
      rw [groupedAll_eq, List.map_map]
      exact List.map_congr_left fun argument hargument => by
        rw [Function.comp, Tree.strip_enclosed, ih argument hargument]
    rw [grouped, Tree.strip, Tree.strip, Tree.stripAll_eq, Tree.stripAll_eq,
      Tree.present_map_strip, hall]

theorem fits_grouped (h : g.Sound tree) {inside : Bool} {level : Nat}
    (hlevel : g.below level tree = false) : g.FitsIff inside level (g.grouped tree) := by
  induction h generalizing inside level with
  | operand => exact ⟨fun _ => ⟨.operand, fun _ => id⟩, fun _ => .operand⟩
  | @binary operator left right _ _ ihleft ihright =>
    exact fits_binary (Nat.not_lt.mp (of_decide_eq_false hlevel))
      (fits_enclosed (ihleft (not_below_zero left)) ihleft)
      (fits_enclosed (ihright (not_below_zero right)) ihright)
  | @sign operator body hsign _ ih =>
    exact fits_sign hsign (Nat.not_lt.mp (of_decide_eq_false hlevel))
      (fits_enclosed (ih (not_below_zero body)) ih)
  | @suffix body _ ih =>
    exact fits_suffix (Nat.not_lt.mp (of_decide_eq_false hlevel))
      (fits_enclosed (ih (not_below_zero body)) ih)
  | @group body _ ih => exact fits_group (ih (not_below_zero body))
  | call _ ih =>
    refine fits_call (Tree.present_ne _) fun argument hargument hmissing => ?_
    obtain ⟨source, hsource, hne, rfl⟩ := mem_groupedAll hargument hmissing
    exact fits_enclosed (ih source hsource hne (not_below_zero source))
      fun _ => ih source hsource hne (not_below_zero source)

/-- **Exactness.** What is written for a tree is read as that tree, but for parentheses, exactly
where no argument has a separator outside of parentheses. -/
theorem reads_grouped_iff (h : g.Sound tree) :
    (∃ read, g.Reads ((g.grouped tree).write g.separator) read ∧ read.strip = tree.strip) ↔
      g.Plain (g.grouped tree) := by
  have hfits : g.FitsIff false 0 (g.grouped tree) := fits_grouped h (not_below_zero tree)
  constructor
  · rintro ⟨read, ⟨hread, hwrite⟩, hstrip⟩
    obtain rfl := hread.tidy.known _ h.tidy_grouped (hstrip.trans (strip_grouped tree).symm) hwrite
    exact (hfits.mp hread).1
  · intro hplain
    exact ⟨g.grouped tree, ⟨hfits.mpr ⟨hplain, fun hinside => absurd hinside Bool.false_ne_true⟩, rfl⟩,
      strip_grouped tree⟩

end

end Levels

end IntoMarkdown.Lib.Infix
