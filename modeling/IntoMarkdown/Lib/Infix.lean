import Mathlib

/-! # Infix expressions

Expressions with binary operators of several levels, signs, a suffix, parentheses and calls. One
of the operators is also what separates the arguments of a call. No two trees that keep the
levels are written alike. -/

namespace IntoMarkdown.Lib.Infix

/-- A tree with the parentheses it is written with. An argument of a call may be missing. -/
inductive Tree (α β : Type) where
  | missing
  | operand (text : α)
  | binary (operator : β) (left right : Tree α β)
  | sign (operator : β) (body : Tree α β)
  | suffix (body : Tree α β)
  | group (body : Tree α β)
  | call (name : α) (arguments : List (Tree α β))

/-- The name of a call is read together with its parenthesis. -/
inductive Token (α β : Type) where
  | operand (text : α)
  | call (name : α)
  | lparen
  | rparen
  | suffix
  | op (operator : β)
  deriving DecidableEq

/-- How tightly the operators bind, all to the left. -/
structure Levels (β : Type) where
  level : β → Nat
  separator : β
  isSign : β → Prop
  signLevel : Nat
  suffixLevel : Nat
  separator_not_sign : ¬ isSign separator
  level_ne : ∀ operator, level operator ≠ signLevel
  suffixLevel_ne : suffixLevel ≠ signLevel

variable {α β : Type}

namespace Tree

@[elab_as_elim, induction_eliminator]
theorem induct {motive : Tree α β → Prop} (missing : motive .missing)
    (operand : ∀ text, motive (.operand text))
    (binary : ∀ operator left right, motive left → motive right →
      motive (.binary operator left right))
    (sign : ∀ operator body, motive body → motive (.sign operator body))
    (suffix : ∀ body, motive body → motive (.suffix body))
    (group : ∀ body, motive body → motive (.group body))
    (call : ∀ name arguments, (∀ argument ∈ arguments, motive argument) →
      motive (.call name arguments)) (tree : Tree α β) : motive tree :=
  Tree.rec (motive_2 := fun arguments => ∀ argument ∈ arguments, motive argument) missing operand
    binary sign suffix group call (List.forall_mem_nil _)
    (fun _ _ hhead htail => List.forall_mem_cons.mpr ⟨hhead, htail⟩) tree

mutual

def write (separator : β) : Tree α β → List (Token α β)
  | .missing => []
  | .operand text => [.operand text]
  | .binary operator left right => write separator left ++ .op operator :: write separator right
  | .sign operator body => .op operator :: write separator body
  | .suffix body => write separator body ++ [.suffix]
  | .group body => .lparen :: (write separator body ++ [.rparen])
  | .call name arguments => .call name :: (writeAll separator arguments ++ [.rparen])

def writeAll (separator : β) : List (Tree α β) → List (Token α β)
  | [] => []
  | argument :: rest => write separator argument ++ writeMore separator rest

def writeMore (separator : β) : List (Tree α β) → List (Token α β)
  | [] => []
  | argument :: rest => .op separator :: (write separator argument ++ writeMore separator rest)

end

end Tree

namespace Levels
variable (g : Levels β)

/-- The trees that keep the levels, as an operand of a level, in an argument or outside of one: the
grammar. -/
inductive Fits : Bool → Nat → Tree α β → Prop
  | operand {inside level text} : Fits inside level (.operand text)
  | binary {inside level operator left right} : level ≤ g.level operator →
    (inside = true → operator ≠ g.separator) → Fits inside (g.level operator) left →
    Fits inside (g.level operator + 1) right → Fits inside level (.binary operator left right)
  | sign {inside level operator body} : g.isSign operator → level ≤ g.signLevel →
    Fits inside g.signLevel body → Fits inside level (.sign operator body)
  | suffix {inside level body} : level ≤ g.suffixLevel → Fits inside g.suffixLevel body →
    Fits inside level (.suffix body)
  | group {inside level body} : Fits false 0 body → Fits inside level (.group body)
  | call {inside level name arguments} : arguments ≠ [.missing] →
    (∀ argument ∈ arguments, argument ≠ .missing → Fits true 0 argument) →
    Fits inside level (.call name arguments)

/-- A tree that some tokens can be read as. -/
def Reads (tokens : List (Token α β)) (tree : Tree α β) : Prop :=
  g.Fits false 0 tree ∧ tree.write g.separator = tokens

/-! ## Reading from left to right -/

/-- What is read: an operand of a level, what follows one, all arguments of a call, one, or those
behind a separator. -/
inductive Mode (α β : Type) where
  | read (inside : Bool) (level : Nat)
  | tail (inside : Bool) (level : Nat) (left : Tree α β)
  | arguments
  | argument
  | more

/-- No more is taken in an operand of a level. -/
def Stops (inside : Bool) (level : Nat) : List (Token α β) → Prop
  | .op operator :: _ => level ≤ g.level operator → inside = true ∧ operator = g.separator
  | .suffix :: _ => g.suffixLevel < level
  | _ => True

/-- No argument starts here. -/
def Ends : List (Token α β) → Prop
  | .op operator :: _ => operator = g.separator
  | .rparen :: _ => True
  | _ => False

/-- A run of the reader: the trees that it reads, and the tokens that it leaves. -/
inductive Run : Mode α β → List (Token α β) → List (Tree α β) → List (Token α β) → Prop
  | operand {inside level text tokens trees rest} :
    Run (.tail inside level (.operand text)) tokens trees rest →
    Run (.read inside level) (.operand text :: tokens) trees rest
  | sign {inside level operator body tokens left trees rest} :
    Run (.read inside g.signLevel) tokens [body] left →
    Run (.tail inside level (.sign operator body)) left trees rest →
    Run (.read inside level) (.op operator :: tokens) trees rest
  | group {inside level body tokens left trees rest} :
    Run (.read false 0) tokens [body] (.rparen :: left) →
    Run (.tail inside level (.group body)) left trees rest →
    Run (.read inside level) (.lparen :: tokens) trees rest
  | call {inside level name arguments tokens left trees rest} :
    Run .arguments tokens arguments (.rparen :: left) →
    Run (.tail inside level (.call name arguments)) left trees rest →
    Run (.read inside level) (.call name :: tokens) trees rest
  | stop {inside level tree tokens} : g.Stops inside level tokens →
    Run (.tail inside level tree) tokens [tree] tokens
  | suffix {inside level tree tokens trees rest} : level ≤ g.suffixLevel →
    Run (.tail inside level (.suffix tree)) tokens trees rest →
    Run (.tail inside level tree) (.suffix :: tokens) trees rest
  | binary {inside level tree operator right tokens left trees rest} :
    level ≤ g.level operator → (inside = true → operator ≠ g.separator) →
    Run (.read inside (g.level operator + 1)) tokens [right] left →
    Run (.tail inside level (.binary operator tree right)) left trees rest →
    Run (.tail inside level tree) (.op operator :: tokens) trees rest
  | noArguments {tokens} : Run .arguments (.rparen :: tokens) [] (.rparen :: tokens)
  | someArguments {tokens left rest argument arguments} : tokens.head? ≠ some .rparen →
    Run .argument tokens [argument] left → Run .more left arguments rest →
    Run .arguments tokens (argument :: arguments) rest
  | absent {tokens} : g.Ends tokens → Run .argument tokens [.missing] tokens
  | present {tokens tree rest} : ¬ g.Ends tokens → Run (.read true 0) tokens [tree] rest →
    Run .argument tokens [tree] rest
  | last {tokens} : Run .more (.rparen :: tokens) [] (.rparen :: tokens)
  | next {tokens left rest argument arguments} : Run .argument tokens [argument] left →
    Run .more left arguments rest →
    Run .more (.op g.separator :: tokens) (argument :: arguments) rest

variable {g} {inside : Bool} {level : Nat}

theorem Run.unique {mode : Mode α β} {tokens rest rest' : List (Token α β)}
    {trees trees' : List (Tree α β)} (h : g.Run mode tokens trees rest)
    (h' : g.Run mode tokens trees' rest') : trees = trees' ∧ rest = rest' := by
  induction h generalizing trees' rest' with
  | operand _ ih =>
    cases h' with
    | operand h' => exact ih h'
  | sign _ _ ihbody ih =>
    cases h' with
    | sign hbody h' =>
      obtain ⟨hsame, rfl⟩ := ihbody hbody
      obtain rfl := List.singleton_inj.mp hsame
      exact ih h'
  | group _ _ ihbody ih =>
    cases h' with
    | group hbody h' =>
      obtain ⟨hsame, hleft⟩ := ihbody hbody
      obtain rfl := List.singleton_inj.mp hsame
      obtain rfl := List.tail_eq_of_cons_eq hleft
      exact ih h'
  | call _ _ iharguments ih =>
    cases h' with
    | call harguments h' =>
      obtain ⟨rfl, hleft⟩ := iharguments harguments
      obtain rfl := List.tail_eq_of_cons_eq hleft
      exact ih h'
  | stop hstops =>
    cases h' with
    | stop => exact ⟨rfl, rfl⟩
    | suffix hlevel => exact absurd hlevel (Nat.not_le.mpr hstops)
    | binary hlevel hinside => exact absurd (hstops hlevel).2 (hinside (hstops hlevel).1)
  | suffix hlevel _ ih =>
    cases h' with
    | stop hstops => exact absurd hlevel (Nat.not_le.mpr hstops)
    | suffix _ h' => exact ih h'
  | binary hlevel hinside _ _ ihright ih =>
    cases h' with
    | stop hstops => exact absurd (hstops hlevel).2 (hinside (hstops hlevel).1)
    | binary _ _ hright h' =>
      obtain ⟨hsame, rfl⟩ := ihright hright
      obtain rfl := List.singleton_inj.mp hsame
      exact ih h'
  | noArguments =>
    cases h' with
    | noArguments => exact ⟨rfl, rfl⟩
    | someArguments hhead => exact absurd rfl hhead
  | someArguments hhead _ _ ihargument ih =>
    cases h' with
    | noArguments => exact absurd rfl hhead
    | someArguments _ hargument h' =>
      obtain ⟨hsame, rfl⟩ := ihargument hargument
      obtain rfl := List.singleton_inj.mp hsame
      obtain ⟨rfl, rfl⟩ := ih h'
      exact ⟨rfl, rfl⟩
  | absent hends =>
    cases h' with
    | absent => exact ⟨rfl, rfl⟩
    | present hnot => exact absurd hends hnot
  | present hnot _ ih =>
    cases h' with
    | absent hends => exact absurd hends hnot
    | present _ h' => exact ih h'
  | last =>
    cases h' with
    | last => exact ⟨rfl, rfl⟩
  | next _ _ ihargument ih =>
    cases h' with
    | next hargument h' =>
      obtain ⟨hsame, rfl⟩ := ihargument hargument
      obtain rfl := List.singleton_inj.mp hsame
      obtain ⟨rfl, rfl⟩ := ih h'
      exact ⟨rfl, rfl⟩

theorem Stops.mono {level' : Nat} {tokens : List (Token α β)} (h : g.Stops inside level tokens)
    (hle : level ≤ level') : g.Stops inside level' tokens := by
  match tokens, h with
  | [], _ => trivial
  | .op _ :: _, h => exact fun hlevel => h (hle.trans hlevel)
  | .suffix :: _, h => exact h.trans_le hle
  | .operand _ :: _, _ | .call _ :: _, _ | .lparen :: _, _ | .rparen :: _, _ => trivial

/-- Nothing binds as a sign does. -/
theorem Stops.sign {tokens : List (Token α β)} (h : g.Stops inside (level + 1) tokens)
    (hle : level ≤ g.signLevel) : g.Stops inside g.signLevel tokens := by
  match tokens, h with
  | [], _ => trivial
  | .op operator :: _, h =>
    exact fun hlevel => h (hle.trans_lt (hlevel.lt_of_ne' (g.level_ne operator)))
  | .suffix :: _, h =>
    exact ((Nat.le_of_lt_succ h).trans hle).lt_of_ne g.suffixLevel_ne
  | .operand _ :: _, _ | .call _ :: _, _ | .lparen :: _, _ | .rparen :: _, _ => trivial

/-- An argument that is not missing does not start as the end of one. -/
theorem Fits.not_ends {tree : Tree α β} (h : g.Fits inside level tree) (rest : List (Token α β)) :
    ¬ g.Ends (tree.write g.separator ++ rest) := by
  induction h generalizing rest with
  | operand => exact id
  | binary _ _ _ _ ih _ =>
    rw [Tree.write, List.append_assoc]
    exact ih _
  | sign hop _ _ _ => exact fun hends => g.separator_not_sign (hends ▸ hop)
  | suffix _ _ ih =>
    rw [Tree.write, List.append_assoc]
    exact ih _
  | group _ _ => exact id
  | call _ _ _ => exact id

theorem Ends.stops {tokens : List (Token α β)} (h : g.Ends tokens) (level : Nat) :
    g.Stops true level tokens := by
  match tokens, h with
  | .op _ :: _, h => exact fun _ => ⟨rfl, h⟩
  | .rparen :: _, _ => trivial

theorem ends_writeMore (arguments : List (Tree α β)) (rest : List (Token α β)) :
    g.Ends (Tree.writeMore g.separator arguments ++ .rparen :: rest) := by
  cases arguments with
  | nil => trivial
  | cons argument arguments => exact rfl

/-- How an argument is read, if it is not missing. -/
def ReadsArgument (g : Levels β) (argument : Tree α β) : Prop :=
  argument ≠ .missing → ∀ rest, g.Ends rest →
    g.Run (.read true 0) (argument.write g.separator ++ rest) [argument] rest

theorem run_argument {argument : Tree α β} {rest : List (Token α β)}
    (hfits : argument ≠ .missing → g.Fits true 0 argument) (h : g.ReadsArgument argument)
    (hends : g.Ends rest) :
    g.Run .argument (argument.write g.separator ++ rest) [argument] rest := by
  by_cases hmissing : argument = .missing
  · rw [hmissing]
    exact .absent hends
  · exact .present ((hfits hmissing).not_ends rest) (h hmissing rest hends)

theorem run_more {arguments : List (Tree α β)} (rest : List (Token α β))
    (hfits : ∀ argument ∈ arguments, argument ≠ .missing → g.Fits true 0 argument)
    (h : ∀ argument ∈ arguments, g.ReadsArgument argument) :
    g.Run .more (Tree.writeMore g.separator arguments ++ .rparen :: rest) arguments
      (.rparen :: rest) := by
  induction arguments with
  | nil => exact .last
  | cons argument arguments ih =>
    obtain ⟨hargument, hmore⟩ := List.forall_mem_cons.mp h
    obtain ⟨hfit, hfits⟩ := List.forall_mem_cons.mp hfits
    rw [Tree.writeMore, List.cons_append, List.append_assoc]
    exact .next (run_argument hfit hargument (ends_writeMore arguments rest)) (ih hfits hmore)

theorem run_arguments {arguments : List (Tree α β)} (rest : List (Token α β))
    (hlone : arguments ≠ [.missing])
    (hfits : ∀ argument ∈ arguments, argument ≠ .missing → g.Fits true 0 argument)
    (h : ∀ argument ∈ arguments, g.ReadsArgument argument) :
    g.Run .arguments (Tree.writeAll g.separator arguments ++ .rparen :: rest) arguments
      (.rparen :: rest) := by
  cases arguments with
  | nil => exact .noArguments
  | cons argument arguments =>
    obtain ⟨hargument, hmore⟩ := List.forall_mem_cons.mp h
    obtain ⟨hfit, hfits⟩ := List.forall_mem_cons.mp hfits
    rw [Tree.writeAll, List.append_assoc]
    refine .someArguments ?_ (run_argument hfit hargument (ends_writeMore arguments rest))
      (run_more rest hfits hmore)
    intro hhead
    by_cases hmissing : argument = .missing
    · subst hmissing
      cases arguments with
      | nil => exact hlone rfl
      | cons next arguments => cases hhead
    · obtain ⟨tokens, htokens⟩ := List.head?_eq_some_iff.mp hhead
      refine (hfit hmissing).not_ends (Tree.writeMore g.separator arguments ++ .rparen :: rest) ?_
      rw [htokens]
      trivial

/-- A tree that keeps the levels is read from what is written for it. -/
theorem Fits.run {tree : Tree α β} (h : g.Fits inside level tree) {level' : Nat}
    {rest rest' : List (Token α β)} {trees : List (Tree α β)} (hle : level' ≤ level)
    (hstops : g.Stops inside (level + 1) rest)
    (htail : g.Run (.tail inside level' tree) rest trees rest') :
    g.Run (.read inside level') (tree.write g.separator ++ rest) trees rest' := by
  induction h generalizing level' rest trees rest' with
  | operand => exact .operand htail
  | @binary inside level operator left right hlevel hinside _ _ ihleft ihright =>
    rw [Tree.write, List.append_assoc]
    refine ihleft (hle.trans hlevel) (fun hover => absurd hover (Nat.not_succ_le_self _)) ?_
    have hstops' := hstops.mono (Nat.succ_le_succ hlevel)
    exact .binary (hle.trans hlevel) hinside
      (ihright (Nat.le_refl _) (hstops'.mono (Nat.le_succ _)) (.stop hstops')) htail
  | sign _ hlevel _ ih =>
    exact .sign (ih (Nat.le_refl _) (hstops.mono (Nat.succ_le_succ hlevel))
      (.stop (hstops.sign hlevel))) htail
  | @suffix inside level body hlevel _ ih =>
    rw [Tree.write, List.append_assoc]
    exact ih (hle.trans hlevel) (Nat.lt_succ_self g.suffixLevel) (.suffix (hle.trans hlevel) htail)
  | group _ ih =>
    rw [Tree.write, List.cons_append, List.append_assoc]
    exact .group (ih (Nat.le_refl _) trivial (.stop trivial)) htail
  | call hlone hfits ih =>
    rw [Tree.write, List.cons_append, List.append_assoc]
    exact .call (run_arguments _ hlone hfits fun argument hargument hmissing rest hends =>
      ih argument hargument hmissing (Nat.le_refl _) (hends.stops 1) (.stop (hends.stops 0))) htail

/-- **Unambiguity.** Tokens are read as one tree at most. -/
theorem Reads.unique {tokens : List (Token α β)} {tree tree' : Tree α β}
    (h : g.Reads tokens tree) (h' : g.Reads tokens tree') : tree = tree' := by
  have hrun {tree : Tree α β} (h : g.Reads tokens tree) :
      g.Run (.read false 0) tokens [tree] [] := by
    have hread := @Fits.run _ _ g _ _ tree h.1 0 [] [] [tree] (Nat.le_refl 0) trivial (.stop trivial)
    rwa [List.append_nil, h.2] at hread
  exact List.singleton_inj.mp ((hrun h).unique (hrun h')).1

end Levels

end IntoMarkdown.Lib.Infix
