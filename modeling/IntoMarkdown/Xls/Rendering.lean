import IntoMarkdown.Xls.Arena

/-! # Rendering

The loop over the pending outputs writes the tokens of the tree that its node stands for. -/

namespace IntoMarkdown.Xls
open Lib Lib.Strings Lib.Infix

/-- In so many turns at most, the loop goes from one state to another. -/
def Advances (e : Expression) (turns : Nat) (pending : List Output) (output : Text)
    (pending' : List Output) (output' : Text) : Prop :=
  ∃ count ≤ turns, ∀ fuel,
    e.renderLoop (count + fuel) pending output = e.renderLoop fuel pending' output'

section
variable {e : Expression} {turns turns' : Nat} {pending pending' pending'' : List Output}
  {output output' output'' : Text}

theorem Advances.refl : Advances e 0 pending output pending output :=
  ⟨0, Nat.le_refl _, fun fuel => by rw [Nat.zero_add]⟩

theorem Advances.trans (h : Advances e turns pending output pending' output')
    (h' : Advances e turns' pending' output' pending'' output'') :
    Advances e (turns + turns') pending output pending'' output'' := by
  obtain ⟨count, hle, hloop⟩ := h
  obtain ⟨count', hle', hloop'⟩ := h'
  exact ⟨count + count', Nat.add_le_add hle hle', fun fuel => by
    rw [Nat.add_assoc, hloop, hloop']⟩

theorem Advances.mono (h : Advances e turns pending output pending' output')
    (hle : turns ≤ turns') : Advances e turns' pending output pending' output' := by
  obtain ⟨count, hcount, hloop⟩ := h
  exact ⟨count, hcount.trans hle, hloop⟩

theorem advances_text (text : Text) :
    Advances e 1 (.text text :: pending) output pending (output ++ text) :=
  ⟨1, Nat.le_refl _, fun fuel => by rw [Nat.add_comm, Expression.renderLoop]⟩

theorem advances_node {index parent : Nat} {node : Node} (hnode : e.nodes[index]? = some node)
    (h : Advances e turns (e.expand node (.text [')'] :: pending)) (output ++ ['('])
      pending' output')
    (hparent : node.precedence < parent) :
    Advances e (1 + turns) (.node index parent :: pending) output pending' output' := by
  obtain ⟨count, hle, hloop⟩ := h
  refine ⟨1 + count, Nat.add_le_add_left hle 1, fun fuel => ?_⟩
  rw [Nat.add_assoc, Nat.add_comm, Expression.renderLoop, hnode]
  dsimp only
  rw [if_pos hparent, hloop]

theorem advances_bare_node {index parent : Nat} {node : Node} (hnode : e.nodes[index]? = some node)
    (h : Advances e turns (e.expand node pending) output pending' output')
    (hparent : ¬ node.precedence < parent) :
    Advances e (1 + turns) (.node index parent :: pending) output pending' output' := by
  obtain ⟨count, hle, hloop⟩ := h
  refine ⟨1 + count, Nat.add_le_add_left hle 1, fun fuel => ?_⟩
  rw [Nat.add_assoc, Nat.add_comm, Expression.renderLoop, hnode]
  dsimp only
  rw [if_neg hparent, hloop]

/-! ## Operands -/

/-- The loop writes a formula that a node stands for, below any parent. -/
def Writes (e : Expression) (formula : Formula) : Prop :=
  ∀ (index parent : Nat) (pending : List Output) (output : Text), Stands e formula index →
    parent ≤ 11 → Advances e (2 * formula.bytes) (.node index parent :: pending) output pending
      (output ++ flat (formula.tokensAt parent))

theorem writes_of (turns : Nat) {formula : Formula} {index parent : Nat} {node : Node}
    (hnode : e.nodes[index]? = some node)
    (hprecedence : decide (node.precedence < parent) = levels.below parent formula)
    (hturns : turns + 2 ≤ 2 * formula.bytes)
    (h : ∀ pending output, Advances e turns (e.expand node pending) output pending
      (output ++ flat formula.tokens)) :
    Advances e (2 * formula.bytes) (.node index parent :: pending) output pending
      (output ++ flat (formula.tokensAt parent)) := by
  by_cases hparent : node.precedence < parent
  · rw [decide_eq_true hparent] at hprecedence
    have hclosed := (h (.text [')'] :: pending) (output ++ ['('])).trans (advances_text [')'])
    have hall := advances_node hnode hclosed hparent
    rw [Formula.tokensAt, ← hprecedence]
    simp only [Tree.enclosed, if_true, Tree.write, flat_cons, flat_append, flat_nil, tokenText]
    simp only [Formula.tokens, List.append_assoc, List.append_nil] at hall ⊢
    exact hall.mono (by omega)
  · rw [decide_eq_false hparent] at hprecedence
    have hall := advances_bare_node hnode (h pending output) hparent
    rw [Formula.tokensAt, ← hprecedence]
    exact hall.mono (by omega)

theorem atom_writes {text : Text} {index parent : Nat} {formula : Formula}
    (hnode : e.nodes[index]? = some (.atom text)) (hparent : parent ≤ 11)
    (hbelow : levels.below parent formula = false) (hbytes : formula.bytes = byteLength text + 2)
    (htokens : flat formula.tokens = text) :
    Advances e (2 * formula.bytes) (.node index parent :: pending) output pending
      (output ++ flat (formula.tokensAt parent)) := by
  refine writes_of 1 hnode ?_ ?_ fun pending output => ?_
  · rw [hbelow]
    exact decide_eq_false (Nat.not_lt.mpr hparent)
  · omega
  · rw [htokens]
    exact advances_text text

theorem binary_writes {operator : BinaryOperator} {left right : Formula} (hleft : Writes e left)
    (hright : Writes e right) : Writes e (.binary operator left right) := by
  rintro index parent pending output ⟨first, second, hnode, hfirst, hsecond⟩ -
  have hlevel : operator.precedence + 1 ≤ 11 := by cases operator <;> decide
  refine writes_of (2 * left.bytes + 1 + 2 * right.bytes) hnode rfl ?_ fun pending output => ?_
  · rw [Formula.bytes]
    omega
  · have h := ((hleft first operator.precedence (.text operator.text ::
      .node second (operator.precedence + 1) :: pending) output hfirst
      (Nat.le_of_succ_le hlevel)).trans (advances_text operator.text)).trans
      (hright second (operator.precedence + 1) pending _ hsecond hlevel)
    rw [Formula.tokens, Levels.grouped, Tree.write, flat_append, flat_cons]
    simp only [List.append_assoc] at h ⊢
    exact h

theorem unary_advances {body : Formula} (hbody : Writes e body) {child parent : Nat}
    (hchild : Stands e body child) (hparent : parent ≤ 11) (prefixText suffix : Text)
    (pending : List Output) (output : Text) :
    Advances e (1 + 2 * body.bytes + 1)
      (.text prefixText :: .node child parent :: .text suffix :: pending) output pending
      (output ++ (prefixText ++ (flat (body.tokensAt parent) ++ suffix))) := by
  have h := ((advances_text prefixText).trans (hbody child parent (.text suffix :: pending)
    (output ++ prefixText) hchild hparent)).trans (advances_text suffix)
  simp only [List.append_assoc] at h
  exact h

theorem sign_writes {operator : BinaryOperator} {body : Formula} (hbody : Writes e body) :
    Writes e (.sign operator body) := by
  rintro index parent pending output ⟨child, hnode, hchild⟩ -
  refine writes_of (1 + 2 * body.bytes + 1) hnode rfl ?_ fun pending output => ?_
  · rw [Formula.bytes]
    omega
  · have h := unary_advances hbody hchild (show 7 ≤ 11 by decide) operator.text [] pending output
    have hlevel : (if operator.text = ['('] then 0 else 7) = 7 := by cases operator <;> rfl
    rw [Expression.expand, hlevel, Formula.tokens, Levels.grouped, Tree.write, flat_cons]
    rw [List.append_nil] at h
    exact h

theorem suffix_writes {body : Formula} (hbody : Writes e body) : Writes e (.suffix body) := by
  rintro index parent pending output ⟨child, hnode, hchild⟩ -
  refine writes_of (1 + 2 * body.bytes + 1) hnode rfl ?_ fun pending output => ?_
  · rw [Formula.bytes]
    omega
  · have h := unary_advances hbody hchild (show 6 ≤ 11 by decide) [] ['%'] pending output
    rw [Formula.tokens, Levels.grouped, Tree.write, flat_append]
    exact h

theorem tokensAt_zero (formula : Formula) : formula.tokensAt 0 = formula.tokens := by
  rw [Formula.tokensAt, Levels.not_below_zero]
  rfl

theorem group_writes {body : Formula} (hbody : Writes e body) : Writes e (.group body) := by
  rintro index parent pending output ⟨child, hnode, hchild⟩ hparent
  refine writes_of (1 + 2 * body.bytes + 1) hnode ?_ ?_ fun pending output => ?_
  · exact decide_eq_false (Nat.not_lt.mpr hparent)
  · rw [Formula.bytes]
    omega
  · have h := unary_advances hbody hchild (Nat.zero_le 11) ['('] [')'] pending output
    rw [Formula.tokens, Levels.grouped, Tree.write, flat_cons, flat_append]
    rw [tokensAt_zero] at h
    exact h

/-! ## Calls -/

/-- What is pending for arguments that follow another. -/
def expandMore (e : Expression) (arguments : List Nat) (pending : List Output) : List Output :=
  match arguments with
  | [] => pending
  | argument :: rest =>
    .text [','] :: .node argument (if e.isUnion argument then 9 else 0) :: expandMore e rest pending

theorem expandArguments_cons (argument : Nat) (rest : List Nat) (pending : List Output) :
    e.expandArguments (argument :: rest) pending =
      .node argument (if e.isUnion argument then 9 else 0) :: expandMore e rest pending := by
  have hmore (arguments : List Nat) (start : Nat) (hstart : start ≠ 0) :
      (arguments.zipIdx start).foldr (fun argument pending =>
        let pushed := Output.node argument.1 (if e.isUnion argument.1 then 9 else 0) :: pending
        if argument.2 ≠ 0 then .text [','] :: pushed else pushed) pending =
          expandMore e arguments pending := by
    induction arguments generalizing start with
    | nil => rfl
    | cons argument arguments ih =>
      rw [List.zipIdx_cons, List.foldr_cons, ih (start + 1) (Nat.succ_ne_zero _)]
      exact if_pos hstart
  rw [Expression.expandArguments, List.zipIdx_cons, List.foldr_cons, hmore rest _ (Nat.succ_ne_zero _)]
  rfl

theorem tokensAt_argument (argument : Formula) :
    argument.tokensAt (if levels.isSeparated argument then 9 else 0) =
      (Tree.enclosed (levels.isSeparated argument) (levels.grouped argument)).write .union := by
  have hbelow : levels.below (if levels.isSeparated argument then 9 else 0) argument =
      levels.isSeparated argument := by
    cases hseparated : levels.isSeparated argument with
    | false => exact Levels.not_below_zero argument
    | true =>
      cases argument with
      | binary operator left right =>
        rw [of_decide_eq_true hseparated]
        rfl
      | _ => cases hseparated
  rw [Formula.tokensAt, hbelow]

theorem argument_advances {argument : Formula} (hargument : Writes e argument) {index : Nat}
    (hindex : Stands e argument index) (pending : List Output) (output : Text) :
    Advances e (2 * argument.bytes) (.node index (if e.isUnion index then 9 else 0) :: pending)
      output pending (output ++ flat ((Tree.enclosed (levels.isSeparated argument)
        (levels.grouped argument)).write .union)) := by
  rw [← tokensAt_argument, hindex.isUnion]
  exact hargument index _ pending output hindex (by split <;> decide)

theorem more_advances {arguments : List Formula} (h : ∀ argument ∈ arguments, Writes e argument)
    {indices : List Nat} (hindices : StandAll e arguments indices) (pending : List Output)
    (output : Text) :
    Advances e (2 * Formula.bytesAll arguments + arguments.length)
      (expandMore e indices pending) output pending
      (output ++ flat (Tree.writeMore .union (levels.groupedAll arguments))) := by
  induction arguments generalizing indices output with
  | nil =>
    cases indices with
    | nil =>
      rw [Levels.groupedAll, Tree.writeMore, flat_nil, List.append_nil]
      exact .refl
    | cons index indices => exact hindices.elim
  | cons argument arguments ih =>
    obtain ⟨hargument, hrest⟩ := List.forall_mem_cons.mp h
    cases indices with
    | nil => exact hindices.elim
    | cons index indices =>
      have hall := ((advances_text [',']).trans (argument_advances hargument hindices.1
        (expandMore e indices pending) (output ++ [',']))).trans (ih hrest hindices.2 _)
      rw [Levels.groupedAll, Tree.writeMore, flat_cons, flat_append]
      simp only [List.append_assoc] at hall ⊢
      refine hall.mono ?_
      rw [Formula.bytesAll, List.length_cons]
      omega

theorem arguments_advance {arguments : List Formula} (h : ∀ argument ∈ arguments, Writes e argument)
    {indices : List Nat} (hindices : StandAll e arguments indices) (pending : List Output)
    (output : Text) :
    Advances e (2 * Formula.bytesAll arguments + arguments.length)
      (e.expandArguments indices pending) output pending
      (output ++ flat (Tree.writeAll .union (levels.groupedAll arguments))) := by
  cases arguments with
  | nil =>
    cases indices with
    | nil =>
      rw [Levels.groupedAll, Tree.writeAll, flat_nil, List.append_nil]
      exact .refl
    | cons index indices => exact hindices.elim
  | cons argument arguments =>
    obtain ⟨hargument, hrest⟩ := List.forall_mem_cons.mp h
    cases indices with
    | nil => exact hindices.elim
    | cons index indices =>
      have hall := (argument_advances hargument hindices.1 (expandMore e indices pending)
        output).trans (more_advances hrest hindices.2 pending _)
      rw [expandArguments_cons, Levels.groupedAll, Tree.writeAll, flat_append]
      simp only [List.append_assoc] at hall ⊢
      refine hall.mono ?_
      rw [Formula.bytesAll, List.length_cons]
      omega

theorem call_writes {name : Text} {arguments : List Formula}
    (h : ∀ argument ∈ arguments, Writes e argument) : Writes e (.call name arguments) := by
  rintro index parent pending output ⟨first, last, hnode, -, hindices⟩ hparent
  refine writes_of (1 + 1 + (2 * Formula.bytesAll arguments + arguments.length) + 1) hnode ?_ ?_
    fun pending output => ?_
  · exact decide_eq_false (Nat.not_lt.mpr hparent)
  · rw [Formula.bytes]
    omega
  · have hall := (((advances_text name).trans (advances_text ['('])).trans
      (arguments_advance h hindices (.text [')'] :: pending) (output ++ name ++ ['(']))).trans
      (advances_text [')'])
    rw [Formula.tokens, Levels.grouped, Tree.write, Tree.writeAll_present, flat_cons, flat_append]
    simp only [List.append_assoc, tokenText, flat_cons, flat_nil, List.append_nil] at hall ⊢
    exact hall

theorem writes (e : Expression) (formula : Formula) : Writes e formula := by
  induction formula using Tree.induct with
  | missing =>
    intro index parent pending output hnode hparent
    exact atom_writes hnode hparent rfl rfl rfl
  | operand text =>
    rintro index parent pending output ⟨-, hnode⟩ hparent
    exact atom_writes hnode hparent rfl rfl (List.append_nil text)
  | binary operator left right ihleft ihright => exact binary_writes ihleft ihright
  | sign operator body ih => exact sign_writes ih
  | suffix body ih => exact suffix_writes ih
  | group body ih => exact group_writes ih
  | call name arguments ih => exact call_writes ih

end

end IntoMarkdown.Xls
