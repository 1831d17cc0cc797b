import IntoMarkdown.Xls.Rendering

/-! # The text of a formula

What is written for a formula fits the capacity that was counted for it, and is read as the same
formula exactly where no argument has a union outside of parentheses. -/

namespace IntoMarkdown.Xls
open Lib Lib.Strings Lib.Infix

/-! ## Lengths -/

theorem byteLength_tokensAt {formula : Formula} (h : byteLength (flat formula.tokens) + 2 ≤ formula.bytes)
    (level : Nat) : byteLength (flat (formula.tokensAt level)) ≤ formula.bytes := by
  rw [Formula.tokensAt]
  cases levels.below level formula with
  | false => exact (Nat.le_add_right _ 2).trans h
  | true =>
    refine Nat.le_trans (Nat.le_of_eq ?_) h
    rw [Tree.enclosed, if_pos rfl, Tree.write, flat_cons, flat_append, byteLength_append,
      byteLength_append, Nat.add_comm]
    rfl

theorem byteLength_more {arguments : List Formula}
    (h : ∀ argument ∈ arguments, byteLength (flat argument.tokens) + 2 ≤ argument.bytes) :
    byteLength (flat (Tree.writeMore .union (levels.groupedAll arguments))) ≤
      Formula.bytesAll arguments + arguments.length := by
  induction arguments with
  | nil => exact Nat.le_refl 0
  | cons argument arguments ih =>
    obtain ⟨hargument, hrest⟩ := List.forall_mem_cons.mp h
    have hfirst := byteLength_tokensAt hargument (if levels.isSeparated argument then 9 else 0)
    have hmore := ih hrest
    have hcomma : byteLength (tokenText (.op .union)) = 1 := rfl
    rw [tokensAt_argument] at hfirst
    rw [Levels.groupedAll, Tree.writeMore, flat_cons, flat_append, byteLength_append,
      byteLength_append, Formula.bytesAll, List.length_cons, hcomma]
    omega

theorem byteLength_all {arguments : List Formula}
    (h : ∀ argument ∈ arguments, byteLength (flat argument.tokens) + 2 ≤ argument.bytes) :
    byteLength (flat (Tree.writeAll .union (levels.groupedAll arguments))) ≤
      Formula.bytesAll arguments + arguments.length := by
  refine Nat.le_trans ?_ (byteLength_more h)
  cases arguments with
  | nil => exact Nat.le_refl 0
  | cons argument arguments =>
    rw [Levels.groupedAll, Tree.writeMore, flat_cons, byteLength_append]
    exact Nat.le_add_left _ _

/-- Two parentheses are counted for every node. -/
theorem byteLength_tokens (formula : Formula) :
    byteLength (flat formula.tokens) + 2 ≤ formula.bytes := by
  induction formula using Tree.induct with
  | missing => exact Nat.le_refl 2
  | operand text =>
    rw [Formula.tokens, Levels.grouped, Tree.write, flat_cons, flat_nil, List.append_nil]
    exact Nat.le_refl _
  | binary operator left right ihleft ihright =>
    have hleft := byteLength_tokensAt ihleft operator.precedence
    have hright := byteLength_tokensAt ihright (operator.precedence + 1)
    rw [Formula.tokens, Levels.grouped, Tree.write, flat_append, flat_cons, byteLength_append,
      byteLength_append, Formula.bytes]
    simp only [Formula.tokensAt, levels, tokenText] at hleft hright ⊢
    omega
  | sign operator body ih =>
    have hbody := byteLength_tokensAt ih 7
    rw [Formula.tokens, Levels.grouped, Tree.write, flat_cons, byteLength_append, Formula.bytes]
    simp only [Formula.tokensAt, levels, tokenText] at hbody ⊢
    omega
  | suffix body ih =>
    have hbody := byteLength_tokensAt ih 6
    have hpercent : byteLength (flat [.suffix]) = 1 := rfl
    rw [Formula.tokens, Levels.grouped, Tree.write, flat_append, byteLength_append, hpercent,
      Formula.bytes]
    simp only [Formula.tokensAt, levels] at hbody ⊢
    omega
  | group body ih =>
    have hparen : byteLength (tokenText .lparen) = 1 := rfl
    have hclosed : byteLength (flat [.rparen]) = 1 := rfl
    rw [Formula.tokens, Levels.grouped, Tree.write, flat_cons, flat_append, byteLength_append,
      byteLength_append, hparen, hclosed, Formula.bytes]
    rw [Formula.tokens] at ih
    omega
  | call name arguments ih =>
    have hall := byteLength_all ih
    have hname : byteLength (tokenText (.call name)) = byteLength name + 1 := byteLength_append _ _
    have hclosed : byteLength (flat [.rparen]) = 1 := rfl
    rw [Formula.tokens, Levels.grouped, Tree.write, Tree.writeAll_present, flat_cons, flat_append,
      byteLength_append, byteLength_append, hname, hclosed, Formula.bytes]
    omega

/-! ## Texts -/

section
variable {e : Expression} {formula : Formula}

theorem render_single (h : Holds e [formula]) (hpresent : formula ≠ .missing) :
    e.render = some (.ok (flat formula.tokens)) := by
  obtain ⟨nodes, indices, arguments, bytes⟩ := e
  obtain ⟨hstands, hbytes, -⟩ := h
  match indices, hstands with
  | [root], ⟨hroot, _⟩ =>
    have hmissing : formula.isMissing = false := by
      cases formula with
      | missing => exact absurd rfl hpresent
      | _ => rfl
    obtain ⟨count, hcount, hloop⟩ := writes _ formula root 0 [] [] hroot (Nat.zero_le 11)
    have hturns : 2 * bytes + 1 = count + (2 * bytes + 1 - count) := by
      simp only [Formula.bytesAll] at hbytes
      omega
    have hleft : 2 * bytes + 1 - count = (2 * bytes - count) + 1 := by
      simp only [Formula.bytesAll] at hbytes
      omega
    rw [Expression.render]
    dsimp only
    rw [hroot.isMissing, hmissing, if_neg Bool.false_ne_true, hturns, hloop, hleft,
      Expression.renderLoop, tokensAt_zero]
    rfl

theorem render_other {stack : List Formula} (h : Holds e stack)
    (hother : ∀ formula, stack = [formula] → formula = .missing) :
    e.render = some (.error "invalid-formula-stack") := by
  obtain ⟨nodes, indices, arguments, bytes⟩ := e
  obtain ⟨hstands, -, -⟩ := h
  match stack, indices, hstands with
  | [], [], _ => rfl
  | [formula], [root], ⟨hroot, _⟩ =>
    rw [Expression.render]
    dsimp only
    rw [hroot.isMissing, hother formula rfl]
    rfl
  | _ :: _ :: _, _ :: _ :: _, _ => rfl

/-- How the text of a formula is read. -/
structure ReadsBack (formula : Formula) (written : Text) (capacity : Nat) : Prop where
  text : written = flat formula.tokens
  fits : byteLength written ≤ capacity
  unique : ∀ read read', levels.Reads formula.tokens read → levels.Reads formula.tokens read' →
    read = read'
  same_iff : (∃ read, levels.Reads formula.tokens read ∧ read.strip = Tree.strip formula) ↔
    levels.Plain (levels.grouped formula)

/-- **Formulas.** Where the operations leave one formula, its text fits the capacity and is read in
one way at most: as that formula, if no argument has a union outside of parentheses, else never.
Everything else is refused. -/
theorem render_reads {ops : List Op} (h : Expression.run ops = .ok e) :
    (∃ formula text, build ops = .ok [formula] ∧ formula ≠ .missing ∧
      e.render = some (.ok text) ∧ ReadsBack formula text e.capacity) ∨
    (e.render = some (.error "invalid-formula-stack") ∧
      ∀ formula, build ops = .ok [formula] → formula = .missing) := by
  have hrun := run_refines ops
  rw [h] at hrun
  obtain ⟨stack, hstack, hholds⟩ : ∃ stack, build ops = .ok stack ∧ Holds e stack := by
    cases hbuild : build ops with
    | error message =>
      rw [hbuild] at hrun
      cases hrun
    | ok stack =>
      rw [hbuild] at hrun
      cases hrun with
      | ok hholds => exact ⟨stack, rfl, hholds⟩
  by_cases hsingle : ∃ formula, stack = [formula] ∧ formula ≠ .missing
  · obtain ⟨formula, rfl, hpresent⟩ := hsingle
    have hsound := hholds.sound formula List.mem_cons_self hpresent
    refine Or.inl ⟨formula, _, hstack, hpresent, render_single hholds hpresent, rfl, ?_, ?_, ?_⟩
    · have hbytes := hholds.bytes
      have hlength := byteLength_tokens formula
      simp only [Formula.bytesAll] at hbytes
      rw [Expression.capacity]
      omega
    · exact fun read read' hread hread' => hread.unique hread'
    · exact Levels.reads_grouped_iff hsound
  · have hother (formula : Formula) (hformula : stack = [formula]) : formula = .missing := by
      by_contra hpresent
      exact hsingle ⟨formula, hformula, hpresent⟩
    exact Or.inr ⟨render_other hholds hother, fun formula hformula =>
      hother formula (Except.ok.inj (hstack.symm.trans hformula))⟩

end

theorem render_reads_power : ∃ e text, Expression.run [.atom ['A'], .atom ['B'], .binary 0x03,
    .atom ['2'], .binary 0x07] = .ok e ∧ e.render = some (.ok text) := by
  obtain ⟨e, he⟩ := isOk_iff.mp (show (Expression.run [.atom ['A'], .atom ['B'], .binary 0x03,
    .atom ['2'], .binary 0x07]).isOk = true by decide)
  rcases render_reads he with ⟨formula, text, -, -, hrender, -⟩ | ⟨-, hnone⟩
  · exact ⟨e, text, he, hrender⟩
  · cases hnone _ (rfl : build _ = .ok [.binary .power (.binary .add (.operand ['A'])
      (.operand ['B'])) (.operand ['2'])])

/-- The union here is no argument of its own, and gets no parentheses. -/
example : (Expression.run [.atom ['A'], .atom ['B'], .binary 0x10, .atom ['C'], .binary 0x03,
    .call "SUM".toList 1]).toOption.bind Expression.render = some (.ok "SUM(A,B+C)".toList) := by
  decide +kernel

end IntoMarkdown.Xls
