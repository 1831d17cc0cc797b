import IntoMarkdown.Xls.Formula
import IntoMarkdown.Lib.Except

/-! # The arena of a formula

The nodes stand for the trees that the operations build, and their bytes are counted. -/

namespace IntoMarkdown.Xls
open Lib Lib.Strings Lib.Infix

mutual

/-- A node of the arena stands for a formula. -/
def Stands (e : Expression) : Formula → Nat → Prop
  | .missing, index => e.nodes[index]? = some (.atom [])
  | .operand text, index => text ≠ [] ∧ e.nodes[index]? = some (.atom text)
  | .binary operator left right, index => ∃ first second,
    e.nodes[index]? = some (.binary first second operator.text operator.precedence) ∧
      Stands e left first ∧ Stands e right second
  | .sign operator body, index => ∃ child,
    e.nodes[index]? = some (.unary child operator.text [] 7) ∧ Stands e body child
  | .suffix body, index => ∃ child,
    e.nodes[index]? = some (.unary child [] ['%'] 6) ∧ Stands e body child
  | .group body, index => ∃ child,
    e.nodes[index]? = some (.unary child ['('] [')'] 11) ∧ Stands e body child
  | .call name arguments, index => ∃ first last,
    e.nodes[index]? = some (.call name first last) ∧ last ≤ e.arguments.length ∧
      StandAll e arguments ((e.arguments.drop first).take (last - first))

def StandAll (e : Expression) : List Formula → List Nat → Prop
  | [], [] => True
  | formula :: formulas, index :: indices => Stands e formula index ∧ StandAll e formulas indices
  | _, _ => False

end

/-- Nodes and arguments are only added. -/
structure Extends (e e' : Expression) : Prop where
  nodes : e.nodes <+: e'.nodes
  arguments : e.arguments <+: e'.arguments

section
variable {e e' : Expression} {formula : Formula} {index : Nat}

theorem Extends.getElem? (h : Extends e e') {node : Node} (hnode : e.nodes[index]? = some node) :
    e'.nodes[index]? = some node := by
  obtain ⟨more, hmore⟩ := h.nodes
  rw [← hmore, List.getElem?_append_left (List.getElem?_eq_some_iff.mp hnode).1, hnode]

theorem Extends.slice (h : Extends e e') {first last : Nat} (hlast : last ≤ e.arguments.length) :
    (e'.arguments.drop first).take (last - first) = (e.arguments.drop first).take (last - first) := by
  obtain ⟨more, hmore⟩ := h.arguments
  rw [← hmore]
  by_cases hfirst : first ≤ last
  · rw [List.drop_append_of_le_length (hfirst.trans hlast), List.take_append_of_le_length]
    rw [List.length_drop]
    omega
  · rw [Nat.sub_eq_zero_of_le (Nat.le_of_not_le hfirst), List.take_zero, List.take_zero]

theorem StandAll.imp {formulas : List Formula} {indices : List Nat} (h : StandAll e formulas indices)
    (himp : ∀ formula ∈ formulas, ∀ index, Stands e formula index → Stands e' formula index) :
    StandAll e' formulas indices := by
  induction formulas generalizing indices with
  | nil =>
    cases indices with
    | nil => trivial
    | cons index indices => exact h.elim
  | cons formula formulas ih =>
    obtain ⟨hhead, htail⟩ := List.forall_mem_cons.mp himp
    cases indices with
    | nil => exact h.elim
    | cons index indices => exact ⟨hhead index h.1, ih h.2 htail⟩

theorem Stands.mono (hext : Extends e e') (h : Stands e formula index) :
    Stands e' formula index := by
  induction formula using Tree.induct generalizing index with
  | missing => exact hext.getElem? h
  | operand text => exact ⟨h.1, hext.getElem? h.2⟩
  | binary operator left right ihleft ihright =>
    obtain ⟨first, second, hnode, hleft, hright⟩ := h
    exact ⟨first, second, hext.getElem? hnode, ihleft hleft, ihright hright⟩
  | sign operator body ih =>
    obtain ⟨child, hnode, hbody⟩ := h
    exact ⟨child, hext.getElem? hnode, ih hbody⟩
  | suffix body ih =>
    obtain ⟨child, hnode, hbody⟩ := h
    exact ⟨child, hext.getElem? hnode, ih hbody⟩
  | group body ih =>
    obtain ⟨child, hnode, hbody⟩ := h
    exact ⟨child, hext.getElem? hnode, ih hbody⟩
  | call name arguments ih =>
    obtain ⟨first, last, hnode, hlast, hall⟩ := h
    refine ⟨first, last, hext.getElem? hnode, hlast.trans hext.arguments.length_le, ?_⟩
    rw [hext.slice hlast]
    exact hall.imp fun argument hargument index => ih argument hargument

theorem StandAll.mono (hext : Extends e e') {formulas : List Formula} {indices : List Nat}
    (h : StandAll e formulas indices) : StandAll e' formulas indices :=
  h.imp fun _ _ _ => Stands.mono hext

theorem StandAll.length_eq {formulas : List Formula} {indices : List Nat}
    (h : StandAll e formulas indices) : formulas.length = indices.length := by
  induction formulas generalizing indices with
  | nil =>
    cases indices with
    | nil => rfl
    | cons index indices => exact h.elim
  | cons formula formulas ih =>
    cases indices with
    | nil => exact h.elim
    | cons index indices => exact congrArg Nat.succ (ih h.2)

theorem standAll_append {formulas formulas' : List Formula} {indices indices' : List Nat}
    (h : StandAll e formulas indices) (h' : StandAll e formulas' indices') :
    StandAll e (formulas ++ formulas') (indices ++ indices') := by
  induction formulas generalizing indices with
  | nil =>
    cases indices with
    | nil => exact h'
    | cons index indices => exact h.elim
  | cons formula formulas ih =>
    cases indices with
    | nil => exact h.elim
    | cons index indices => exact ⟨h.1, ih h.2⟩

theorem StandAll.reverse {formulas : List Formula} {indices : List Nat}
    (h : StandAll e formulas indices) : StandAll e formulas.reverse indices.reverse := by
  induction formulas generalizing indices with
  | nil =>
    cases indices with
    | nil => exact h
    | cons index indices => exact h.elim
  | cons formula formulas ih =>
    cases indices with
    | nil => exact h.elim
    | cons index indices =>
      rw [List.reverse_cons, List.reverse_cons]
      exact standAll_append (ih h.2) ⟨h.1, trivial⟩

theorem StandAll.split {formulas : List Formula} {indices : List Nat}
    (h : StandAll e formulas indices) (count : Nat) :
    StandAll e (formulas.take count) (indices.take count) ∧
      StandAll e (formulas.drop count) (indices.drop count) := by
  induction formulas generalizing indices count with
  | nil =>
    cases indices with
    | nil => simp [StandAll]
    | cons index indices => exact h.elim
  | cons formula formulas ih =>
    cases indices with
    | nil => exact h.elim
    | cons index indices =>
      cases count with
      | zero => exact ⟨trivial, h⟩
      | succ count => exact ⟨⟨h.1, (ih h.2 count).1⟩, (ih h.2 count).2⟩

theorem Stands.isMissing (h : Stands e formula index) :
    e.isMissing index = formula.isMissing := by
  cases formula with
  | missing =>
    rw [Stands] at h
    simp [Expression.isMissing, h, Formula.isMissing]
  | operand text =>
    rw [Stands] at h
    simp [Expression.isMissing, h.2, Formula.isMissing, h.1]
  | binary operator left right =>
    obtain ⟨first, second, hnode, -⟩ := h
    simp [Expression.isMissing, hnode, Formula.isMissing]
  | call name arguments =>
    obtain ⟨first, last, hnode, -⟩ := h
    simp [Expression.isMissing, hnode, Formula.isMissing]
  | _ =>
    obtain ⟨child, hnode, -⟩ := h
    simp [Expression.isMissing, hnode, Formula.isMissing]

theorem BinaryOperator.text_union (operator : BinaryOperator) :
    (operator.text == [',']) = decide (operator = .union) := by
  cases operator <;> rfl

theorem Stands.isUnion (h : Stands e formula index) :
    e.isUnion index = levels.isSeparated formula := by
  cases formula with
  | missing =>
    rw [Stands] at h
    simp [Expression.isUnion, h, Levels.isSeparated]
  | operand text =>
    rw [Stands] at h
    simp [Expression.isUnion, h.2, Levels.isSeparated]
  | binary operator left right =>
    obtain ⟨first, second, hnode, -⟩ := h
    rw [Expression.isUnion, hnode]
    exact operator.text_union
  | call name arguments =>
    obtain ⟨first, last, hnode, -⟩ := h
    simp [Expression.isUnion, hnode, Levels.isSeparated]
  | _ =>
    obtain ⟨child, hnode, -⟩ := h
    simp [Expression.isUnion, hnode, Levels.isSeparated]

end

/-! ## Operations -/

/-- The arena holds the trees of a stack. -/
structure Holds (e : Expression) (stack : List Formula) : Prop where
  stands : StandAll e stack e.stack
  bytes : Formula.bytesAll stack = e.bytes
  sound : ∀ formula ∈ stack, formula ≠ .missing → levels.Sound formula

inductive Refines : Except String Expression → Except String (List Formula) → Prop
  | ok {e stack} : Holds e stack → Refines (.ok e) (.ok stack)
  | error (message : String) : Refines (.error message) (.error message)

section
variable {e : Expression} {stack : List Formula}

theorem extends_push (e : Expression) (node : Node) (bytes : Nat) :
    Extends e (e.push node bytes) where
  nodes := List.prefix_append _ _
  arguments := List.prefix_refl _

theorem getElem?_push (e : Expression) (node : Node) (bytes : Nat) :
    (e.push node bytes).nodes[e.nodes.length]? = some node := List.getElem?_concat_length

theorem bytesAll_append (formulas formulas' : List Formula) :
    Formula.bytesAll (formulas ++ formulas') =
      Formula.bytesAll formulas + Formula.bytesAll formulas' := by
  induction formulas with
  | nil => exact (Nat.zero_add _).symm
  | cons formula formulas ih =>
    rw [List.cons_append, Formula.bytesAll, Formula.bytesAll, ih, Nat.add_assoc]

theorem bytesAll_reverse (formulas : List Formula) :
    Formula.bytesAll formulas.reverse = Formula.bytesAll formulas := by
  induction formulas with
  | nil => rfl
  | cons formula formulas ih =>
    rw [List.reverse_cons, bytesAll_append, ih, Formula.bytesAll, Formula.bytesAll,
      Formula.bytesAll, Nat.add_zero, Nat.add_comm]

theorem sound_of_isMissing {formula : Formula} (h : formula ≠ .missing → levels.Sound formula)
    (hmissing : formula.isMissing = false) : levels.Sound formula := by
  refine h ?_
  rintro rfl
  cases hmissing

theorem atom_holds (h : Holds e stack) (text : Text) :
    Holds (e.atom text) (Formula.atom text :: stack) := by
  have hext : Extends e (e.atom text) := extends_push e _ _
  have hnode : (e.atom text).nodes[e.nodes.length]? = some (.atom text) := getElem?_push e _ _
  refine ⟨⟨?_, h.stands.mono hext⟩, ?_, List.forall_mem_cons.mpr ⟨?_, h.sound⟩⟩
  · unfold Formula.atom
    split
    · next htext => rw [Stands, hnode, htext]
    · next htext => exact ⟨htext, hnode⟩
  · rw [Formula.bytesAll, h.bytes]
    unfold Formula.atom
    split
    · next htext =>
      rw [htext]
      exact Nat.add_comm _ _
    · exact Nat.add_comm _ _
  · unfold Formula.atom
    split
    · exact fun hne => absurd rfl hne
    · exact fun _ => .operand

theorem binaryToken_eq (token : Nat) : binaryToken token =
    (BinaryOperator.ofToken token).map fun operator => (operator.text, operator.precedence) := by
  rcases Nat.lt_or_ge token 18 with hlt | hge
  · interval_cases token <;> rfl
  · obtain ⟨more, rfl⟩ := Nat.exists_eq_add_of_le' hge
    rfl

theorem binary_refines (h : Holds e stack) (token : Nat) :
    Refines (e.apply (.binary token)) ((Op.binary token).build stack) := by
  obtain ⟨nodes, indices, arguments, bytes⟩ := e
  obtain ⟨hstands, hbytes, hsound⟩ := h
  match stack, indices, hstands with
  | [], [], _ => exact .error _
  | [_], [_], _ => exact .error _
  | right :: left :: stack, second :: first :: indices, ⟨hright, hleft, hrest⟩ =>
    rw [List.forall_mem_cons, List.forall_mem_cons] at hsound
    obtain ⟨hsoundRight, hsoundLeft, hsoundRest⟩ := hsound
    unfold Expression.apply Expression.binary Op.build
    dsimp only
    rw [hright.isMissing, hleft.isMissing, binaryToken_eq]
    split
    · exact .error _
    · next hpresent =>
      rw [Bool.not_eq_true, Bool.or_eq_false_iff] at hpresent
      cases BinaryOperator.ofToken token with
      | none => exact .error _
      | some operator =>
        have hext := extends_push ⟨nodes, indices, arguments, bytes⟩
          (.binary first second operator.text operator.precedence) (byteLength operator.text)
        have hext' : Extends ⟨nodes, second :: first :: indices, arguments, bytes⟩
          (Expression.push ⟨nodes, indices, arguments, bytes⟩
            (.binary first second operator.text operator.precedence) (byteLength operator.text)) :=
          ⟨hext.nodes, hext.arguments⟩
        refine .ok ⟨⟨⟨first, second, getElem?_push _ _ _, hleft.mono hext', hright.mono hext'⟩,
          hrest.mono hext'⟩, ?_, List.forall_mem_cons.mpr ⟨fun _ => .binary
            (sound_of_isMissing hsoundLeft hpresent.1)
            (sound_of_isMissing hsoundRight hpresent.2), hsoundRest⟩⟩
        simp only [Formula.bytesAll, Formula.bytes, Expression.push] at hbytes ⊢
        omega

theorem unaryToken_eq {token : Nat} {prefixText suffix : Text} {precedence : Nat}
    (h : unaryToken token = some (prefixText, suffix, precedence)) :
    ∃ wrap : Formula → Formula, Formula.unary token = some wrap ∧
      (∀ body, levels.Sound body → levels.Sound (wrap body)) ∧
      (∀ body, (wrap body).bytes =
        body.bytes + (byteLength prefixText + byteLength suffix + 2)) ∧
      ∀ (e : Expression) (body : Formula) (child index : Nat),
        e.nodes[index]? = some (.unary child prefixText suffix precedence) → Stands e body child →
        Stands e (wrap body) index := by
  unfold unaryToken at h
  split at h
  · obtain ⟨rfl, rfl, rfl⟩ : _ ∧ _ ∧ _ := by simpa using h
    refine ⟨_, rfl, fun _ => .sign (Or.inl rfl), fun _ => rfl, ?_⟩
    exact fun e body child index hnode hbody => ⟨child, hnode, hbody⟩
  · obtain ⟨rfl, rfl, rfl⟩ : _ ∧ _ ∧ _ := by simpa using h
    refine ⟨_, rfl, fun _ => .sign (Or.inr rfl), fun _ => rfl, ?_⟩
    exact fun e body child index hnode hbody => ⟨child, hnode, hbody⟩
  · obtain ⟨rfl, rfl, rfl⟩ : _ ∧ _ ∧ _ := by simpa using h
    refine ⟨_, rfl, fun _ => .suffix, fun _ => rfl, ?_⟩
    exact fun e body child index hnode hbody => ⟨child, hnode, hbody⟩
  · obtain ⟨rfl, rfl, rfl⟩ : _ ∧ _ ∧ _ := by simpa using h
    refine ⟨_, rfl, fun _ => .group, fun _ => rfl, ?_⟩
    exact fun e body child index hnode hbody => ⟨child, hnode, hbody⟩
  · cases h

theorem unaryToken_none {token : Nat} (h : unaryToken token = none) :
    Formula.unary token = none := by
  rcases Nat.lt_or_ge token 22 with hlt | hge
  · interval_cases token <;> first | rfl | cases h
  · obtain ⟨more, rfl⟩ := Nat.exists_eq_add_of_le' hge
    rfl

theorem unary_refines (h : Holds e stack) (token : Nat) :
    Refines (e.apply (.unary token)) ((Op.unary token).build stack) := by
  obtain ⟨nodes, indices, arguments, bytes⟩ := e
  obtain ⟨hstands, hbytes, hsound⟩ := h
  match stack, indices, hstands with
  | [], [], _ => exact .error _
  | operand :: stack, child :: indices, ⟨hoperand, hrest⟩ =>
    rw [List.forall_mem_cons] at hsound
    obtain ⟨hsoundOperand, hsoundRest⟩ := hsound
    unfold Expression.apply Expression.unary Op.build
    dsimp only
    rw [hoperand.isMissing]
    split
    · exact .error _
    · next hpresent =>
      rw [Bool.not_eq_true] at hpresent
      cases htoken : unaryToken token with
      | none =>
        rw [unaryToken_none htoken]
        exact .error _
      | some written =>
        obtain ⟨prefixText, suffix, precedence⟩ := written
        obtain ⟨wrap, hwrap, hwrapSound, hwrapBytes, hwrapStands⟩ := unaryToken_eq htoken
        rw [hwrap]
        have hext := extends_push ⟨nodes, indices, arguments, bytes⟩
          (.unary child prefixText suffix precedence) (byteLength prefixText + byteLength suffix)
        have hext' : Extends ⟨nodes, child :: indices, arguments, bytes⟩
          (Expression.push ⟨nodes, indices, arguments, bytes⟩ (.unary child prefixText suffix
            precedence) (byteLength prefixText + byteLength suffix)) :=
          ⟨hext.nodes, hext.arguments⟩
        refine .ok ⟨⟨hwrapStands _ _ child _ (getElem?_push _ _ _) (hoperand.mono hext'),
          hrest.mono hext'⟩, ?_, List.forall_mem_cons.mpr ⟨fun _ => hwrapSound _
            (sound_of_isMissing hsoundOperand hpresent), hsoundRest⟩⟩
        simp only [Formula.bytesAll, hwrapBytes, Expression.push] at hbytes ⊢
        omega

theorem call_refines (h : Holds e stack) (name : Text) (count : Nat) :
    Refines (e.apply (.call name count)) ((Op.call name count).build stack) := by
  obtain ⟨nodes, indices, arguments, bytes⟩ := e
  obtain ⟨hstands, hbytes, hsound⟩ := h
  unfold Expression.apply Expression.call Op.build
  dsimp only at hstands hbytes ⊢
  rw [← hstands.length_eq]
  split
  · exact .error _
  · next hcount =>
    obtain ⟨htake, hdrop⟩ := hstands.split count
    have hext : Extends ⟨nodes, indices, arguments, bytes⟩
        (Expression.push ⟨nodes, indices.drop count, arguments ++ (indices.take count).reverse, bytes⟩
          (.call name arguments.length (arguments ++ (indices.take count).reverse).length)
          (byteLength name + 2 + count)) :=
      ⟨List.prefix_append _ _, List.prefix_append _ _⟩
    refine .ok ⟨⟨⟨arguments.length, _, getElem?_push _ _ _, Nat.le_refl _, ?_⟩,
      hdrop.mono hext⟩, ?_, List.forall_mem_cons.mpr ⟨fun _ => .call fun argument hargument =>
        hsound argument (List.mem_of_mem_take (List.mem_reverse.mp hargument)),
        fun formula hformula => hsound formula (List.mem_of_mem_drop hformula)⟩⟩
    · have hslice : ((arguments ++ (indices.take count).reverse).drop arguments.length).take
          ((arguments ++ (indices.take count).reverse).length - arguments.length) =
            (indices.take count).reverse := by
        rw [List.drop_left, List.length_append, Nat.add_sub_cancel_left, List.take_length]
      exact Eq.subst (motive := fun slice => StandAll _ _ slice) hslice.symm
        (htake.mono hext).reverse
    · have hcut := bytesAll_append (stack.take count) (stack.drop count)
      rw [List.take_append_drop] at hcut
      have hlength : (stack.take count).length = count :=
        List.length_take_of_le (Nat.not_lt.mp hcount)
      simp only [Formula.bytesAll, Formula.bytes, bytesAll_reverse, List.length_reverse, hlength,
        Expression.push] at hbytes hcut ⊢
      omega

theorem apply_refines (h : Holds e stack) (op : Op) : Refines (e.apply op) (op.build stack) := by
  cases op with
  | atom text => exact .ok (atom_holds h text)
  | binary token => exact binary_refines h token
  | unary token => exact unary_refines h token
  | call name count => exact call_refines h name count

theorem holds_empty : Holds {} [] where
  stands := trivial
  bytes := rfl
  sound := List.forall_mem_nil _

theorem ops_refine (h : Holds e stack) (ops : List Op) :
    Refines (ops.foldlM Expression.apply e) (ops.foldlM Op.build stack) := by
  induction ops generalizing e stack with
  | nil => exact .ok h
  | cons op ops ih =>
    rw [List.foldlM_cons, List.foldlM_cons]
    have hop := apply_refines h op
    generalize e.apply op = x, op.build stack = y at hop
    cases hop with
    | ok h' => exact ih h'
    | error message => exact .error message

/-- **Arena.** The arena holds the trees that the operations build, or both refuse them alike. -/
theorem run_refines (ops : List Op) : Refines (Expression.run ops) (build ops) :=
  ops_refine holds_empty ops

end

end IntoMarkdown.Xls
