import IntoMarkdown.Drawio.Graph
import IntoMarkdown.Lib.Forest
import IntoMarkdown.Lib.Slots

/-! # Breaking cycles

A walk along parents ends at a root, at a settled cell, or on its own path; then the last link is
cut. What a walk has met is settled, and settled cells lead to settled cells. -/

namespace IntoMarkdown.Drawio
open Lib Strings Converters Relation Forest

/-- Why a graph may be refused, with the hierarchy too deep or not. -/
inductive Refusal {σ : Type} (runtime : Runtime σ) (deep : Prop) : Stop → Prop where
  | interrupted {world : σ} {error : Core.ConversionError}
    (h : runtime.checkpoint world = .error error) : Refusal runtime deep (.failed (.core error))
  | memory {world : σ} {bytes : Nat} {error : Core.ConversionError}
    (h : runtime.grow world bytes = .error error) : Refusal runtime deep (.failed (.core error))
  | diagnostics :
    Refusal runtime deep (limit "drawio_diagnostics" "Drawio diagnostic budget exceeded")
  | nesting (h : deep) :
    Refusal runtime deep
      (limit "max_nesting_depth" "Drawio group hierarchy exceeds request limit")

/-- The computation returns this, or there is a reason to refuse. -/
def Grants {σ α : Type} (runtime : Runtime σ) (deep : Prop) (x : Except Stop α) (Q : α → Prop) :
    Prop :=
  (∃ a, x = .ok a ∧ Q a) ∨ ∃ stop, x = .error stop ∧ Refusal runtime deep stop

/-- A chain of parents up to a cut link is longer than the limit. -/
def Deep (up : Nat → Option Nat) (most : Nat) : Prop :=
  ∃ up' cut n k, Cut up up' cut ∧ Climbs up' n k ∧ most < k

def cycleReport (locations : List SourceLocator) (n : Nat) : Diagnostic :=
  ⟨"drawio.parentCycle",
    "Cyclic parent relation detached in source order; original reference retained",
    locations.getD n {}⟩

def cycleReports {σ : Type} (out : Output σ) : List Diagnostic :=
  out.diagnostics.filter (·.code = "drawio.parentCycle")

namespace Marks

def up (marks : Marks) (n : Nat) : Option Nat := marks.parents.getD n none

def color (marks : Marks) (n : Nat) : Color := marks.colors.getD n .unseen

def depth (marks : Marks) (n : Nat) : Nat := marks.depths.getD n 0

end Marks

/-- A path, its last cell first, whose cells each have the next one met as parent. -/
def Leads (up : Nat → Option Nat) : Option Nat → List Nat → Prop
  | _, [] => True
  | next, n :: path => up n = next ∧ Leads up (some n) path

/-- Every list has a place for each cell. -/
structure Sized (up : Nat → Option Nat) (marks : Marks) : Prop where
  colors : marks.colors.length = marks.parents.length
  depths : marks.depths.length = marks.parents.length
  inside : ∀ n p, up n = some p → p < marks.parents.length

/-- Between two walks. -/
structure Settled (up : Nat → Option Nat) (most : Nat) (cut : List Nat) (marks : Marks) : Prop where
  sized : Sized up marks
  cuts : Cut up marks.up cut
  nodup : cut.Nodup
  cyclic : ∀ d ∈ cut, TransGen (Link up) d d
  apart : ∀ d ∈ cut, ∀ e ∈ cut, TransGen (Link up) d e → d = e
  cutDone : ∀ d ∈ cut, marks.color d = .done
  noPath : ∀ n, marks.color n ≠ .onPath
  closed : ∀ n p, marks.color n = .done → up n = some p → marks.color p = .done
  climbs : ∀ n, marks.color n = .done → Climbs marks.up n (marks.depth n)
  shallow : ∀ n, marks.color n = .done → marks.depth n ≤ most

/-- During a walk that began with other marks, and goes on at a cell or ends. -/
structure OnWay (up : Nat → Option Nat) (first : Marks) (next : Option Nat) (path : List Nat)
    (marks : Marks) : Prop where
  parents : marks.parents = first.parents
  depths : marks.depths = first.depths
  length : marks.colors.length = first.colors.length
  colors : ∀ n, marks.color n = if n ∈ path then .onPath else first.color n
  fresh : ∀ n ∈ path, first.color n = .unseen
  inside : ∀ n ∈ path, n < first.parents.length
  nodup : path.Nodup
  leads : Leads up next path

section
variable {σ α β : Type} {runtime : Runtime σ} {options : Options} {deep : Prop}
  {locations : List SourceLocator} {up : Nat → Option Nat} {most : Nat} {cut : List Nat}
  {first marks : Marks} {path : List Nat} {out : Output σ}

/-! ## Refusals -/

namespace Grants
variable {x : Except Stop α} {Q R : α → Prop}

theorem ok {a : α} (h : Q a) : Grants runtime deep (.ok a) Q := .inl ⟨a, rfl, h⟩

theorem mono (h : Grants runtime deep x Q) (himp : ∀ a, Q a → R a) : Grants runtime deep x R := by
  rcases h with ⟨a, rfl, ha⟩ | hstop
  · exact ok (himp a ha)
  · exact .inr hstop

theorem bind {f : α → Except Stop β} {S : β → Prop} (h : Grants runtime deep x Q)
    (hf : ∀ a, Q a → Grants runtime deep (f a) S) : Grants runtime deep (x >>= f) S := by
  rcases h with ⟨a, rfl, ha⟩ | ⟨stop, rfl, hstop⟩
  · exact hf a ha
  · exact .inr ⟨stop, rfl, hstop⟩

/-- A call of the context. -/
theorem call {x : Except Core.ConversionError α}
    (h : ∀ error, x = .error error → Refusal runtime deep (.failed (.core error))) :
    Grants runtime deep (x.mapError fun error => .failed (.core error)) fun _ => True := by
  cases x with
  | ok a => exact ok trivial
  | error e => exact .inr ⟨_, rfl, h e rfl⟩

/-- What a loop keeps. -/
theorem foldlM {f : β → α → Except Stop β} {I : β → Prop} {items : List α}
    (hf : ∀ b, ∀ a ∈ items, I b → Grants runtime deep (f b a) I) {b : β} (hb : I b) :
    Grants runtime deep (items.foldlM f b) I := by
  induction items generalizing b with
  | nil => exact ok hb
  | cons a items ih =>
    rw [List.foldlM_cons]
    refine (hf b a List.mem_cons_self hb).bind fun b' hb' => ?_
    exact ih (fun c d hd => hf c d (List.mem_cons_of_mem a hd)) hb'

end Grants

theorem checkpoint_granted (out : Output σ) :
    Grants runtime deep (out.checkpoint runtime) fun out' => out'.diagnostics = out.diagnostics :=
  (Grants.call fun _ => .interrupted).bind fun _ _ => Grants.ok rfl

theorem charge_granted (bytes : Nat) (out : Output σ) :
    Grants runtime deep (out.charge runtime bytes) fun out' =>
      out'.diagnostics = out.diagnostics := by
  refine (checkpoint_granted out).bind fun out' hout => ?_
  exact (Grants.call fun _ => .memory).bind fun _ _ => Grants.ok hout

/-- A defect is recorded where the policy is not the strict one. -/
theorem defect_granted (hpolicy : options.errorPolicy ≠ .strict) (code message : String)
    (locator : SourceLocator) (out : Output σ) :
    Grants runtime deep (out.defect runtime options code message locator) fun out' =>
      out'.diagnostics = out.diagnostics ++ [⟨code, message, locator⟩] := by
  rw [Output.defect, if_neg hpolicy, Output.warning]
  by_cases hfull : maxDocumentNodes options ≤ out.diagnostics.length
  · rw [refuse_of hfull]
    exact .inr ⟨_, rfl, .diagnostics⟩
  · rw [refuse_of_not hfull]
    refine (charge_granted _ out).bind fun out' hout => Grants.ok ?_
    rw [hout]

/-- Other defects are no cycles. -/
theorem other_defect_granted (hpolicy : options.errorPolicy ≠ .strict) {code : String}
    (hcode : code ≠ "drawio.parentCycle") (message : String) (locator : SourceLocator)
    (out : Output σ) : Grants runtime deep (out.defect runtime options code message locator)
      fun out' => cycleReports out' = cycleReports out := by
  refine (defect_granted hpolicy code message locator out).mono fun out' hout => ?_
  rw [cycleReports, hout, List.filter_append, List.filter_cons_of_neg (by simpa using hcode),
    List.filter_nil, List.append_nil]
  rfl

theorem defectIf_granted (hpolicy : options.errorPolicy ≠ .strict) (found : Bool) {code : String}
    (hcode : code ≠ "drawio.parentCycle") (message : String) (locator : SourceLocator)
    (out : Output σ) : Grants runtime deep (out.defectIf runtime options found code message locator)
      fun out' => cycleReports out' = cycleReports out := by
  cases found with
  | false => exact Grants.ok rfl
  | true => exact other_defect_granted hpolicy hcode message locator out

theorem cycleReports_of_eq {out' : Output σ} (h : out'.diagnostics = out.diagnostics) :
    cycleReports out' = cycleReports out := by
  rw [cycleReports, h]
  rfl

/-! ## Paths -/

theorem Leads.up_mem {next : Option Nat} (h : Leads up next path) {n p : Nat} (hn : n ∈ path)
    (hp : up n = some p) : some p = next ∨ p ∈ path := by
  induction path generalizing next with
  | nil => cases hn
  | cons m path ih =>
    obtain ⟨hm, hrest⟩ := h
    rcases List.mem_cons.mp hn with rfl | hn
    · exact .inl (hp.symm.trans hm)
    · rcases ih hrest hn with heq | hmem
      · exact .inr (Option.some.inj heq ▸ List.mem_cons_self)
      · exact .inr (List.mem_cons_of_mem m hmem)

theorem Leads.to_head {next : Option Nat} {last : Nat} (h : Leads up next (last :: path)) {n : Nat}
    (hn : n ∈ last :: path) : ReflTransGen (Link up) n last := by
  induction path generalizing next last with
  | nil => rw [List.mem_singleton.mp hn]
  | cons m path ih =>
    rcases List.mem_cons.mp hn with rfl | hn
    · exact .refl
    · exact (ih h.2 hn).tail h.2.1

theorem Leads.congr {up' : Nat → Option Nat} {next : Option Nat} (h : Leads up next path)
    (heq : ∀ n ∈ path, up' n = up n) : Leads up' next path := by
  induction path generalizing next with
  | nil => trivial
  | cons m path ih =>
    obtain ⟨hm, hrest⟩ := List.forall_mem_cons.mp heq
    exact ⟨hm.trans h.1, ih h.2 hrest⟩

/-! ## The walk up -/

theorem Settled.up_eq (h : Settled up most cut marks) {n : Nat} (hn : marks.color n ≠ .done) :
    marks.up n = up n :=
  h.cuts.not_mem n fun hmem => hn (h.cutDone n hmem)

theorem OnWay.color_of_mem (h : OnWay up first (some n) path marks) {m : Nat} (hm : m ∈ path) :
    marks.color m = .onPath := by
  rw [h.colors, if_pos hm]

theorem OnWay.color_of_not_mem {next : Option Nat} (h : OnWay up first next path marks) {m : Nat}
    (hm : m ∉ path) : marks.color m = first.color m := by
  rw [h.colors, if_neg hm]

theorem OnWay.push (hfirst : Settled up most cut first) {n : Nat}
    (h : OnWay up first (some n) path marks) (hn : n < first.parents.length)
    (hcolor : marks.color n = .unseen) :
    OnWay up first (marks.parents.getD n none) (n :: path)
      { marks with colors := marks.colors.set n .onPath } := by
  have hmem : n ∉ path := by
    intro hmem
    rw [h.color_of_mem hmem] at hcolor
    cases hcolor
  have hfresh : first.color n = .unseen := (h.color_of_not_mem hmem).symm.trans hcolor
  have hlength : n < marks.colors.length := by
    rw [h.length, hfirst.sized.colors]
    exact hn
  refine ⟨h.parents, h.depths, List.length_set.trans h.length, fun m => ?_,
    List.forall_mem_cons.mpr ⟨hfresh, h.fresh⟩, List.forall_mem_cons.mpr ⟨hn, h.inside⟩,
    List.nodup_cons.mpr ⟨hmem, h.nodup⟩, ?_, h.leads⟩
  · rw [Marks.color, Slots.getD_set hlength]
    by_cases hm : m = n
    · rw [if_pos hm, if_pos (hm ▸ List.mem_cons_self)]
    · have hiff : m ∈ n :: path ↔ m ∈ path := by rw [List.mem_cons, or_iff_right hm]
      rw [if_neg hm]
      simp only [hiff]
      exact h.colors m
  · rw [h.parents]
    exact (hfirst.up_eq (by rw [hfresh]; exact fun heq => by cases heq)).symm

/-- Where a walk has ended: at a root or a settled cell, or with a link cut. -/
structure Landed (up : Nat → Option Nat) (first : Marks) (locations : List SourceLocator)
    (reports : List Diagnostic) (i : Nat) (cut : List Nat)
    (result : List Nat × Marks × Output σ) : Prop where
  start : i ∈ result.1
  lands : (∃ next, OnWay up first next result.1 result.2.1 ∧
      (∀ p, next = some p → first.color p = .done) ∧ cycleReports result.2.2 = reports ∧
      cut = []) ∨
    ∃ last rest p marks, result.1 = last :: rest ∧ OnWay up first (some p) result.1 marks ∧
      p ∈ result.1 ∧ result.2.1 = { marks with parents := marks.parents.set last none } ∧
      cycleReports result.2.2 = reports ++ [cycleReport locations last] ∧ cut = [last]

theorem count_unseen_set {n : Nat} (hn : n < marks.colors.length)
    (hcolor : marks.color n = .unseen) :
    (marks.colors.set n .onPath).count .unseen + 1 = marks.colors.count .unseen := by
  have hget : marks.colors[n] = .unseen := by
    rw [← hcolor, Marks.color, List.getD_eq_getElem?_getD, List.getElem?_eq_getElem hn,
      Option.getD_some]
  have hpos : 0 < marks.colors.count .unseen :=
    List.count_pos_iff.mpr (hget ▸ List.getElem_mem hn)
  rw [List.count_set hn, hget]
  simp only [beq_self_eq_true, if_true]
  have hne : (Color.onPath == Color.unseen) = false := rfl
  rw [hne]
  simp only [Bool.false_eq_true, if_false]
  omega

theorem follow_granted (hpolicy : options.errorPolicy ≠ .strict)
    (hfirst : Settled up most cut first) {i fuel : Nat} {next : Option Nat}
    (h : OnWay up first next path marks) (hnext : ∀ n, next = some n → n < first.parents.length)
    (hstart : i ∈ path ∨ path = [] ∧ next = some i ∧ first.color i = .unseen)
    (hfuel : marks.colors.count .unseen < fuel) :
    Grants runtime deep (follow runtime options locations fuel next path marks out)
      fun result => ∃ cut, Landed up first locations (cycleReports out) i cut result := by
  induction fuel generalizing next path marks out with
  | zero => exact absurd hfuel (Nat.not_lt_zero _)
  | succ fuel ih =>
    cases next with
    | none =>
      rw [follow]
      have hmem : i ∈ path := hstart.resolve_right fun hnil => by cases hnil.2.1
      exact Grants.ok ⟨[], hmem, .inl ⟨none, h, fun p hp => (by cases hp), rfl, rfl⟩⟩
    | some n =>
      rw [follow]
      refine (checkpoint_granted out).bind fun out' hout => ?_
      have hreports := cycleReports_of_eq hout
      cases hcolor : marks.colors.getD n .unseen with
      | done =>
        have hn : n ∉ path := by
          intro hn
          have honPath := h.color_of_mem hn
          rw [Marks.color, hcolor] at honPath
          cases honPath
        have hdone : first.color n = .done := (h.color_of_not_mem hn).symm.trans hcolor
        have hmem : i ∈ path := by
          refine hstart.resolve_right fun hnil => ?_
          rw [Option.some.inj hnil.2.1, hnil.2.2] at hdone
          cases hdone
        refine Grants.ok ⟨[], hmem, .inl ⟨some n, h, fun p hp => ?_, hreports, rfl⟩⟩
        exact Option.some.inj hp ▸ hdone
      | onPath =>
        have hn : n ∈ path := by
          by_contra hn
          exact hfirst.noPath n ((h.color_of_not_mem hn).symm.trans hcolor)
        have hmem : i ∈ path := hstart.resolve_right fun hnil => by
          rw [hnil.1] at hn
          cases hn
        cases path with
        | nil => cases hn
        | cons last rest =>
          refine (defect_granted hpolicy _ _ _ out').bind fun out'' hout'' => ?_
          refine Grants.ok ⟨[last], hmem, .inr ⟨last, rest, n, marks, rfl, h, hn, rfl, ?_, rfl⟩⟩
          rw [← hreports, cycleReports, hout'', List.filter_append]
          rfl
      | unseen =>
        have hpush := h.push hfirst (hnext n rfl) hcolor
        have hlength : n < marks.colors.length := by
          rw [h.length, hfirst.sized.colors]
          exact hnext n rfl
        have hparent : marks.parents.getD n none = up n := by
          rw [h.parents]
          refine hfirst.up_eq fun hdone => ?_
          have hseen := h.colors n
          rw [Marks.color, hcolor, hdone] at hseen
          split at hseen <;> cases hseen
        rw [← hreports]
        refine ih hpush (fun p hp => hfirst.sized.inside n p (hparent.symm.trans hp)) (.inl ?_) ?_
        · rcases hstart with hmem | ⟨-, hi, -⟩
          · exact List.mem_cons_of_mem n hmem
          · exact Option.some.inj hi ▸ List.mem_cons_self
        · have hcount := count_unseen_set hlength hcolor
          dsimp only
          omega

/-! ## Settling -/

/-- What settles a path: its first cell is a root or below a settled cell, and settled cells
have their depths. -/
structure Settling (most : Nat) (path : List Nat) (marks : Marks) : Prop where
  inside : ∀ n ∈ path, n < marks.colors.length ∧ n < marks.depths.length
  nodup : path.Nodup
  fresh : ∀ n ∈ path, marks.color n ≠ .done
  leads : ∃ next, Leads marks.up next path ∧ ∀ p, next = some p → marks.color p = .done
  climbs : ∀ n, marks.color n = .done → Climbs marks.up n (marks.depth n)
  shallow : ∀ n, marks.color n = .done → marks.depth n ≤ most

theorem settle_granted (hcut : Cut up marks.up cut)
    (h : Settling options.maxNestingDepth path marks) :
    Grants runtime (Deep up options.maxNestingDepth) (settle options path marks) fun marks' =>
      marks'.parents = marks.parents ∧ marks'.colors.length = marks.colors.length ∧
      marks'.depths.length = marks.depths.length ∧
      (∀ n, marks'.color n = if n ∈ path then .done else marks.color n) ∧
      (∀ n, marks'.color n = .done → Climbs marks.up n (marks'.depth n)) ∧
      ∀ n, marks'.color n = .done → marks'.depth n ≤ options.maxNestingDepth := by
  induction path generalizing marks with
  | nil => exact Grants.ok ⟨rfl, rfl, rfl, fun n => (if_neg List.not_mem_nil).symm, h.climbs, h.shallow⟩
  | cons n path ih =>
    obtain ⟨hcolors, hdepths⟩ := (List.forall_mem_cons.mp h.inside).1
    obtain ⟨hmem, hnodup⟩ := List.nodup_cons.mp h.nodup
    obtain ⟨hfresh, hrest⟩ := List.forall_mem_cons.mp h.fresh
    obtain ⟨next, ⟨hup, hleads⟩, hnext⟩ := h.leads
    rw [settle]
    generalize hdepth : (marks.parents.getD n none).elim 0
      (fun p => marks.depths.getD p 0 + 1) = depth
    have hclimbs : Climbs marks.up n depth := by
      have hparent : marks.parents.getD n none = next := hup
      rw [hparent] at hdepth
      cases next with
      | none => exact hdepth ▸ .root hup
      | some p => exact hdepth ▸ .step hup (h.climbs p (hnext p rfl))
    dsimp only
    by_cases hdeep : options.maxNestingDepth < depth
    · rw [refuse_of hdeep]
      exact .inr ⟨_, rfl, .nesting ⟨marks.up, cut, n, depth, hcut, hclimbs, hdeep⟩⟩
    · rw [refuse_of_not hdeep]
      set settled : Marks :=
        ⟨marks.colors.set n .done, marks.parents, marks.depths.set n depth⟩ with hsettled
      have hcolor : ∀ m, settled.color m = if m = n then .done else marks.color m :=
        fun m => Slots.getD_set hcolors _
      have hheight : ∀ m, settled.depth m = if m = n then depth else marks.depth m :=
        fun m => Slots.getD_set hdepths _
      have hdone : ∀ m, settled.color m = .done → m = n ∨ m ≠ n ∧ marks.color m = .done := by
        intro m hm
        rw [hcolor] at hm
        by_cases heq : m = n
        · exact .inl heq
        · rw [if_neg heq] at hm
          exact .inr ⟨heq, hm⟩
      have hsettling : Settling options.maxNestingDepth path settled := by
        refine ⟨fun m hm => ?_, hnodup, fun m hm => ?_, ⟨some n, hleads, fun p hp => ?_⟩,
          fun m hm => ?_, fun m hm => ?_⟩
        · rw [hsettled, List.length_set, List.length_set]
          exact h.inside m (List.mem_cons_of_mem n hm)
        · rw [hcolor, if_neg (ne_of_mem_of_not_mem hm hmem)]
          exact hrest m hm
        · rw [hcolor, if_pos (Option.some.inj hp).symm]
        · rcases hdone m hm with rfl | ⟨hne, hm⟩
          · rw [hheight, if_pos rfl]
            exact hclimbs
          · rw [hheight, if_neg hne]
            exact h.climbs m hm
        · rcases hdone m hm with rfl | ⟨hne, hm⟩
          · rw [hheight, if_pos rfl]
            exact Nat.not_lt.mp hdeep
          · rw [hheight, if_neg hne]
            exact h.shallow m hm
      refine (ih (show Cut up settled.up cut from hcut) hsettling).mono fun marks' hmarks' => ?_
      obtain ⟨hparents, hcolors', hdepths', hcolor', hrest'⟩ := hmarks'
      refine ⟨hparents, hcolors'.trans List.length_set, hdepths'.trans List.length_set,
        fun m => ?_, hrest'⟩
      rw [hcolor', hcolor]
      simp only [List.mem_cons]
      by_cases heq : m = n
      · simp [heq]
      · simp only [heq, false_or, if_false]

/-! ## One walk, and all -/

theorem onWay_nil (next : Option Nat) : OnWay up first next [] first :=
  ⟨rfl, rfl, rfl, fun _ => (if_neg List.not_mem_nil).symm, List.forall_mem_nil _,
    List.forall_mem_nil _, .nil, trivial⟩

theorem OnWay.settling (hfirst : Settled up most cut first) {next next' : Option Nat}
    (h : OnWay up first next path marks) {parents : Parents}
    (hleads : Leads (fun n => parents.getD n none) next' path)
    (hnext : ∀ p, next' = some p → first.color p = .done)
    (hkept : ∀ n, first.color n = .done → parents.getD n none = first.up n) :
    Settling most path { marks with parents := parents } := by
  have hcolor : ∀ n, first.color n = .done → marks.color n = .done := by
    intro n hn
    have hmem : n ∉ path := by
      intro hmem
      rw [h.fresh n hmem] at hn
      cases hn
    rw [h.colors, if_neg hmem, hn]
  have hdone : ∀ n, marks.color n = .done → first.color n = .done := by
    intro n hn
    rw [h.colors] at hn
    split at hn
    · cases hn
    · exact hn
  have hclimbs : ∀ n, first.color n = .done →
      Climbs (fun n => parents.getD n none) n (first.depth n) := by
    intro n hn
    induction hk : first.depth n using Nat.strong_induction_on generalizing n with
    | _ k ih =>
      have hclimb := hfirst.climbs n hn
      rw [hk] at hclimb
      cases hclimb with
      | root hnone => exact .root ((hkept n hn).trans hnone)
      | @step _ p j hsome hp =>
        have hpdone := hfirst.closed n p hn (hfirst.cuts.link hsome)
        have hj : first.depth p = j := (hfirst.climbs p hpdone).unique hp
        exact .step ((hkept n hn).trans hsome) (hj ▸ ih _ (by omega) p hpdone rfl)
  refine ⟨fun n hn => ?_, h.nodup, fun n hn => ?_, ⟨next', hleads, fun p hp =>
    hcolor p (hnext p hp)⟩, fun n hn => ?_, fun n hn => ?_⟩
  · rw [h.length, h.depths, hfirst.sized.colors, hfirst.sized.depths]
    exact ⟨h.inside n hn, h.inside n hn⟩
  · change marks.color n ≠ .done
    rw [h.colors, if_pos hn]
    exact fun heq => by cases heq
  · have hdepth : marks.depths.getD n 0 = first.depth n := by rw [h.depths, Marks.depth]
    change Climbs _ n (marks.depths.getD n 0)
    rw [hdepth]
    exact hclimbs n (hdone n hn)
  · change marks.depths.getD n 0 ≤ most
    rw [h.depths]
    exact hfirst.shallow n (hdone n hn)

theorem OnWay.up_eq (hfirst : Settled up most cut first) {next : Option Nat}
    (h : OnWay up first next path marks) {n : Nat} (hn : n ∈ path) : first.up n = up n := by
  refine hfirst.up_eq fun hdone => ?_
  rw [h.fresh n hn] at hdone
  cases hdone

/-- A walk that ends where nothing is cut, or with a link cut, can be settled. -/
theorem Landed.settling (hfirst : Settled up most cut first) {reports : List Diagnostic} {i : Nat}
    {new : List Nat} {result : List Nat × Marks × Output σ}
    (h : Landed up first locations reports i new result) :
    Settling most result.1 result.2.1 ∧ Cut up result.2.1.up (new ++ cut) ∧
      result.2.1.parents.length = first.parents.length ∧
      result.2.1.colors.length = first.colors.length ∧
      result.2.1.depths.length = first.depths.length ∧
      (∀ n, result.2.1.color n = if n ∈ result.1 then .onPath else first.color n) ∧
      (∀ n ∈ result.1, first.color n = .unseen) ∧
      (∀ n ∈ result.1, ∀ p, up n = some p → p ∈ result.1 ∨ first.color p = .done) ∧
      cycleReports result.2.2 = reports ++ new.reverse.map (cycleReport locations) ∧
      ∀ d ∈ new, d ∈ result.1 ∧ new = [d] ∧ TransGen (Link up) d d := by
  obtain ⟨path, marks', out'⟩ := result
  rcases h.lands with ⟨next, hway, hdone, hreports, rfl⟩ |
    ⟨last, rest, p, marks, rfl, hway, hp, rfl, hreports, rfl⟩
  · have hleads : Leads marks'.up next path := by
      refine hway.leads.congr fun n hn => ?_
      rw [Marks.up, hway.parents]
      exact hway.up_eq hfirst hn
    refine ⟨hway.settling hfirst hleads hdone fun n _ => ?_,
      ?_, congrArg List.length hway.parents, hway.length, congrArg List.length hway.depths,
      hway.colors, hway.fresh, fun n hn p hp => ?_, ?_, List.forall_mem_nil _⟩
    · rw [hway.parents]
      rfl
    · rw [show marks'.up = first.up by funext n; rw [Marks.up, hway.parents]; rfl]
      exact hfirst.cuts
    · rcases hway.leads.up_mem hn hp with heq | hmem
      · exact .inr (hdone p heq.symm)
      · exact .inl hmem
    · rw [hreports, List.reverse_nil, List.map_nil, List.append_nil]
  · have hlast : last < first.parents.length := hway.inside last List.mem_cons_self
    have hset : ∀ n, (marks.parents.set last none).getD n none =
        if n = last then none else first.up n := by
      intro n
      rw [Slots.getD_set (by rw [hway.parents]; exact hlast), hway.parents]
      rfl
    have hrest : last ∉ rest := (List.nodup_cons.mp hway.nodup).1
    have hlength : (marks.parents.set last none).length = first.parents.length := by
      rw [List.length_set, hway.parents]
    have hleads : Leads (fun n => (marks.parents.set last none).getD n none) none
        (last :: rest) := by
      refine ⟨(hset last).trans (if_pos rfl), hway.leads.2.congr fun n hn => ?_⟩
      rw [hset, if_neg (ne_of_mem_of_not_mem hn hrest)]
      exact hway.up_eq hfirst (List.mem_cons_of_mem last hn)
    refine ⟨hway.settling hfirst hleads (fun p hp => by cases hp) fun n hn => ?_,
      ⟨fun n hn => ?_, fun n hn => ?_⟩, hlength, hway.length, congrArg List.length hway.depths,
      hway.colors, hway.fresh, fun n hn q hq => ?_, hreports, fun d hd => ?_⟩
    · rw [hset, if_neg]
      rintro rfl
      rw [hway.fresh n List.mem_cons_self] at hn
      cases hn
    · rw [Marks.up, hset]
      split
      · rfl
      · next hne => exact hfirst.cuts.mem n ((List.mem_cons.mp hn).resolve_left hne)
    · obtain ⟨hne, hmem⟩ := not_or.mp (mt List.mem_cons.mpr hn)
      rw [Marks.up, hset, if_neg hne]
      exact hfirst.cuts.not_mem n hmem
    · rcases hway.leads.up_mem hn hq with heq | hmem
      · exact .inl (Option.some.inj heq ▸ hp)
      · exact .inl hmem
    · obtain rfl := List.mem_singleton.mp hd
      exact ⟨List.mem_cons_self, rfl, TransGen.head' hway.leads.1 (hway.leads.to_head hp)⟩

theorem Link.closed (h : Settled up most cut first) {n m : Nat} (hn : first.color n = .done)
    (hlinks : TransGen (Link up) n m) : first.color m = .done := by
  induction hlinks with
  | single hlink => exact h.closed n _ hn hlink
  | tail _ hlink ih => exact h.closed _ _ ih hlink

/-- One turn of the loop: what it cuts is reported. -/
theorem breakCycle_granted (hpolicy : options.errorPolicy ≠ .strict) {i : Nat}
    (h : Settled up options.maxNestingDepth cut first) (hi : i < first.parents.length)
    (out : Output σ) :
    Grants runtime (Deep up options.maxNestingDepth)
      (breakCycle runtime options locations i first out) fun result => ∃ new,
        Settled up options.maxNestingDepth (new ++ cut) result.1 ∧ result.1.color i = .done ∧
        (∀ n, first.color n = .done → result.1.color n = .done) ∧
        result.1.parents.length = first.parents.length ∧
        cycleReports result.2 = cycleReports out ++ new.reverse.map (cycleReport locations) := by
  rw [breakCycle]
  refine (checkpoint_granted out).bind fun out' hout => ?_
  have hreports := cycleReports_of_eq hout
  by_cases hdone : first.colors.getD i .unseen = .done
  · rw [if_pos hdone]
    exact Grants.ok ⟨[], h, hdone, fun n hn => hn, rfl, by simpa using hreports⟩
  · rw [if_neg hdone]
    have hunseen : first.color i = .unseen := by
      cases hcolor : first.color i with
      | unseen => rfl
      | onPath => exact absurd hcolor (h.noPath i)
      | done => exact absurd hcolor hdone
    have hfuel : first.colors.count .unseen < first.parents.length + 1 := by
      rw [← h.sized.colors]
      exact Nat.lt_succ_of_le List.count_le_length
    refine (follow_granted hpolicy h (onWay_nil (some i)) (fun n hn => Option.some.inj hn ▸ hi)
      (.inr ⟨rfl, rfl, hunseen⟩) hfuel).bind fun result hlanded => ?_
    obtain ⟨new, hlanded⟩ := hlanded
    obtain ⟨hsettling, hcut, hparents, hcolors, hdepths, hcolor, hfresh, hclosed, hnewReports,
      hnew⟩ := hlanded.settling h
    refine (settle_granted hcut hsettling).bind fun marks' hmarks' => Grants.ok ?_
    obtain ⟨hparents', hcolors', hdepths', hcolor', hclimbs', hshallow'⟩ := hmarks'
    have hup : marks'.up = result.2.1.up := by
      funext n
      rw [Marks.up, hparents']
      rfl
    have hall : ∀ n, marks'.color n = if n ∈ result.1 then .done else first.color n := by
      intro n
      rw [hcolor', hcolor]
      by_cases hmem : n ∈ result.1
      · rw [if_pos hmem, if_pos hmem]
      · rw [if_neg hmem, if_neg hmem, if_neg hmem]
    have hkept : ∀ n, first.color n = .done → marks'.color n = .done := by
      intro n hn
      rw [hall, hn]
      split <;> rfl
    have hdone_iff : ∀ n, marks'.color n = .done → n ∈ result.1 ∨ first.color n = .done := by
      intro n hn
      rw [hall] at hn
      by_cases hmem : n ∈ result.1
      · exact .inl hmem
      · rw [if_neg hmem] at hn
        exact .inr hn
    have hpath : ∀ n ∈ result.1, marks'.color n = .done := fun n hn => by rw [hall, if_pos hn]
    -- A cut cell was met for the first time, so no cell that was cut before is on its cycle.
    have hold : ∀ d ∈ new, ∀ e, first.color e = .done → ¬ TransGen (Link up) e d := by
      intro d hd e he hlinks
      have hseen := Link.closed h he hlinks
      rw [hfresh d (hnew d hd).1] at hseen
      cases hseen
    refine ⟨new, ⟨⟨?_, ?_, fun n p hp => ?_⟩, hup ▸ hcut, ?_, fun d hd => ?_,
      fun d hd e he hlinks => ?_, fun d hd => ?_, fun n => ?_, fun n p hn hp => ?_,
      fun n hn => hup ▸ hclimbs' n hn, hshallow'⟩, hpath i hlanded.start, hkept,
      (congrArg List.length hparents').trans hparents, hnewReports.trans (by rw [hreports])⟩
    · rw [hcolors', hcolors, hparents', hparents, h.sized.colors]
    · rw [hdepths', hdepths, hparents', hparents, h.sized.depths]
    · rw [hparents', hparents]
      exact h.sized.inside n p hp
    · refine List.nodup_append'.mpr ⟨?_, h.nodup, fun d hd hmem => ?_⟩
      · cases new with
        | nil => exact .nil
        | cons d rest =>
          rw [(hnew d List.mem_cons_self).2.1]
          exact List.nodup_singleton d
      · have hseen := h.cutDone d hmem
        rw [hfresh d (hnew d hd).1] at hseen
        cases hseen
    · rcases List.mem_append.mp hd with hd | hd
      · exact (hnew d hd).2.2
      · exact h.cyclic d hd
    · rcases List.mem_append.mp hd with hd | hd <;> rcases List.mem_append.mp he with he | he
      · rw [(hnew d hd).2.1] at he
        exact (List.mem_singleton.mp he).symm
      · exact absurd (transGen_back (hnew d hd).2.2 hlinks) (hold d hd e (h.cutDone e he))
      · exact absurd hlinks (hold e he d (h.cutDone d hd))
      · exact h.apart d hd e he hlinks
    · rcases List.mem_append.mp hd with hd | hd
      · exact hpath d (hnew d hd).1
      · exact hkept d (h.cutDone d hd)
    · rw [hall]
      split
      · exact fun heq => by cases heq
      · exact h.noPath n
    · rcases hdone_iff n hn with hmem | hmem
      · rcases hclosed n hmem p hp with hp | hp
        · exact hpath p hp
        · exact hkept p hp
      · exact hkept p (h.closed n p hmem hp)

theorem breakEach_granted (hpolicy : options.errorPolicy ≠ .strict) {items : List Nat}
    (h : Settled up options.maxNestingDepth cut first) (hitems : ∀ i ∈ items, i < first.parents.length)
    (out : Output σ) :
    Grants runtime (Deep up options.maxNestingDepth)
      (items.foldlM (fun state i => breakCycle runtime options locations i state.1 state.2)
        (first, out)) fun result => ∃ new,
        Settled up options.maxNestingDepth (new ++ cut) result.1 ∧
        (∀ i ∈ items, result.1.color i = .done) ∧
        (∀ n, first.color n = .done → result.1.color n = .done) ∧
        result.1.parents.length = first.parents.length ∧
        cycleReports result.2 = cycleReports out ++ new.reverse.map (cycleReport locations) := by
  induction items generalizing first out cut with
  | nil =>
    exact Grants.ok ⟨[], h, List.forall_mem_nil _, fun _ hn => hn, rfl, (List.append_nil _).symm⟩
  | cons i items ih =>
    obtain ⟨hi, hrest⟩ := List.forall_mem_cons.mp hitems
    rw [List.foldlM_cons]
    refine (breakCycle_granted hpolicy h hi out).bind fun state hstate => ?_
    obtain ⟨new, hsettled, hdone, hkept, hlength, hreports⟩ := hstate
    refine (ih hsettled (fun j hj => hlength ▸ hrest j hj) state.2).mono fun result hresult => ?_
    obtain ⟨later, hsettled', hdone', hkept', hlength', hreports'⟩ := hresult
    refine ⟨later ++ new, (List.append_assoc later new cut).symm ▸ hsettled',
      List.forall_mem_cons.mpr ⟨hkept' i hdone, hdone'⟩, fun n hn => hkept' n (hkept n hn),
      hlength'.trans hlength, ?_⟩
    rw [hreports', hreports, List.reverse_append, List.map_append, List.append_assoc]

/-- Breaking cycles cuts one link on each, reports it, and leaves chains that end. -/
theorem breakCycles_granted (hpolicy : options.errorPolicy ≠ .strict) {parents : Parents}
    (hinside : ∀ n p, parents.getD n none = some p → p < parents.length) (out : Output σ) :
    Grants runtime (Deep (fun n => parents.getD n none) options.maxNestingDepth)
      (breakCycles runtime options locations parents out) fun result => ∃ cut,
        Cut (fun n => parents.getD n none) result.1.up cut ∧
        OnePerCycle (fun n => parents.getD n none) cut ∧
        cycleReports result.2 = cycleReports out ++ cut.map (cycleReport locations) ∧
        result.1.parents.length = parents.length ∧
        ∀ n < parents.length, Climbs result.1.up n (result.1.depth n) ∧
          result.1.depth n ≤ options.maxNestingDepth := by
  have hcolor : ∀ n, (parents.map fun _ => Color.unseen).getD n .unseen = .unseen := by
    intro n
    rw [List.getD_eq_getElem?_getD, List.getElem?_map]
    cases parents[n]? <;> rfl
  have hstart : Settled (fun n => parents.getD n none) options.maxNestingDepth []
      ⟨parents.map fun _ => .unseen, parents, parents.map fun _ => 0⟩ := by
    have hunseen : ∀ n, (parents.map fun _ => Color.unseen).getD n .unseen ≠ .done := by
      intro n
      rw [hcolor]
      exact fun h => by cases h
    refine ⟨⟨List.length_map _, List.length_map _, hinside⟩,
      ⟨List.forall_mem_nil _, fun _ _ => rfl⟩, .nil, List.forall_mem_nil _, List.forall_mem_nil _,
      List.forall_mem_nil _, fun n h => ?_, fun n _ h => absurd h (hunseen n),
      fun n h => absurd h (hunseen n), fun n h => absurd h (hunseen n)⟩
    rw [Marks.color, hcolor] at h
    cases h
  refine (breakEach_granted hpolicy hstart (fun i hi => List.mem_range.mp hi) out).mono
    fun result hresult => ?_
  obtain ⟨new, hsettled, hdone, -, hlength, hreports⟩ := hresult
  rw [List.append_nil] at hsettled
  have hall : ∀ n < parents.length, result.1.color n = .done :=
    fun n hn => hdone n (List.mem_range.mpr hn)
  refine ⟨new.reverse, ⟨fun n hn => hsettled.cuts.mem n (List.mem_reverse.mp hn),
    fun n hn => hsettled.cuts.not_mem n (mt List.mem_reverse.mpr hn)⟩, ?_, hreports, hlength,
    fun n hn => ⟨hsettled.climbs n (hall n hn), hsettled.shallow n (hall n hn)⟩⟩
  have hcut := hsettled.cuts.onePerCycle hsettled.nodup hsettled.cyclic hsettled.apart
    fun n hcycle => ?_
  · refine ⟨List.nodup_reverse.mpr hcut.nodup, fun n hn => hcut.cyclic n (List.mem_reverse.mp hn),
      fun n hcycle => ?_⟩
    simp only [List.mem_reverse]
    exact hcut.cycle n hcycle
  · have hn : n < parents.length := by
      obtain ⟨m, -, hlink⟩ := TransGen.tail'_iff.mp hcycle
      exact hinside m n hlink
    exact ⟨_, hsettled.climbs n (hall n hn)⟩

end

end IntoMarkdown.Drawio
