import IntoMarkdown.Lib.Erasure
import IntoMarkdown.Sheet.SheetIndex

/-! # The scan without a consumer

The index of a worksheet is made by the scan that delivers nothing. It goes as the scan that
delivers, but for the tokens. -/

namespace IntoMarkdown.Sheet
open Lib Strings

def SheetState.plain (state : SheetState) : SheetState := { state with tokens := [] }

def Scan.plain (scan : Scan) : Scan := { scan with state := scan.state.plain }

/-- A consumer that takes every token. -/
def Total (consumer : Option Consumer) : Prop :=
  ∀ accept ∈ consumer, ∀ tokens token, accept tokens token = .ok ()

section
variable (part : String) (options : Options) (consumer : Option Consumer)

abbrev ErasesTokens (x y : Except ConversionError SheetState) : Prop :=
  Erases (Total consumer) SheetState.plain x y

theorem deliver_erases (token : CellToken) (state : SheetState) :
    ErasesTokens consumer (deliver consumer token state) (deliver none token state.plain) := by
  cases consumer with
  | none => exact .ok state
  | some accept =>
    constructor
    · intro state' h
      obtain ⟨-, -, h⟩ := ok_bind h
      cases h
      rfl
    · rintro htotal state' h
      refine ⟨{ state with tokens := state.tokens ++ [token] }, ?_, Except.ok.inj h⟩
      exact bind_ok_iff.mpr ⟨(), htotal accept rfl _ _, rfl⟩

theorem finishFormula_erases {Total : Prop} (coordinate : CellCoordinate) (cached : Bool)
    (cell : CurrentCell) (state : SheetState) :
    Erases Total (fun done : Bool × CurrentCell × SheetState => (done.1, done.2.1, done.2.2.plain))
      (finishFormula part options coordinate cached cell state)
      (finishFormula part options coordinate cached cell state.plain) := by
  unfold finishFormula
  split
  · split
    · exact .error _ _
    · exact .bind_same fun _ => .ok (false, cell, state)
  · split
    · split
      · exact .error _ _
      · rename_i index _
        split
        · refine .bind_same fun _ => ?_
          have hplain : state.plain.sharedFormulas = state.sharedFormulas := rfl
          rw [hplain]
          cases state.sharedFormulas.lookup index with
          | none => exact .bind_same fun _ => .ok (_, cell, _)
          | some shared => exact .bind_same fun _ => .ok (false, _, state)
        · unfold anchorFormula
          split
          · exact .error _ _
          · exact .bind_same fun _ => .ok (false, cell, _)
    · split
      · exact .error _ _
      · exact .ok (false, cell, state)

theorem finishCell_erases (state : SheetState) :
    ErasesTokens consumer (finishCell part options consumer state)
      (finishCell part options none state.plain) := by
  unfold finishCell
  have hplain : state.plain.currentCell = state.currentCell := rfl
  rw [hplain]
  cases state.currentCell.coordinate with
  | none => exact .error _ _
  | some coordinate =>
    refine .bind_same fun _ => .bind_same fun value => ?_
    refine (finishFormula_erases part options coordinate _ _ _).bind fun done => ?_
    dsimp only
    split
    · exact deliver_erases consumer _ _
    · exact .ok _

theorem finish_erases (state : SheetState) :
    ErasesTokens consumer (finish part options consumer state)
      (finish part options none state.plain) :=
  .bind_same fun _ => (finishCell_erases part options consumer state).bind fun _ => .ok _

theorem startCell_erases (element : Element) (empty : Bool) (state : SheetState) :
    ErasesTokens consumer (startCell part options consumer element empty state)
      (startCell part options none element empty state.plain) := by
  obtain ⟨layout, currentRow, nextRow, nextColumn, last, cell, shared, inCell, tokens⟩ := state
  cases currentRow with
  | none => exact .error _ _
  | some row =>
    refine .bind_same fun _ => .bind_same fun coordinate => .bind_same fun _ =>
      .bind_same fun _ => .bind_same fun layout => ?_
    cases empty with
    | true => exact finish_erases part options consumer _
    | false => exact .ok _

theorem start_erases (element : Element) (empty : Bool) (state : SheetState) :
    ErasesTokens consumer (start part options consumer element empty state)
      (start part options none element empty state.plain) := by
  unfold start
  split
  · refine .bind_same fun reference => ?_
    cases reference with
    | none => exact .ok _
    | some reference => exact .bind_same fun _ => .ok _
  · refine .bind_same fun _ => .bind_same fun row => ?_
    cases empty with
    | true => exact .ok _
    | false => exact .ok _
  · exact startCell_erases part options consumer element empty state
  · show ErasesTokens consumer (if state.inCell = true then _ else _)
      (if state.inCell = true then _ else _)
    split
    · exact .ok _
    · exact .ok _
  · show ErasesTokens consumer (if state.inCell = true then _ else _)
      (if state.inCell = true then _ else _)
    split
    · exact .bind_same fun _ => .bind_same fun _ => .bind_same fun _ => .bind_same fun _ =>
        .bind_same fun _ => .ok _
    · exact .ok _
  · show ErasesTokens consumer
      (if state.inCell = true ∧ state.currentCell.cellType = "inlineStr".toList then _ else _)
      (if state.inCell = true ∧ state.currentCell.cellType = "inlineStr".toList then _ else _)
    split
    · exact .ok _
    · exact .ok _
  · refine .bind_same fun reference => ?_
    cases reference with
    | none => exact .error _ _
    | some reference =>
      refine .bind_same fun range => ?_
      dsimp only
      split
      · exact .ok _
      · exact .ok _
  · exact .ok _

theorem close_erases (name : String) (state : SheetState) :
    ErasesTokens consumer (close part options consumer name state)
      (close part options none name state.plain) := by
  unfold close
  split
  · exact .ok _
  · exact .ok _
  · exact .ok _
  · exact finish_erases part options consumer state
  · obtain ⟨layout, currentRow, nextRow, nextColumn, last, cell, shared, inCell, tokens⟩ := state
    cases currentRow with
    | none => exact .error _ _
    | some row => exact .bind_same fun _ => .ok _
  · exact .ok _

theorem addText_plain (value : Text) (state : SheetState) :
    addText value state.plain = (addText value state).plain := by
  by_cases hformula : state.currentCell.inFormula = true
  · simp [addText, SheetState.plain, hformula]
  · by_cases hvalue : (state.currentCell.inValue || state.currentCell.inInlineText) = true
    · simp only [addText, SheetState.plain, hformula, hvalue, if_true, Bool.false_eq_true, if_false]
    · simp only [addText, SheetState.plain, hformula, hvalue, Bool.false_eq_true, if_false]

theorem step_erases (scan : Scan) (event : Event) :
    Erases (Total consumer) Scan.plain (step part options consumer scan event)
      (step part options none scan.plain event) := by
  have keep {x y : Except ConversionError SheetState} (h : ErasesTokens consumer x y) :
      Erases (Total consumer) Scan.plain (do let state ← x; return { scan with state })
        (do let state ← y; return { scan.plain with state }) :=
    h.bind fun state => .ok { scan with state }
  cases event with
  | broken error => exact .error _ _
  | docType => exact .error _ _
  | other => exact .ok scan
  | reference value =>
    refine .bind_same fun c => ?_
    show Erases _ _ (if scan.opaqueDepth = 0 ∧ scan.state.inCell = true then _ else _)
      (if scan.opaqueDepth = 0 ∧ scan.state.inCell = true then _ else _)
    split
    · rw [Scan.plain, addText_plain]
      exact .ok { scan with state := addText [c] scan.state }
    · exact .ok scan
  | text value =>
    unfold step
    show Erases _ _ (if scan.opaqueDepth = 0 ∧ scan.state.inCell = true then _ else _)
      (if scan.opaqueDepth = 0 ∧ scan.state.inCell = true then _ else _)
    split
    · refine .bind_same fun text => ?_
      rw [Scan.plain, addText_plain]
      exact .ok { scan with state := addText text scan.state }
    · exact .ok scan
  | start element =>
    unfold step
    show Erases _ _ (if 0 < scan.opaqueDepth then _ else _)
      (if 0 < scan.opaqueDepth then _ else _)
    split
    · exact .bind_same fun _ => .ok { scan with opaqueDepth := scan.opaqueDepth + 1 }
    · split
      · exact .bind_same fun _ => .ok { scan with opaqueDepth := 1 }
      · exact keep (start_erases part options consumer element false scan.state)
  | empty element =>
    unfold step
    show Erases _ _ (if 0 < scan.opaqueDepth ∨ element.core = false then _ else _)
      (if 0 < scan.opaqueDepth ∨ element.core = false then _ else _)
    split
    · exact .ok scan
    · exact keep (start_erases part options consumer element true scan.state)
  | close name core =>
    unfold step
    show Erases _ _ (if 0 < scan.opaqueDepth then _ else _)
      (if 0 < scan.opaqueDepth then _ else _)
    split
    · exact .ok { scan with opaqueDepth := scan.opaqueDepth - 1 }
    · split
      · exact keep (close_erases part options consumer name scan.state)
      · exact .ok scan

theorem scanFrom_erases (scan : Scan) (events : List Event) :
    Erases (Total consumer) Scan.plain (scanFrom part options consumer scan events)
      (scanFrom part options none scan.plain events) :=
  .foldlM (step_erases part options consumer) events scan

/-- **Erasure.** The scan that delivers nothing finds the same layout. -/
theorem parseSheet_erases (events : List Event) :
    Erases (Total consumer) (fun found : SheetLayout × List CellToken => (found.1, []))
      (parseSheet part options consumer events) (parseSheet part options none events) :=
  (scanFrom_erases part options consumer {} events).bind fun scan =>
    .bind_same fun _ => .bind_same fun _ => .ok (_, scan.state.tokens)

end

end IntoMarkdown.Sheet
