import IntoMarkdown.Sheet.IndexPass
import IntoMarkdown.Sheet.Passes

/-! # Scanned worksheets

A stream whose rows and cells are all inside the grid is scanned into increasing cells and their
maximal runs, at the same places by every pass. -/

namespace IntoMarkdown.Sheet
open Lib Strings

section
variable {part : String} {consumed : Bool} {scan scan' : Scan} {position : Position}
  {event : Event} {metadata : MetadataState}

/-! ## Places -/

theorem Tracks.rowAt_eq (h : Tracks consumed scan position)
    (hdid : Did part consumed scan scan' event) :
    scan.rowAt part event = position.rowAt part event := by
  rw [Scan.rowAt, Position.rowAt, h.depth]
  cases htag : tagOf scan.opaqueDepth event with
  | none => rfl
  | some tag =>
    obtain ⟨element, empty⟩ := tag
    simp only [Option.bind_some]
    split
    · rename_i hname
      obtain ⟨-, row, hrow, hplace, -⟩ := h.row_of_did hdid htag hname
      rw [hrow, hplace]
      rfl
    · rfl

theorem Tracks.cellAt_eq (h : Tracks consumed scan position)
    (hdid : Did part consumed scan scan' event) :
    scan.cellAt part event = position.cellAt part event := by
  rw [Scan.cellAt, Position.cellAt, h.depth]
  cases htag : tagOf scan.opaqueDepth event with
  | none => rfl
  | some tag =>
    obtain ⟨element, empty⟩ := tag
    simp only [Option.bind_some]
    split
    · rename_i hname
      obtain ⟨row, last, coordinate, hcurrent, hopen, hcoordinate, hcell, -⟩ :=
        h.cell_of_did hdid htag hname
      rw [hopen, hcurrent, Option.bind_some, Option.bind_some, hcoordinate, hcell]
      rfl
    · rfl

theorem MetadataTracks.rowAt_eq (h : MetadataTracks metadata position)
    (htracks : Tracks consumed scan position) (hdid : Did part consumed scan scan' event)
    (hinside : position.Inside part event) :
    metadata.rowAt part event = position.rowAt part event := by
  rw [MetadataState.rowAt, Position.rowAt, h.depth]
  cases htag : tagOf metadata.opaqueDepth event with
  | none => rfl
  | some tag =>
    obtain ⟨element, empty⟩ := tag
    rw [← h.depth] at htag
    simp only [Option.bind_some]
    split
    · rename_i hname
      obtain ⟨-, row, -, hrow, hafter⟩ := htracks.row_of_did hdid (htracks.depth ▸ htag) hname
      rw [metadataRowNumber_of h.nextRow hrow (hinside.row htag hname hrow) hafter, hrow]
      rfl
    · rfl

theorem MetadataTracks.cellAt_eq (h : MetadataTracks metadata position)
    (htracks : Tracks consumed scan position) (hdid : Did part consumed scan scan' event) :
    metadata.cellAt part event = position.cellAt part event := by
  rw [MetadataState.cellAt, Position.cellAt, h.depth]
  cases htag : tagOf metadata.opaqueDepth event with
  | none => rfl
  | some tag =>
    obtain ⟨element, empty⟩ := tag
    rw [← h.depth] at htag
    simp only [Option.bind_some]
    split
    · rename_i hname
      obtain ⟨row, last, coordinate, hcurrent, -, -, hcell, hrow, hafter, style, hstyle⟩ :=
        htracks.cell_of_did hdid (htracks.depth ▸ htag) hname
      obtain ⟨given, hgiven, said, hsaid, hcoordinate⟩ := placeOf_eq_some.mp hcell
      have hopen : metadata.currentRow = some row := by
        rw [h.currentRow, hcurrent]
        rfl
      rw [hopen, hcurrent, Option.bind_some, Option.bind_some, hcell,
        cellAttributes_of hgiven hstyle]
      exact congrArg Except.toOption (metadataCoordinate_of part
        (h.nextColumn row last hcurrent) hsaid hcoordinate hrow hafter)
    · rfl

end

/-! ## Runs -/

section
variable {part : String} {options : Options} {consumer : Option Consumer}

theorem scanFrom_snoc {scan scan' : Scan} {front : List Event} {event : Event} :
    scanFrom part options consumer scan (front ++ [event]) = .ok scan' ↔
      ∃ middle, scanFrom part options consumer scan front = .ok middle ∧
        step part options consumer middle event = .ok scan' := by
  rw [scanFrom, List.foldlM_append, bind_ok_iff]
  simp only [List.foldlM_cons, List.foldlM_nil, scanFrom, bind_ok_iff]
  simp [pure, Except.pure]

theorem scanFrom_prefix {scan scan' : Scan} {front events : List Event} (h : front <+: events)
    (hscan : scanFrom part options consumer scan events = .ok scan') :
    ∃ middle, scanFrom part options consumer scan front = .ok middle := by
  obtain ⟨back, rfl⟩ := h
  rw [scanFrom, List.foldlM_append] at hscan
  obtain ⟨middle, hmiddle, -⟩ := ok_bind hscan
  exact ⟨middle, hmiddle⟩

/-- **Run.** The scan is where the stream is as long as what begins is inside the grid. -/
theorem tracks_of_scanFrom {events : List Event}
    (hinside : ∀ front event, front ++ [event] <+: events → ∀ scan,
      scanFrom part options consumer {} front = .ok scan →
      Tracks consumer.isSome scan (positionAfter part front) →
      (∃ scan', step part options consumer scan event = .ok scan') →
        (positionAfter part front).Inside part event)
    {front : List Event} (hstart : front <+: events) {scan : Scan}
    (hscan : scanFrom part options consumer {} front = .ok scan) :
    Tracks consumer.isSome scan (positionAfter part front) := by
  induction front using List.reverseRecOn generalizing scan with
  | nil =>
    obtain rfl := Except.ok.inj hscan
    exact .init _
  | append_singleton front event ih =>
    obtain ⟨middle, hmiddle, hstep⟩ := scanFrom_snoc.mp hscan
    have htracks := ih ((List.prefix_append _ _).trans hstart) hmiddle
    rw [positionAfter_snoc]
    exact htracks.step (hinside front event hstart middle hmiddle htracks ⟨scan, hstep⟩)
      (step_did hstep)

theorem tracks_of_insideGrid {events : List Event} (hinside : InsideGrid part events)
    {front : List Event} (hstart : front <+: events) {scan : Scan}
    (hscan : scanFrom part options consumer {} front = .ok scan) :
    Tracks consumer.isSome scan (positionAfter part front) :=
  tracks_of_scanFrom (fun front event hstart _ _ _ _ => hinside front event hstart) hstart hscan

theorem metadataTracks_of_insideGrid {styles : List (List InlineMark)} {events : List Event}
    (hinside : InsideGrid part events) {scan : Scan}
    (hscan : scanFrom part options consumer {} events = .ok scan)
    {front : List Event} (hstart : front <+: events) {metadata : MetadataState}
    (hmetadata : metadataFrom part options styles {} front = .ok metadata) :
    MetadataTracks metadata (positionAfter part front) := by
  induction front using List.reverseRecOn generalizing metadata with
  | nil =>
    obtain rfl := Except.ok.inj hmetadata
    exact .init
  | append_singleton front event ih =>
    rw [metadataFrom, List.foldlM_append] at hmetadata
    obtain ⟨middle, hmiddle, hstep⟩ := ok_bind hmetadata
    rw [List.foldlM_cons] at hstep
    obtain ⟨last, hlast, hnil⟩ := ok_bind hstep
    obtain rfl := Except.ok.inj hnil
    have hfront := (List.prefix_append front [event]).trans hstart
    obtain ⟨next, hnext⟩ := scanFrom_prefix hstart hscan
    obtain ⟨before, hbefore, hdid⟩ := scanFrom_snoc.mp hnext
    rw [positionAfter_snoc]
    exact (ih hfront hmiddle).step (tracks_of_insideGrid hinside hfront hbefore) (step_did hdid)
      (hinside front event hstart) hlast

theorem insideGrid_of_scanFrom {events : List Event} {last : Scan}
    (hscan : scanFrom part options consumer {} events = .ok last)
    (hplaces : ∀ front event, front ++ [event] <+: events → ∀ scan,
      scanFrom part options consumer {} front = .ok scan →
        (∀ row ∈ scan.rowAt part event, row < maxExcelRows) ∧
          ∀ coordinate ∈ scan.cellAt part event, InGrid coordinate) :
    InsideGrid part events := by
  have hinside (front : List Event) (event : Event) (hstart : front ++ [event] <+: events)
      (scan : Scan) (hfront : scanFrom part options consumer {} front = .ok scan)
      (htracks : Tracks consumer.isSome scan (positionAfter part front))
      (hstep : ∃ scan', step part options consumer scan event = .ok scan') :
      (positionAfter part front).Inside part event := by
    obtain ⟨scan', hstep⟩ := hstep
    obtain ⟨hrow, hcell⟩ := hplaces front event hstart scan hfront
    rw [htracks.rowAt_eq (step_did hstep)] at hrow
    rw [htracks.cellAt_eq (step_did hstep)] at hcell
    exact ⟨hrow, hcell⟩
  intro front event hstart
  obtain ⟨next, hnext⟩ := scanFrom_prefix hstart hscan
  obtain ⟨scan, hfront, hstep⟩ := scanFrom_snoc.mp hnext
  exact hinside front event hstart scan hfront
    (tracks_of_scanFrom hinside ((List.prefix_append _ _).trans hstart) hfront) ⟨next, hstep⟩

theorem parseSheet_ok {events : List Event} {layout : SheetLayout} {tokens : List CellToken}
    (h : parseSheet part options consumer events = .ok (layout, tokens)) :
    ∃ scan, scanFrom part options consumer {} events = .ok scan ∧
      layout.runs = scan.state.layout.runs ∧ tokens = scan.state.tokens := by
  obtain ⟨scan, hscan, h⟩ := ok_bind h
  obtain ⟨-, h⟩ := refuse_bind_ok.mp h
  obtain ⟨-, h⟩ := refuse_bind_ok.mp h
  cases h
  exact ⟨scan, hscan, rfl, rfl⟩

end

/-! ## Scanned worksheets -/

section
variable (part : String) (options : Options)

/-- The cells are increasing inside the grid, the runs are their maximal runs, no counter leaves
the grid, and every pass gives a row or a cell the same place. -/
structure Faithful (styles : List (List InlineMark)) (accept : Consumer) (events : List Event)
    (layout : SheetLayout) (tokens : List CellToken) : Prop where
  recorded : MaximalRuns layout.runs (tokens.map CellToken.coordinate)
  index : parseSheet part options none events = .ok (layout, [])
  counters : ∀ front, front <+: events → ∀ scan,
    scanFrom part options (some accept) {} front = .ok scan →
      scan.state.nextRow ≤ maxExcelRows ∧ scan.state.nextColumn ≤ maxExcelColumns
  inside : ∀ front event, front ++ [event] <+: events → ∀ scan,
    scanFrom part options (some accept) {} front = .ok scan →
      (∀ row ∈ scan.rowAt part event, row < maxExcelRows) ∧
        ∀ coordinate ∈ scan.cellAt part event, InGrid coordinate
  passes : ∀ front event, front ++ [event] <+: events → ∀ scan plain metadata,
    scanFrom part options (some accept) {} front = .ok scan →
    scanFrom part options none {} front = .ok plain →
    metadataFrom part options styles {} front = .ok metadata →
      plain.rowAt part event = scan.rowAt part event ∧
        plain.cellAt part event = scan.cellAt part event ∧
        metadata.rowAt part event = scan.rowAt part event ∧
        metadata.cellAt part event = scan.cellAt part event

/-- Wherever the scan has come to, it takes the place of the next row or cell. -/
def Admits (consumer : Option Consumer) (events : List Event) : Prop :=
  ∀ front event, front ++ [event] <+: events → ∀ scan,
    scanFrom part options consumer {} front = .ok scan →
    ∀ element empty, tagOf scan.opaqueDepth event = some (element, empty) →
      (element.name = "row" → ∃ row, rowNumber part element scan.state = .ok row) ∧
      (element.name = "c" → ∀ row, scan.state.currentRow = some row →
        ∃ coordinate, cellCoordinate part element row scan.state = .ok coordinate)

variable {part} {options}

theorem InsideGrid.faithful {styles : List (List InlineMark)} {accept : Consumer}
    {events : List Event} {layout : SheetLayout} {tokens : List CellToken}
    (hinside : InsideGrid part events)
    (h : parseSheet part options (some accept) events = .ok (layout, tokens)) :
    Faithful part options styles accept events layout tokens := by
  obtain ⟨last, hlast, hruns, htokens⟩ := parseSheet_ok h
  have hindex := (parseSheet_erases part options (some accept) events).forth _ h
  obtain ⟨lastPlain, hlastPlain, -⟩ := parseSheet_ok hindex
  have hend := tracks_of_insideGrid hinside (List.prefix_refl events) hlast
  refine ⟨?_, hindex, ?_, ?_, ?_⟩
  · have hwritten : tokens.map CellToken.coordinate = populated layout.runs := by
      rw [htokens, hruns]
      exact hend.recorded.written rfl
    rw [hwritten, hruns]
    exact hend.recorded.runs
  · intro front hstart scan hscan
    have htracks := tracks_of_insideGrid hinside hstart hscan
    exact ⟨htracks.follows.nextRow.trans_le htracks.bounded.closed, htracks.nextColumn⟩
  · intro front event hstart scan hscan
    have hfront := (List.prefix_append front [event]).trans hstart
    have htracks := tracks_of_insideGrid hinside hfront hscan
    obtain ⟨next, hnext⟩ := scanFrom_prefix hstart hlast
    obtain ⟨scan', hscan', hstep⟩ := scanFrom_snoc.mp hnext
    obtain rfl := Except.ok.inj (hscan'.symm.trans hscan)
    rw [htracks.rowAt_eq (step_did hstep), htracks.cellAt_eq (step_did hstep)]
    exact hinside front event hstart
  · intro front event hstart scan plain metadata hscan hplain hmetadata
    have hfront := (List.prefix_append front [event]).trans hstart
    have htracks := tracks_of_insideGrid hinside hfront hscan
    have hplainTracks := tracks_of_insideGrid hinside hfront hplain
    have hmetadataTracks := metadataTracks_of_insideGrid hinside hlast hfront hmetadata
    obtain ⟨next, hnext⟩ := scanFrom_prefix hstart hlast
    obtain ⟨scan', hscan', hstep⟩ := scanFrom_snoc.mp hnext
    obtain rfl := Except.ok.inj (hscan'.symm.trans hscan)
    obtain ⟨nextPlain, hnextPlain⟩ := scanFrom_prefix hstart hlastPlain
    obtain ⟨plain', hplain', hstepPlain⟩ := scanFrom_snoc.mp hnextPlain
    obtain rfl := Except.ok.inj (hplain'.symm.trans hplain)
    have hdid := step_did hstep
    have hdidPlain := step_did hstepPlain
    rw [htracks.rowAt_eq hdid, htracks.cellAt_eq hdid, hplainTracks.rowAt_eq hdidPlain,
      hplainTracks.cellAt_eq hdidPlain,
      hmetadataTracks.rowAt_eq htracks hdid (hinside front event hstart),
      hmetadataTracks.cellAt_eq htracks hdid]
    exact ⟨rfl, rfl, rfl, rfl⟩

theorem Increasing.admits {consumer : Option Consumer} {events : List Event}
    (h : Increasing part events) : Admits part options consumer events := by
  intro front event hstart scan hscan element empty htag
  have htracks := tracks_of_insideGrid h.insideGrid
    ((List.prefix_append front [event]).trans hstart) hscan
  obtain ⟨hrow, hcell⟩ := h front event hstart element empty (htracks.depth.symm ▸ htag)
  constructor
  · intro hname
    obtain ⟨row, hplace, -, hafter⟩ := hrow hname
    refine ⟨row, (rowNumber_ok_iff htracks.follows.nextRow).mpr ⟨hplace, ?_⟩⟩
    cases hclosed : (positionAfter part front).closed with
    | none => exact Nat.zero_le row
    | some last => exact hafter last hclosed
  · intro hname row hopen
    obtain ⟨last, hcurrent⟩ := htracks.current_some hopen
    obtain ⟨column, hplace, -, hafter⟩ := hcell hname row last hcurrent
    have hlast := htracks.follows.lastCoordinate
    rw [hcurrent] at hlast
    refine ⟨(row, column), (cellCoordinate_ok_iff
      (htracks.follows.nextColumn row last hcurrent) hlast).mpr ⟨hplace, rfl, ?_⟩⟩
    cases hclosed : last with
    | none => exact Nat.zero_le column
    | some earlier => exact hafter earlier hclosed

/-- **Scan.** An accepted stream is scanned faithfully exactly where all its rows and cells, said
or implied, are inside the grid. What the index accepts is delivered to a consumer that takes every
token, and increasing places inside the grid are not refused. -/
theorem scan_faithful_iff (part : String) (options : Options) (styles : List (List InlineMark))
    (accept : Consumer) (events : List Event) :
    (∀ layout tokens, parseSheet part options (some accept) events = .ok (layout, tokens) →
      (Faithful part options styles accept events layout tokens ↔ InsideGrid part events)) ∧
    (∀ layout tokens, parseSheet part options none events = .ok (layout, tokens) →
      ∃ found, parseSheet part options (some fun _ _ => .ok ()) events = .ok (layout, found)) ∧
    (Increasing part events →
      Admits part options none events ∧ Admits part options (some accept) events) := by
  refine ⟨fun layout tokens h => ⟨fun hfaithful => ?_, fun hinside => hinside.faithful h⟩, ?_,
    fun h => ⟨h.admits, h.admits⟩⟩
  · obtain ⟨last, hlast, -⟩ := parseSheet_ok h
    exact insideGrid_of_scanFrom hlast hfaithful.inside
  · intro layout tokens h
    have htotal : Total (some fun _ _ => .ok ()) := by
      intro accept haccept tokens token
      obtain rfl := Option.some.inj haccept
      rfl
    obtain ⟨⟨layout', found⟩, hfound, heq⟩ :=
      (parseSheet_erases part options (some fun _ _ => .ok ()) events).back htotal _ h
    obtain rfl : layout' = layout := congrArg Prod.fst heq
    exact ⟨found, hfound⟩

/-! ## Rows past the grid -/

def tagged (name : String) (attributes : List (String × Except String Text)) : Element :=
  ⟨name, true, attributes⟩

/-- A row that says nothing of its place, with one cell that says nothing of its own. -/
def impliedRow : List Event :=
  [.start (tagged "row" []), .start (tagged "c" []), .start (tagged "v" []),
    .text (.ok ['1']), .close "v" true, .close "c" true, .close "row" true]

/-- The last row number of 32 bits, and two rows that follow. -/
def farRows : List Event :=
  [.empty (tagged "row" [("r", .ok "4294967295".toList)])] ++ impliedRow ++ impliedRow

def strict : Options := ⟨false, 1000, 1000⟩

/-- Two rows share a number, far outside the grid. -/
theorem scan_leaves_grid : ¬ ∀ events layout tokens,
    parseSheet "sheet1.xml" strict (some fun _ _ => .ok ()) events = .ok (layout, tokens) →
      (tokens.map CellToken.coordinate).Pairwise before ∧
        ∀ token ∈ tokens, InGrid token.coordinate := by
  intro h
  have hfound : (parseSheet "sheet1.xml" strict (some fun _ _ => .ok ()) farRows).toOption.map
      (fun found => found.2.map CellToken.coordinate) =
        some [(4294967295, 0), (4294967295, 0)] := by decide +kernel
  obtain ⟨⟨layout, tokens⟩, hok, htokens⟩ := Option.map_eq_some_iff.mp hfound
  cases hparse : parseSheet "sheet1.xml" strict (some fun _ _ => .ok ()) farRows with
  | error error =>
    rw [hparse] at hok
    cases hok
  | ok found =>
    obtain ⟨hordered, -⟩ := h farRows found.1 found.2 hparse
    rw [hparse] at hok
    obtain rfl : found = (layout, tokens) := Option.some.inj hok
    rw [htokens] at hordered
    exact absurd hordered (by decide)

end

end IntoMarkdown.Sheet
