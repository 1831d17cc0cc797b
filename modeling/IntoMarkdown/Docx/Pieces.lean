import IntoMarkdown.Docx.SourceGrid

/-! # The loop over rows and cells keeps the grid

After every cell the pieces so far tile the rows above and the columns passed, and the active
merges are the pieces that reach down to the row before. -/

namespace IntoMarkdown.Docx
open Lib Lib.Tiling Ir

section
variable {β : Type}

/-! ## Source cells -/

section
variable {rows : List (TableRow β)} {r i j c c' : Nat} {cell cell' : Cell β}

theorem Stands.unique (h : Stands rows r i c cell) (h' : Stands rows r i c' cell') :
    c = c' ∧ cell = cell' := by
  obtain ⟨before, after, hrow, hi, hc⟩ := h
  obtain ⟨before', after', hrow', hi', hc'⟩ := h'
  have hcells := congrArg TableRow.cells (Option.some.inj (hrow.symm.trans hrow'))
  obtain ⟨hbefore, hafter⟩ := List.append_inj hcells (hi.trans hi'.symm)
  obtain ⟨rfl, rfl⟩ := List.cons.inj hafter
  exact ⟨by rw [← hc, ← hc', hbefore], rfl⟩

theorem Stands.column_le (h : Stands rows r i c cell) (h' : Stands rows r j c' cell')
    (hlt : i < j) : c + Cell.width cell ≤ c' := by
  obtain ⟨before, after, hrow, rfl, rfl⟩ := h
  obtain ⟨before', after', hrow', rfl, rfl⟩ := h'
  have hcells := congrArg TableRow.cells (Option.some.inj (hrow.symm.trans hrow'))
  rcases List.append_eq_append_iff.mp hcells with ⟨more, rfl, hmore⟩ | ⟨more, rfl, -⟩
  · cases more with
    | nil =>
      rw [List.append_nil] at hlt
      exact absurd hlt (Nat.lt_irrefl _)
    | cons d more =>
      obtain ⟨rfl, -⟩ := List.cons.inj hmore
      rw [List.map_append, List.sum_append, List.map_cons, List.sum_cons]
      omega
  · rw [List.length_append] at hlt
    omega

/-- No two cells of a row share a column. -/
theorem Stands.index_eq (h : Stands rows r i c cell) (h' : Stands rows r j c' cell')
    (hpos : 0 < Cell.width cell') (hle : c ≤ c') (hlt : c' < c + Cell.width cell) : j = i := by
  rcases Nat.lt_trichotomy i j with hij | hij | hij
  · have := h.column_le h' hij
    omega
  · exact hij.symm
  · have := h'.column_le h hij
    omega

end

/-! ## Pieces -/

abbrev Board (β : Type) := List (List (Piece β))

/-- The rows of the result that the pieces are. -/
def Board.shown (board : Board β) : List (TableRow β) :=
  board.map fun pieces => ⟨pieces.map Piece.cell⟩

def locate (board : Board β) (m : ActiveVerticalMerge) : Option (Piece β) :=
  board[m.originRow]?.bind fun pieces => pieces[m.originCell]?

/-- Another piece in the place of the one that is there. -/
def Board.put (board : Board β) (m : ActiveVerticalMerge) (p : Piece β) : Board β :=
  board.modify m.originRow fun pieces => pieces.set m.originCell p

theorem locate_eq_some {board : Board β} {m : ActiveVerticalMerge} {p : Piece β} :
    locate board m = some p ↔
      ∃ pieces, board[m.originRow]? = some pieces ∧ pieces[m.originCell]? = some p :=
  Option.bind_eq_some_iff

theorem flatten_put {board : Board β} {m : ActiveVerticalMerge} {p : Piece β}
    (h : locate board m = some p) : ∃ before after, board.flatten = before ++ p :: after ∧
      ∀ q, (board.put m q).flatten = before ++ q :: after := by
  obtain ⟨pieces, hrow, hcell⟩ := locate_eq_some.mp h
  obtain ⟨hr, rfl⟩ := List.getElem?_eq_some_iff.mp hrow
  obtain ⟨hi, rfl⟩ := List.getElem?_eq_some_iff.mp hcell
  refine ⟨(board.take m.originRow).flatten ++ (board[m.originRow].take m.originCell),
    (board[m.originRow].drop (m.originCell + 1)) ++ (board.drop (m.originRow + 1)).flatten,
    ?_, fun q => ?_⟩
  · have hcells : board[m.originRow] = board[m.originRow].take m.originCell ++
        board[m.originRow][m.originCell] :: board[m.originRow].drop (m.originCell + 1) := by
      rw [List.getElem_cons_drop, List.take_append_drop]
    have hboard : board = board.take m.originRow ++
        board[m.originRow] :: board.drop (m.originRow + 1) := by
      rw [List.getElem_cons_drop, List.take_append_drop]
    conv_lhs => rw [hboard, List.flatten_append, List.flatten_cons, hcells]
    simp only [List.append_assoc, List.cons_append]
  · rw [Board.put, List.modify_eq_take_cons_drop hr, List.set_eq_take_append_cons_drop, if_pos hi,
      List.flatten_append, List.flatten_cons]
    simp only [List.append_assoc, List.cons_append]

theorem locate_put {board : Board β} {m m' : ActiveVerticalMerge} {p q : Piece β}
    (h : locate board m = some p) (h' : locate board m' = some q)
    (hne : p.rect.column ≠ q.rect.column) (p' : Piece β) :
    locate (board.put m p') m' = some q := by
  obtain ⟨pieces, hrow, hcell⟩ := locate_eq_some.mp h
  obtain ⟨pieces', hrow', hcell'⟩ := locate_eq_some.mp h'
  refine locate_eq_some.mpr ?_
  rw [Board.put, List.getElem?_modify, hrow', Option.map_eq_map, Option.map_some]
  by_cases hsame : m.originRow = m'.originRow
  · rw [hsame, hrow'] at hrow
    obtain rfl := Option.some.inj hrow
    refine ⟨pieces'.set m.originCell p', by rw [if_pos hsame], ?_⟩
    rw [List.getElem?_set_ne, hcell']
    intro hcells
    rw [hcells, hcell'] at hcell
    exact hne (congrArg (fun p => p.rect.column) (Option.some.inj hcell).symm)
  · exact ⟨pieces', by rw [if_neg hsame], hcell'⟩

theorem locate_append {board : Board β} {m : ActiveVerticalMerge} {p : Piece β}
    (h : locate board m = some p) (more : Board β) : locate (board ++ more) m = some p := by
  obtain ⟨pieces, hrow, hcell⟩ := locate_eq_some.mp h
  have hr := (List.getElem?_eq_some_iff.mp hrow).1
  exact locate_eq_some.mpr ⟨pieces, by rw [List.getElem?_append_left hr, hrow], hcell⟩

/-! ## The invariant -/

section
variable (visible : List β → Bool) (rows : List (TableRow β))
  (declarations : List (List VerticalMerge))

/-- The piece that a merge of row `r` stands for: it begins at column `c`, and its last row
is `r`. -/
def Tracks (board : Board β) (r c : Nat) (m : ActiveVerticalMerge) : Prop :=
  ∃ p : Piece β, locate board m = some p ∧ p.rect.column = c ∧ p.rect.width = m.width ∧
    p.rect.row + p.rect.height = r + 1 ∧
    ∃ j cell, Stands rows r j c cell ∧ Cell.width cell = m.width ∧
      Merges visible rows declarations r j p.key

/-- The entries in the columns `P` are merges of row `r`, and in the columns `Q` each merge of
the row has one. -/
structure Active (board : Board β) (active : ActiveMerges) (r : Nat) (P Q : Nat → Prop) :
    Prop where
  tracks : ∀ c m, P c → active.lookup c = some m → Tracks visible rows declarations board r c m
  complete : ∀ j c cell key, Q c → Stands rows r j c cell →
    Merges visible rows declarations r j key →
    ∃ m, active.lookup c = some m ∧ m.width = Cell.width cell

/-- The active merges of the row before, from column `C` on. -/
def Earlier (board : Board β) (active : ActiveMerges) (C : Nat) : Nat → Prop
  | 0 => ∀ c, active.lookup c = none
  | r + 1 => Active visible rows declarations board active r (C ≤ ·) (C ≤ ·)

structure PieceOk (rows : List (TableRow β)) (bottom W : Nat) (p : Piece β) : Prop where
  source : Stands rows p.key.1 p.key.2 p.rect.column p.source
  row : p.rect.row = p.key.1
  width : p.rect.width = Cell.width p.source
  height : 0 < p.rect.height
  short : p.rect.height < 2 ^ 32
  below : p.rect.row + p.rect.height ≤ bottom
  within : p.rect.column + p.rect.width ≤ W

/-- The slots of a source cell belong to the piece of its owner. -/
def Owned (pieces : List (Piece β)) (r i c : Nat) (cell : Cell β) : Prop :=
  ∃ p ∈ pieces, Owner visible rows declarations r i p.key ∧
    ∀ c', c ≤ c' → c' < c + Cell.width cell → p.rect.covers r c' = true

/-- In row `r`, when the cells before column `C` are done. -/
structure Mid (W r C : Nat) (board : Board β) : Prop where
  ok : ∀ p ∈ board.flatten, PieceOk rows (r + 1) W p
  rowOf : ∀ r' (pieces : List (Piece β)), board[r']? = some pieces → ∀ p ∈ pieces, p.rect.row = r'
  order : (board.flatten.map Piece.rect).Pairwise Rect.Precedes
  front : ∀ p ∈ board.flatten, p.rect.row = r → p.rect.column < C
  full : ∀ r' < r, ∀ c < W, coverage (board.flatten.map Piece.rect) r' c = 1
  passed : ∀ c, coverage (board.flatten.map Piece.rect) r c = if c < C then 1 else 0
  owners : ∀ r' i c cell, Stands rows r' i c cell → (r' < r ∨ r' = r ∧ c < C) →
    Owned visible rows declarations board.flatten r' i c cell

end

section
variable {visible : List β → Bool} {rows : List (TableRow β)}
  {declarations : List (List VerticalMerge)} {W r C i : Nat} {cell : Cell β} {p : Piece β}
  {board above : Board β} {now : List (Piece β)} {m : ActiveVerticalMerge}

/-! ## A cell that is kept -/

theorem flatten_last (above : Board β) (now : List (Piece β)) (p : Piece β) :
    (above ++ [now ++ [p]]).flatten = (above ++ [now]).flatten ++ [p] := by
  rw [List.flatten_concat, List.flatten_concat, List.append_assoc]

theorem getElem?_last {above : Board β} {now pieces : List (Piece β)} {r : Nat}
    (h : (above ++ [now])[r]? = some pieces) :
    above[r]? = some pieces ∨ (r = above.length ∧ pieces = now) := by
  rcases Nat.lt_or_ge r above.length with hlt | hle
  · rw [List.getElem?_append_left hlt] at h
    exact .inl h
  · rw [List.getElem?_append_right hle] at h
    obtain ⟨hr, hpieces⟩ := List.getElem?_eq_some_iff.mp h
    rw [List.length_singleton] at hr
    rw [List.getElem_singleton] at hpieces
    exact .inr ⟨by omega, hpieces.symm⟩

/-- The piece of a cell that is not removed. -/
def keptPiece (r i c : Nat) (cell : Cell β) : Piece β :=
  ⟨(r, i), ⟨r, c, 1, Cell.width cell⟩, cell⟩

theorem keptPiece_covers {r' c' : Nat} : (keptPiece r i C cell).rect.covers r' c' ↔
    r' = r ∧ C ≤ c' ∧ c' < C + Cell.width cell := by
  rw [covers_iff]
  dsimp only [keptPiece]
  omega

theorem Mid.owned_mono {pieces more : List (Piece β)} {r' i' c' : Nat} {cell' : Cell β}
    (h : Owned visible rows declarations pieces r' i' c' cell') :
    Owned visible rows declarations (pieces ++ more) r' i' c' cell' := by
  obtain ⟨q, hq, hrest⟩ := h
  exact ⟨q, List.mem_append_left _ hq, hrest⟩

theorem Mid.keep (h : Mid visible rows declarations W r C (above ++ [now]))
    (hlength : above.length = r) (hcell : Stands rows r i C cell)
    (hpos : ∀ j c cell, Stands rows r j c cell → 0 < Cell.width cell)
    (hwithin : C + Cell.width cell ≤ W) (hkept : ¬ Removed visible rows declarations r i) :
    Mid visible rows declarations W r (C + Cell.width cell)
      (above ++ [now ++ [keptPiece r i C cell]]) where
  ok := by
    rw [flatten_last]
    refine List.forall_mem_append.mpr ⟨h.ok, List.forall_mem_singleton.mpr ?_⟩
    exact ⟨hcell, rfl, rfl, Nat.one_pos, Nat.one_lt_two_pow (by decide), Nat.le_refl _, hwithin⟩
  rowOf := by
    intro r' pieces hpieces
    rcases getElem?_last hpieces with hrow | ⟨rfl, rfl⟩
    · refine h.rowOf r' pieces ?_
      rw [List.getElem?_append_left (List.getElem?_eq_some_iff.mp hrow).1, hrow]
    · refine List.forall_mem_append.mpr ⟨h.rowOf _ now ?_, List.forall_mem_singleton.mpr ?_⟩
      · rw [List.getElem?_concat_length]
      · exact hlength.symm
  order := by
    rw [flatten_last, List.map_append, List.pairwise_append]
    refine ⟨h.order, List.pairwise_singleton _ _, ?_⟩
    intro rect hrect last hlast
    obtain ⟨q, hq, rfl⟩ := List.mem_map.mp hrect
    rw [List.map_singleton, List.mem_singleton] at hlast
    subst hlast
    have hq' := h.ok q hq
    have hheight := hq'.height
    have hbelow := hq'.below
    rcases Nat.lt_or_ge q.rect.row r with hlt | hge
    · exact .inl hlt
    · have hrow : q.rect.row = r := by omega
      exact .inr ⟨hrow, h.front q hq hrow⟩
  front := by
    rw [flatten_last]
    refine List.forall_mem_append.mpr ⟨fun q hq hrow => ?_, List.forall_mem_singleton.mpr ?_⟩
    · exact Nat.lt_of_lt_of_le (h.front q hq hrow) (Nat.le_add_right _ _)
    · exact fun _ => Nat.lt_add_of_pos_right (hpos i C cell hcell)
  full := by
    intro r' hr' c hc
    rw [flatten_last, List.map_append, coverage_append, h.full r' hr' c hc, List.map_singleton,
      coverage_singleton, if_neg]
    intro hcovers
    have := keptPiece_covers.mp hcovers
    omega
  passed := by
    intro c
    rw [flatten_last, List.map_append, coverage_append, h.passed c, List.map_singleton,
      coverage_singleton]
    simp only [keptPiece_covers, true_and]
    split_ifs <;> omega
  owners := by
    intro r' i' c' cell' hcell' hdone
    rw [flatten_last]
    by_cases hold : r' < r ∨ r' = r ∧ c' < C
    · exact Mid.owned_mono (h.owners r' i' c' cell' hcell' hold)
    · obtain rfl : r' = r := by omega
      have hindex := hcell.index_eq hcell' (hpos _ _ _ hcell') (by omega) (by omega)
      subst hindex
      obtain ⟨rfl, rfl⟩ := hcell.unique hcell'
      refine ⟨keptPiece r' i' C cell, List.mem_append_right _ List.mem_cons_self,
        .inr ⟨hkept, rfl⟩, fun c hle hlt => keptPiece_covers.mpr ⟨rfl, hle, hlt⟩⟩

/-! ## A cell that is removed -/

/-- The piece with one row more. -/
def Piece.taller (p : Piece β) : Piece β :=
  { p with rect := { p.rect with height := p.rect.height + 1 } }

theorem taller_covers {p : Piece β} (hbottom : p.rect.row + p.rect.height = r) {r' c' : Nat} :
    p.taller.rect.covers r' c' ↔ p.rect.covers r' c' ∨
      (r' = r ∧ p.rect.column ≤ c' ∧ c' < p.rect.column + p.rect.width) := by
  rw [covers_iff, covers_iff]
  dsimp only [Piece.taller]
  omega

theorem mem_put {q : Piece β} {r' : Nat} {pieces : List (Piece β)}
    (h : (board.put m q)[r']? = some pieces) : ∀ x ∈ pieces,
      (∃ old, board[r']? = some old ∧ x ∈ old) ∨
        (x = q ∧ r' = m.originRow ∧ ∃ old, board[r']? = some old) := by
  rw [Board.put, List.getElem?_modify] at h
  obtain ⟨old, hold, rfl⟩ := Option.map_eq_some_iff.mp h
  intro x hx
  split at hx
  · rename_i hrow
    rcases List.mem_or_eq_of_mem_set hx with hx | rfl
    · exact .inl ⟨old, hold, hx⟩
    · exact .inr ⟨rfl, hrow.symm, old, hold⟩
  · exact .inl ⟨old, hold, hx⟩

theorem Mid.extend (h : Mid visible rows declarations W r C board) (hcell : Stands rows r i C cell)
    (hpos : ∀ j c cell, Stands rows r j c cell → 0 < Cell.width cell)
    (hlocate : locate board m = some p) (hcolumn : p.rect.column = C)
    (hwidth : p.rect.width = Cell.width cell) (hbottom : p.rect.row + p.rect.height = r)
    (hshort : p.rect.height + 1 < 2 ^ 32) (howner : Owner visible rows declarations r i p.key) :
    Mid visible rows declarations W r (C + Cell.width cell) (board.put m p.taller) := by
  obtain ⟨before, after, hflatten, hput⟩ := flatten_put hlocate
  have hmem : p ∈ board.flatten := by simp [hflatten]
  have hold : ∀ q, q ∈ (board.put m p.taller).flatten ↔
      q = p.taller ∨ (q ∈ before ∨ q ∈ after) := by
    intro q
    rw [hput, List.mem_append, List.mem_cons]
    tauto
  have hrest : ∀ q, q ∈ before ∨ q ∈ after → q ∈ board.flatten := by
    intro q hq
    rw [hflatten, List.mem_append, List.mem_cons]
    tauto
  have hp := h.ok p hmem
  have hcoverage : ∀ r' c, coverage ((board.put m p.taller).flatten.map Piece.rect) r' c =
      coverage (board.flatten.map Piece.rect) r' c +
        if r' = r ∧ C ≤ c ∧ c < C + Cell.width cell then 1 else 0 := by
    intro r' c
    have hnew := @taller_covers β r p hbottom r' c
    have hnot : r' = r → ¬ p.rect.covers r' c := by
      rintro rfl hcovers
      have := covers_iff.mp hcovers
      omega
    rw [hcolumn, hwidth] at hnew
    rw [hput, hflatten, List.map_append, List.map_append, List.map_cons, List.map_cons,
      coverage_append, coverage_append, coverage_cons, coverage_cons]
    simp only [hnew]
    by_cases hcovers : p.rect.covers r' c
    · rw [if_pos (Or.inl hcovers), if_pos hcovers, if_neg fun hin => hnot hin.1 hcovers]
      omega
    · by_cases hin : r' = r ∧ C ≤ c ∧ c < C + Cell.width cell
      · rw [if_pos (Or.inr hin), if_neg hcovers, if_pos hin]
        omega
      · rw [if_neg (not_or.mpr ⟨hcovers, hin⟩), if_neg hcovers, if_neg hin]
        omega
  constructor
  case ok =>
    intro q hq
    rcases (hold q).mp hq with rfl | hq
    · exact ⟨hp.source, hp.row, hp.width, Nat.succ_pos _, hshort,
        by dsimp only [Piece.taller]; omega, hp.within⟩
    · exact h.ok q (hrest q hq)
  case rowOf =>
    intro r' pieces hpieces q hq
    rcases mem_put hpieces q hq with ⟨old, hrow, hq⟩ | ⟨rfl, rfl, old, hrow⟩
    · exact h.rowOf r' old hrow q hq
    · obtain ⟨pieces', hrow', hcell'⟩ := locate_eq_some.mp hlocate
      exact h.rowOf m.originRow pieces' hrow' p (List.mem_of_getElem? hcell')
  case order =>
    have horder := h.order
    rw [hflatten, List.map_append, List.map_cons, List.pairwise_append, List.pairwise_cons]
      at horder
    obtain ⟨hbefore, ⟨hafter, hlater⟩, hbetween⟩ := horder
    rw [hput, List.map_append, List.map_cons, List.pairwise_append, List.pairwise_cons]
    refine ⟨hbefore, ⟨hafter, hlater⟩, fun rect hrect => List.forall_mem_cons.mpr ⟨?_, ?_⟩⟩
    · exact hbetween rect hrect p.rect List.mem_cons_self
    · exact fun q hq => hbetween rect hrect q (List.mem_cons_of_mem _ hq)
  case front =>
    intro q hq hrow
    rcases (hold q).mp hq with rfl | hq
    · exact Nat.lt_of_le_of_lt hcolumn.le (Nat.lt_add_of_pos_right (hpos i C cell hcell))
    · exact Nat.lt_of_lt_of_le (h.front q (hrest q hq) hrow) (Nat.le_add_right _ _)
  case full =>
    intro r' hr' c hc
    rw [hcoverage, h.full r' hr' c hc, if_neg fun hin => hr'.ne hin.1]
  case passed =>
    intro c
    rw [hcoverage, h.passed c]
    split_ifs <;> omega
  case owners =>
    intro r' i' c' cell' hcell' hdone
    have hnew : p.taller ∈ (board.put m p.taller).flatten := (hold _).mpr (.inl rfl)
    by_cases hearlier : r' < r ∨ r' = r ∧ c' < C
    · obtain ⟨q, hq, hkey, hcovers⟩ := h.owners r' i' c' cell' hcell' hearlier
      rw [hflatten, List.mem_append, List.mem_cons] at hq
      rcases hq with hq | rfl | hq
      · exact ⟨q, (hold q).mpr (.inr (.inl hq)), hkey, hcovers⟩
      · exact ⟨q.taller, hnew, hkey, fun c hle hlt =>
          (taller_covers hbottom).mpr (.inl (hcovers c hle hlt))⟩
      · exact ⟨q, (hold q).mpr (.inr (.inr hq)), hkey, hcovers⟩
    · obtain rfl : r' = r := by omega
      have hindex := hcell.index_eq hcell' (hpos _ _ _ hcell') (by omega) (by omega)
      subst hindex
      obtain ⟨rfl, rfl⟩ := hcell.unique hcell'
      refine ⟨p.taller, hnew, howner, fun c hle hlt => (taller_covers hbottom).mpr (.inr ?_)⟩
      rw [hcolumn, hwidth]
      exact ⟨rfl, hle, hlt⟩

end

end

end IntoMarkdown.Docx
