import WordTiles.Game
import WordTiles.Proofs.Board.Editing

/-!
# Boards of levels

A level is accepted exactly when it is regular (`Level.Regular`), and then loading puts all its
pieces down: every stack of the board is the stack of specifications in that cell. Loading goes
through the cells once more and asks for the position of each (`Level.loadByCells`), and the board
that it gives is checked once more before a game starts on it; neither finds anything that the first
check has not found.

The main statement is `Level.load_agrees`.
-/

set_option autoImplicit false

namespace WordTiles

/-! ## Putting pieces down -/

namespace Board

variable {b b' : Board} {x : Piece} {xs : List Piece}

/-- Pieces that are put down one after the other add their identities. -/
theorem Orderly.exchanges_foldlM_place (hb : b.Orderly) (h : xs.foldlM Board.place b = .ok b') :
    b.Exchanges b' (idsOf xs) 0 := by
  induction xs generalizing b with
  | nil =>
      cases h
      exact .refl hb
  | cons x rest ih =>
      rw [List.foldlM_cons] at h
      cases hx : b.place x with
      | error e =>
          rw [hx] at h
          cases h
      | ok next =>
          rw [hx] at h
          have hnext := hb.place hx
          exact hnext.trans (ih hnext.orderly h)

/-- Pieces whose positions are on the board can all be put down, each on top of its stack. -/
theorem exists_foldlM_place (hb : b.Sized) (h : ∀ x ∈ xs, b.InBounds x.position) :
    ∃ b', xs.foldlM place b = .ok b' ∧
      ∀ p, b'.stackAt p = b.stackAt p ++ xs.filter (·.position = p) := by
  induction xs generalizing b with
  | nil => exact ⟨b, rfl, fun p => (List.append_nil _).symm⟩
  | cons x rest ih =>
      obtain ⟨hx, hrest⟩ := List.forall_mem_cons.mp h
      let next := b.modifyAt x.position (· ++ [x])
      have hplace : b.place x = .ok next := by
        rw [place, if_pos hx]
      obtain ⟨b', hb', hstack⟩ := ih (b := next) (sized_modifyAt hb ..) fun y hy =>
        (inBounds_modifyAt ..).mpr (hrest y hy)
      refine ⟨b', by rw [List.foldlM_cons, hplace]; exact hb', fun p => ?_⟩
      rw [hstack, stackAt_modifyAt hb]
      -- the piece is on top of its own stack, and those that come later are put on top of it
      by_cases hp : x.position = p
      · rw [if_pos ⟨hp, hx⟩, List.filter_cons_of_pos (by simpa using hp), List.append_assoc]
        rfl
      · rw [if_neg fun h => hp h.1, List.filter_cons_of_neg (by simpa using hp)]

end Board

namespace Level

variable {l : Level} {row col : Nat} {p : Position} {spec : PieceSpec}
  {stack : List PieceSpec} {fault : Malformed} {fresh : Nat → PieceId}

/-! ## The cells of a level -/

/-- The stack of specifications at a row and a column. -/
def cell? (l : Level) (row col : Nat) : Option (List PieceSpec) := l.cells[row]?.bind (·[col]?)

theorem cell?_eq_some_iff :
    l.cell? row col = some stack ↔ ∃ cells, l.cells[row]? = some cells ∧ cells[col]? = some stack :=
  Option.bind_eq_some_iff

theorem mem_placements_iff :
    (p, spec) ∈ l.placements ↔
      ∃ row col stack, l.cell? row col = some stack ∧ spec ∈ stack ∧ p = ⟨row, col⟩ := by
  simp only [placements, List.mem_flatMap, List.mem_map, Prod.mk.injEq, Prod.exists,
    List.mk_mem_zipIdx_iff_getElem?, cell?_eq_some_iff]
  constructor
  · rintro ⟨cells, row, hrow, stack, col, hcol, spec, hspec, rfl, rfl⟩
    exact ⟨row, col, stack, ⟨cells, hrow, hcol⟩, hspec, rfl⟩
  · rintro ⟨row, col, stack, ⟨cells, hrow, hcol⟩, hspec, rfl⟩
    exact ⟨cells, row, hrow, stack, col, hcol, spec, hspec, rfl, rfl⟩

/-- A level with rows and columns that coordinates can count, whose rows all have one width, and in
which every position that is declared is that of the cell. -/
structure Regular (l : Level) : Prop where
  rows_pos : 0 < l.rows
  cols_pos : 0 < l.cols
  rows_le : l.rows ≤ Position.greatest + 1
  cols_le : l.cols ≤ Position.greatest + 1
  length_eq : ∀ cells ∈ l.cells, cells.length = l.cols
  declared_eq : ∀ placed ∈ l.placements, ∀ declared ∈ placed.2.position, declared = placed.1

/-- A cell is in a row and a column of the level. -/
theorem Regular.lt_of_cell? (hl : l.Regular) (h : l.cell? row col = some stack) :
    row < l.rows ∧ col < l.cols := by
  obtain ⟨cells, hrow, hcol⟩ := cell?_eq_some_iff.mp h
  obtain ⟨hrowlt, -⟩ := List.getElem?_eq_some_iff.mp hrow
  obtain ⟨hcollt, -⟩ := List.getElem?_eq_some_iff.mp hcol
  rw [hl.length_eq cells (List.mem_of_getElem? hrow)] at hcollt
  exact ⟨hrowlt, hcollt⟩

/-- Every row and column of the level have a cell. -/
theorem Regular.exists_cell? (hl : l.Regular) (hrow : row < l.rows) (hcol : col < l.cols) :
    ∃ stack, l.cell? row col = some stack := by
  have hcells : l.cells[row]? = some l.cells[row] := List.getElem?_eq_getElem hrow
  have hlength := hl.length_eq _ (List.getElem_mem hrow)
  rw [← hlength] at hcol
  exact ⟨_, cell?_eq_some_iff.mpr ⟨_, hcells, List.getElem?_eq_getElem hcol⟩⟩

/-- Specifications are put down on the board. -/
theorem Regular.within_of_mem (hl : l.Regular) (h : (p, spec) ∈ l.placements) :
    p.Within l.rows l.cols := by
  obtain ⟨row, col, stack, hcell, -, rfl⟩ := mem_placements_iff.mp h
  obtain ⟨hrow, hcol⟩ := hl.lt_of_cell? hcell
  exact Position.within_natCast hrow hcol

/-! ## The decision -/

theorem specFault?_eq_none_iff (hrow : row < l.rows) (hcol : col < l.cols) :
    l.specFault? row col spec = none ↔ ∀ declared ∈ spec.position, declared = ⟨row, col⟩ := by
  have hwithin := Position.within_natCast hrow hcol
  rw [specFault?]
  cases spec.position with
  | none => exact iff_of_true rfl fun declared h => nomatch h
  | some declared =>
      by_cases hcell : declared = ⟨row, col⟩
      · simp [hcell, hwithin]
      -- a position of another cell is a fault, whether it is on the level or not
      · refine iff_of_false ?_ fun h => hcell (h declared rfl)
        by_cases hon : declared.Within l.rows l.cols
        · simp [hon, hcell]
        · simp [hon]

theorem rowFault?_eq_none_iff {cells : List (List PieceSpec)} (hrow : row < l.rows) :
    l.rowFault? row cells = none ↔
      cells.length = l.cols ∧ ∀ (stack : List PieceSpec) (col : Nat), cells[col]? = some stack →
        ∀ spec ∈ stack, ∀ declared ∈ spec.position, declared = ⟨row, col⟩ := by
  rw [rowFault?]
  split
  next hlength => exact iff_of_false nofun fun h => hlength h.1
  next hlength =>
    rw [not_not] at hlength
    simp only [List.findSome?_eq_none_iff, Prod.forall, List.mk_mem_zipIdx_iff_getElem?, hlength,
      true_and]
    refine forall₃_congr fun stack col hstack => forall₂_congr fun spec _ => ?_
    obtain ⟨hcol, -⟩ := List.getElem?_eq_some_iff.mp hstack
    exact specFault?_eq_none_iff hrow (hlength ▸ hcol)

/-- No fault is found exactly when all rows have one width and all declared positions are right. -/
theorem findSome?_rowFault?_eq_none_iff :
    (l.cells.zipIdx.findSome? fun (cells, row) => l.rowFault? row cells) = none ↔
      (∀ cells ∈ l.cells, cells.length = l.cols) ∧
        ∀ placed ∈ l.placements, ∀ declared ∈ placed.2.position, declared = placed.1 := by
  have hrows : (l.cells.zipIdx.findSome? fun (cells, row) => l.rowFault? row cells) = none ↔
      ∀ (cells : List (List PieceSpec)) (row : Nat), l.cells[row]? = some cells →
        cells.length = l.cols ∧ ∀ (stack : List PieceSpec) (col : Nat), cells[col]? = some stack →
          ∀ spec ∈ stack, ∀ declared ∈ spec.position, declared = ⟨row, col⟩ := by
    simp only [List.findSome?_eq_none_iff, Prod.forall, List.mk_mem_zipIdx_iff_getElem?]
    refine forall₃_congr fun cells row hcells => rowFault?_eq_none_iff ?_
    exact (List.getElem?_eq_some_iff.mp hcells).1
  rw [hrows]
  constructor
  · intro h
    refine ⟨fun cells hcells => ?_, fun ⟨p, spec⟩ hplaced declared hdeclared => ?_⟩
    · obtain ⟨row, hrow⟩ := List.mem_iff_getElem?.mp hcells
      exact (h cells row hrow).1
    · obtain ⟨row, col, stack, hcell, hspec, rfl⟩ := mem_placements_iff.mp hplaced
      obtain ⟨cells, hrow, hcol⟩ := cell?_eq_some_iff.mp hcell
      exact (h cells row hrow).2 stack col hcol spec hspec declared hdeclared
  · rintro ⟨hlength, hdeclared⟩ cells row hrow
    refine ⟨hlength cells (List.mem_of_getElem? hrow), fun stack col hcol spec hspec => ?_⟩
    exact hdeclared (⟨row, col⟩, spec) (mem_placements_iff.mpr
      ⟨row, col, stack, cell?_eq_some_iff.mpr ⟨cells, hrow, hcol⟩, hspec, rfl⟩)

/-- The levels that are accepted are the regular ones. -/
theorem validate_eq_ok_iff {size : Nat × Nat} :
    l.validate = .ok size ↔ l.Regular ∧ size = (l.rows, l.cols) := by
  constructor
  · intro h
    rw [validate] at h
    split at h
    · cases h
    split at h
    · cases h
    split at h
    · cases h
    next hempty hfits _ hnone =>
      cases h
      rw [Position.isNone_ofIndices?_iff, not_not] at hfits
      obtain ⟨hlength, hdeclared⟩ := findSome?_rowFault?_eq_none_iff.mp hnone
      exact ⟨⟨by omega, by omega, by omega, by omega, hlength, hdeclared⟩, rfl⟩
  · rintro ⟨⟨hrows, hcols, hrows', hcols', hlength, hdeclared⟩, rfl⟩
    rw [validate, if_neg (by omega), if_neg (by rw [Position.isNone_ofIndices?_iff]; omega),
      findSome?_rowFault?_eq_none_iff.mpr ⟨hlength, hdeclared⟩]

/-! ## Reading order -/

/-- Among numbered items only one has the number that is looked for. -/
theorem flatMap_zipIdx_eq {α β : Type} {g : α × Nat → List β} {i : Nat} (xs : List α)
    (hother : ∀ a k, k ≠ i → g (a, k) = []) :
    xs.zipIdx.flatMap g = (xs[i]?.map fun a => g (a, i)).getD [] := by
  suffices ∀ n, (xs.zipIdx n).flatMap g =
      if n ≤ i then (xs[i - n]?.map fun a => g (a, i)).getD [] else [] from this 0
  intro n
  induction xs generalizing n with
  | nil => simp
  | cons a xs ih =>
      rw [List.zipIdx_cons, List.flatMap_cons, ih]
      -- the first item comes before the one that is looked for, or is it, or comes after it
      rcases Nat.lt_trichotomy n i with hlt | rfl | hlt
      · obtain ⟨k, rfl⟩ := Nat.exists_eq_add_of_lt hlt
        rw [hother a n (by omega), if_pos (by omega), if_pos (by omega)]
        have hk : n + k + 1 - n = k + 1 := by omega
        have hk' : n + k + 1 - (n + 1) = k := by omega
        rw [hk, hk', List.getElem?_cons_succ]
        rfl
      · rw [if_neg (by omega), if_pos (Nat.le_refl n), Nat.sub_self, List.append_nil]
        rfl
      · rw [hother a n (by omega), if_neg (by omega), if_neg (by omega)]
        rfl

/-- The specifications that are put down in a cell are those of its stack, bottom to top. -/
theorem filter_placements (h : l.cell? row col = some stack) :
    l.placements.filter (·.1 = ⟨row, col⟩) = stack.map fun spec => (⟨row, col⟩, spec) := by
  obtain ⟨cells, hrow, hcol⟩ := cell?_eq_some_iff.mp h
  have hcell : ∀ (stack : List PieceSpec) (c : Nat), c ≠ col →
      (stack.map fun spec => ((⟨row, c⟩ : Position), spec)).filter (·.1 = ⟨row, col⟩) = [] := by
    intro stack c hc
    rw [List.filter_eq_nil_iff]
    intro placed hplaced
    obtain ⟨spec, -, rfl⟩ := List.mem_map.mp hplaced
    simp only [Position.mk.injEq, true_and, decide_eq_true_eq]
    omega
  have hline : ∀ (cells : List (List PieceSpec)) (r : Nat), r ≠ row →
      (cells.zipIdx.flatMap fun cell => cell.1.map fun spec =>
        ((⟨r, cell.2⟩ : Position), spec)).filter (·.1 = ⟨row, col⟩) = [] := by
    intro cells r hr
    rw [List.filter_eq_nil_iff]
    intro placed hplaced
    obtain ⟨⟨stack, c⟩, -, hplaced⟩ := List.mem_flatMap.mp hplaced
    obtain ⟨spec, -, rfl⟩ := List.mem_map.mp hplaced
    simp only [Position.mk.injEq, decide_eq_true_eq]
    omega
  rw [placements, List.filter_flatMap, flatMap_zipIdx_eq _ hline, hrow]
  -- what is left is the row, of which only the cell is left
  show List.filter _ _ = _
  rw [List.filter_flatMap, flatMap_zipIdx_eq _ hcell, hcol]
  show List.filter _ _ = _
  rw [List.filter_eq_self]
  simp

/-! ## Loading -/

/-- What a level says of a piece: its kind, its position and its direction. -/
def described (x : Piece) : Kind × Position × Direction := (x.kind, x.position, x.facing)

/-- What loading makes of a specification that is put down at a position, but for the identity. -/
def descriptionAt (p : Position) (spec : PieceSpec) : Kind × Position × Direction :=
  (spec.kind, p, spec.facing.getD Direction.right)

theorem map_described_pieces (l : Level) (fresh : Nat → PieceId) :
    (l.pieces fresh).map described = l.placements.map fun placed =>
      descriptionAt placed.1 placed.2 := by
  rw [pieces, List.map_map]
  conv_rhs => rw [← List.zipIdx_map_fst 0 l.placements, List.map_map]
  rfl

theorem map_id_pieces (l : Level) (fresh : Nat → PieceId) :
    (l.pieces fresh).map (·.id) = (List.range l.placements.length).map fresh := by
  rw [pieces, List.map_map, List.range_eq_range', ← List.zipIdx_map_snd 0 l.placements,
    List.map_map]
  rfl

/-- The pieces of a cell are as the specifications of its stack describe them. -/
theorem map_described_filter_pieces (h : l.cell? row col = some stack) :
    ((l.pieces fresh).filter (·.position = ⟨row, col⟩)).map described =
      stack.map (descriptionAt ⟨row, col⟩) := by
  calc
    ((l.pieces fresh).filter (·.position = ⟨row, col⟩)).map described
      = ((l.pieces fresh).map described).filter (·.2.1 = ⟨row, col⟩) := by
        rw [List.filter_map]
        rfl
    _ = (l.placements.filter (·.1 = ⟨row, col⟩)).map fun placed =>
          descriptionAt placed.1 placed.2 := by
        rw [map_described_pieces, List.filter_map]
        rfl
    _ = stack.map (descriptionAt ⟨row, col⟩) := by
        rw [filter_placements h, List.map_map]
        rfl

theorem within_of_mem_pieces (hl : l.Regular) {x : Piece} (hx : x ∈ l.pieces fresh) :
    x.position.Within l.rows l.cols := by
  have hmem : described x ∈ (l.pieces fresh).map described := List.mem_map_of_mem hx
  rw [map_described_pieces] at hmem
  obtain ⟨⟨p, spec⟩, hplaced, heq⟩ := List.mem_map.mp hmem
  have hp : p = x.position := congrArg (fun d => d.2.1) heq
  rw [← hp]
  exact hl.within_of_mem hplaced

/-- The pieces of a regular level can all be put down. -/
theorem Regular.exists_load (hl : l.Regular) (fresh : Nat → PieceId) :
    ∃ b, l.load fresh = .ok b ∧
      (Board.empty l.rows l.cols).Exchanges b (Board.idsOf (l.pieces fresh)) 0 ∧
      ∀ p, b.stackAt p = (l.pieces fresh).filter (·.position = p) := by
  have hvalid : l.validate = .ok (l.rows, l.cols) := validate_eq_ok_iff.mpr ⟨hl, rfl⟩
  have hwithin : ∀ x ∈ l.pieces fresh, (Board.empty l.rows l.cols).InBounds x.position :=
    fun x hx => within_of_mem_pieces hl hx
  obtain ⟨b, hb, hstack⟩ := Board.exists_foldlM_place (Board.sized_empty ..) hwithin
  refine ⟨b, by rw [load, hvalid]; exact hb,
    (Board.orderly_empty ..).exchanges_foldlM_place hb, fun p => ?_⟩
  rw [hstack, Board.stackAt_empty, List.nil_append]

/-- Only regular levels are loaded. -/
theorem regular_of_load {b : Board} (h : l.load fresh = .ok b) : l.Regular := by
  cases hvalid : l.validate with
  | error fault =>
      rw [load, hvalid] at h
      cases h
  | ok size => exact (validate_eq_ok_iff.mp hvalid).1

/-- The board of a level has its rows and columns. -/
theorem size_of_load {b : Board} (h : l.load fresh = .ok b) :
    b.rows = l.rows ∧ b.cols = l.cols := by
  obtain ⟨b', hb', hexchanges, -⟩ := (regular_of_load h).exists_load fresh
  cases h.symm.trans hb'
  exact ⟨hexchanges.rows_eq, hexchanges.cols_eq⟩

/-- If the identities that the level draws differ, its board is valid. -/
theorem valid_of_load {b : Board} (h : l.load fresh = .ok b)
    (hfresh : ∀ i < l.placements.length, ∀ j < l.placements.length, fresh i = fresh j → i = j) :
    b.Valid := by
  have hl := regular_of_load h
  obtain ⟨b', hb', hexchanges, -⟩ := hl.exists_load fresh
  cases h.symm.trans hb'
  have hdistinct : ((l.pieces fresh).map (·.id)).Nodup := by
    rw [map_id_pieces]
    apply List.Nodup.map_on _ List.nodup_range
    intro i hi j hj
    exact hfresh i (List.mem_range.mp hi) j (List.mem_range.mp hj)
  have hids := hexchanges.ids_eq
  rw [Board.ids_empty, zero_add, add_zero] at hids
  have hnodup : b.ids.Nodup := hids ▸ Multiset.coe_nodup.mpr hdistinct
  exact hexchanges.valid hl.rows_pos hl.cols_pos hl.rows_le hl.cols_le hnodup

/-- The stacks of the board are those of the level. -/
theorem map_described_stackAt {b : Board} (h : l.load fresh = .ok b)
    (hcell : l.cell? row col = some stack) :
    (b.stackAt ⟨row, col⟩).map described = stack.map (descriptionAt ⟨row, col⟩) := by
  obtain ⟨b', hb', -, hstack⟩ := (regular_of_load h).exists_load fresh
  cases h.symm.trans hb'
  rw [hstack, map_described_filter_pieces hcell]

/-! ## Cell by cell

The board is filled cell by cell. The position of every cell is asked for again, and what is put
down gets the first identity that is not in use. -/

/-- A board that is being filled, and how many identities are in use. -/
abbrev Filling := Board × Nat

/-- Puts down what a specification describes. -/
def put (fresh : Nat → PieceId) (state : Filling) (placed : Position × PieceSpec) :
    Except BoardError Filling :=
  (state.1.place (placed.2.piece (fresh state.2) placed.1)).map (·, state.2 + 1)

/-- Fills a cell of a row, unless it has no position. -/
def fillCell (fresh : Nat → PieceId) (rows cols row : Nat) (state : Filling)
    (cell : List PieceSpec × Nat) : Except BoardError Filling :=
  match Position.ofIndices? row cell.2 with
  | none => .error (.malformed (.tooLarge rows cols))
  | some p => cell.1.foldlM (fun state spec => put fresh state (p, spec)) state

/-- Fills the cells of a row. -/
def fillRow (fresh : Nat → PieceId) (rows cols : Nat) (state : Filling)
    (line : List (List PieceSpec) × Nat) : Except BoardError Filling :=
  line.1.zipIdx.foldlM (fillCell fresh rows cols line.2) state

/-- The board that a level describes, filled cell by cell. -/
def loadByCells (l : Level) (fresh : Nat → PieceId) : Except BoardError Board :=
  match l.validate with
  | .error fault => .error (.malformed fault)
  | .ok (rows, cols) =>
    (l.cells.zipIdx.foldlM (fillRow fresh rows cols) (Board.empty rows cols, 0)).map Prod.fst

/-- Nested loops are one loop over all items, if each step goes through the items of its own. -/
theorem foldlM_flatMap_of_forall {α β σ ε : Type} {g : α → List β} {f : σ → β → Except ε σ}
    {step : σ → α → Except ε σ} {xs : List α} (h : ∀ a ∈ xs, ∀ s, step s a = (g a).foldlM f s)
    (s : σ) : xs.foldlM step s = (xs.flatMap g).foldlM f s := by
  induction xs generalizing s with
  | nil => rfl
  | cons a xs ih =>
      obtain ⟨ha, hrest⟩ := List.forall_mem_cons.mp h
      rw [List.foldlM_cons, List.flatMap_cons, List.foldlM_append, ha]
      exact bind_congr fun s' => ih hrest s'

/-- Counting the identities that are in use gives every specification the identity of its place. -/
theorem foldlM_put (fresh : Nat → PieceId) (ps : List (Position × PieceSpec)) (b : Board)
    (k : Nat) :
    (ps.foldlM (put fresh) (b, k)).map Prod.fst =
      ((ps.zipIdx k).map fun ((p, spec), k) => spec.piece (fresh k) p).foldlM Board.place b := by
  induction ps generalizing b k with
  | nil => rfl
  | cons placed ps ih =>
      rw [List.foldlM_cons, List.zipIdx_cons, List.map_cons, List.foldlM_cons, put]
      cases hplace : b.place (placed.2.piece (fresh k) placed.1) with
      | error e => rfl
      | ok next => exact ih next (k + 1)

/-- On a regular level every cell has its position. -/
theorem Regular.fillCell_eq (hl : l.Regular) (hcell : l.cell? row col = some stack)
    (state : Filling) :
    fillCell fresh l.rows l.cols row state (stack, col) =
      (stack.map fun spec => (⟨row, col⟩, spec)).foldlM (put fresh) state := by
  obtain ⟨hrow, hcol⟩ := hl.lt_of_cell? hcell
  have hrows := hl.rows_le
  have hcols := hl.cols_le
  have hp : Position.ofIndices? row col = some ⟨row, col⟩ := if_pos (by omega)
  rw [fillCell, hp, List.foldlM_map]

/-- Filling the cells one after the other is putting the pieces down one after the other. -/
theorem loadByCells_eq_load (l : Level) (fresh : Nat → PieceId) :
    l.loadByCells fresh = l.load fresh := by
  cases hvalid : l.validate with
  | error fault => rw [loadByCells, load, hvalid]
  | ok size =>
      obtain ⟨hl, rfl⟩ := validate_eq_ok_iff.mp hvalid
      have hline : ∀ line ∈ l.cells.zipIdx, ∀ state, fillRow fresh l.rows l.cols state line =
          (line.1.zipIdx.flatMap fun cell => cell.1.map fun spec =>
            ((⟨line.2, cell.2⟩ : Position), spec)).foldlM (put fresh) state := by
        rintro ⟨cells, row⟩ hcells state
        apply foldlM_flatMap_of_forall
        rintro ⟨stack, col⟩ hstack state
        apply hl.fillCell_eq
        exact cell?_eq_some_iff.mpr ⟨cells, List.mk_mem_zipIdx_iff_getElem?.mp hcells,
          List.mk_mem_zipIdx_iff_getElem?.mp hstack⟩
      -- rows of cells of specifications, in three loops, are the specifications in reading order
      rw [loadByCells, load, hvalid]
      show (l.cells.zipIdx.foldlM (fillRow fresh l.rows l.cols) _).map Prod.fst = _
      rw [foldlM_flatMap_of_forall hline, foldlM_put]
      rfl

/-! ## Loading and checking -/

/-- A game starts on the board of a level unless the level is not loaded. -/
theorem map_board_ofLevel
    (hfresh : ∀ i < l.placements.length, ∀ j < l.placements.length, fresh i = fresh j → i = j)
    (config : Config) : (Game.ofLevel l fresh config).map (·.board) = l.load fresh := by
  rw [Game.ofLevel]
  cases hload : l.load fresh with
  | error e => rfl
  | ok b =>
      have hvalid : b.validate = .ok () :=
        Board.validate_eq_ok_iff.mpr (valid_of_load hload hfresh)
      show (Game.ofBoard b config).map (·.board) = _
      rw [Game.ofBoard, hvalid]
      rfl

/-- A level is loaded exactly when it is accepted, with the size that was found, and refused for the
same fault. -/
theorem map_size_load (l : Level) (fresh : Nat → PieceId) :
    (l.load fresh).map (fun b => (b.rows, b.cols)) = l.validate.mapError .malformed := by
  cases hvalid : l.validate with
  | error fault =>
      rw [load, hvalid]
      rfl
  | ok size =>
      obtain ⟨hl, rfl⟩ := validate_eq_ok_iff.mp hvalid
      obtain ⟨b, hb, -⟩ := hl.exists_load fresh
      obtain ⟨hrows, hcols⟩ := size_of_load hb
      rw [hb, Except.map, hrows, hcols]
      rfl

/-- **Loading agrees with checking.** Suppose that the identities which a level draws differ. Going
through the cells again finds nothing wrong with their positions: it gives what putting all pieces
down gives. A level is loaded exactly when it is accepted, with the size that was found, and refused
for the same fault. A game can start on it exactly when it is loaded. And the board that is loaded
is valid, and has in each cell what the specifications there describe, in their order. -/
theorem load_agrees
    (hfresh : ∀ i < l.placements.length, ∀ j < l.placements.length, fresh i = fresh j → i = j)
    (config : Config) :
    l.loadByCells fresh = l.load fresh ∧
      (l.load fresh).map (fun b => (b.rows, b.cols)) = l.validate.mapError .malformed ∧
      (Game.ofLevel l fresh config).map (·.board) = l.load fresh ∧
      ∀ b, l.load fresh = .ok b → b.validate = .ok () ∧
        ∀ row < b.rows, ∀ col < b.cols, ∃ stack, l.cell? row col = some stack ∧
          (b.stackAt ⟨row, col⟩).map described = stack.map (descriptionAt ⟨row, col⟩) := by
  refine ⟨loadByCells_eq_load l fresh, map_size_load l fresh, map_board_ofLevel hfresh config,
    fun b hb => ⟨Board.validate_eq_ok_iff.mpr (valid_of_load hb hfresh), ?_⟩⟩
  intro row hrow col hcol
  obtain ⟨hrows, hcols⟩ := size_of_load hb
  obtain ⟨stack, hcell⟩ := (regular_of_load hb).exists_cell? (hrows ▸ hrow) (hcols ▸ hcol)
  exact ⟨stack, hcell, map_described_stackAt hb hcell⟩

/-- A tile with a key on top, which declares its position and faces up, and below them a baba. -/
def raisedKey : Level :=
  ⟨[[[⟨.tile "IS", none, none⟩, ⟨.thing .key, some ⟨0, 0⟩, some .up⟩]],
    [[⟨.thing .baba, none, none⟩]]]⟩

theorem load_raisedKey :
    (∀ i < 3, ∀ j < 3, PieceId.ofNat i = PieceId.ofNat j → i = j) ∧
      ∃ b, raisedKey.load PieceId.ofNat = .ok b ∧ b.rows = 2 ∧ b.cols = 1 ∧
        b.validate = .ok () ∧
        (b.stackAt ⟨0, 0⟩).map described =
          [(.tile "IS", ⟨0, 0⟩, .right), (.thing .key, ⟨0, 0⟩, .up)] := by
  have hfresh : ∀ i < 3, ∀ j < 3, PieceId.ofNat i = PieceId.ofNat j → i = j := by decide
  have hvalid : raisedKey.validate = .ok (2, 1) := by decide
  obtain ⟨-, -, -, hboard⟩ := load_agrees (l := raisedKey) hfresh {}
  obtain ⟨b, hb, -⟩ := (validate_eq_ok_iff.mp hvalid).1.exists_load PieceId.ofNat
  obtain ⟨hrows, hcols⟩ : b.rows = 2 ∧ b.cols = 1 := size_of_load hb
  obtain ⟨hok, hstacks⟩ := hboard b hb
  obtain ⟨stack, hcell, hstack⟩ := hstacks 0 (by omega) 0 (by omega)
  cases hcell
  exact ⟨hfresh, b, hb, hrows, hcols, hok, hstack⟩

end Level

end WordTiles
