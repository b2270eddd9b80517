import WordTiles.Board.Basic

/-!
# The cells of a board by their positions

A board with one cell for each row and column is the function from positions to stacks that
`Board.stackAt` gives. The main statements are

* `mem_positions_iff`: the positions listed are those on the board;
* `stackAt_modifyAt`: changing a stack changes the one at its position and no other;
* `eq_of_stackAt`: boards of one size with the same stacks are equal;
* `pieces_eq_flatMap`: reading the stacks by position gives all pieces in reading order;
* `not_inBounds_advance`: how far a line on the board can reach.
-/

set_option autoImplicit false

namespace WordTiles.Board

/-! ## Places and positions -/

theorem index?_eq_some {b : Board} {p : Position} (h : b.InBounds p) :
    b.index? p = some (p.row.toNat * b.cols + p.col.toNat) := by
  simp [index?, h]

/-- A place among the cells is a row number and a column number. -/
theorem index_lt {rows cols r c : Nat} (hr : r < rows) (hc : c < cols) :
    r * cols + c < rows * cols := by
  have h : (r + 1) * cols ≤ rows * cols := Nat.mul_le_mul_right cols hr
  rw [Nat.add_mul, Nat.one_mul] at h
  omega

theorem index?_lt {b : Board} {p : Position} {i : Nat} (h : b.index? p = some i) :
    i < b.rows * b.cols := by
  by_cases hp : b.InBounds p
  · rw [index?_eq_some hp, Option.some.injEq] at h
    obtain ⟨hr, hc, hr', hc'⟩ := hp
    rw [← h]
    exact index_lt (by omega) (by omega)
  · rw [index?_eq_none_iff.mpr hp] at h
    simp at h

theorem inBounds_positionAt {b : Board} {i : Nat} (h : i < b.rows * b.cols) :
    b.InBounds (b.positionAt i) := by
  have hcols : 0 < b.cols := by
    rcases Nat.eq_zero_or_pos b.cols with h0 | h0
    · rw [h0, Nat.mul_zero] at h
      exact absurd h (Nat.not_lt_zero i)
    · exact h0
  have hrow : i / b.cols < b.rows := Nat.div_lt_of_lt_mul (by rw [Nat.mul_comm]; exact h)
  have hcol : i % b.cols < b.cols := Nat.mod_lt i hcols
  exact Position.within_natCast hrow hcol

theorem index?_positionAt {b : Board} {i : Nat} (h : i < b.rows * b.cols) :
    b.index? (b.positionAt i) = some i := by
  rw [index?_eq_some (inBounds_positionAt h)]
  show some (i / b.cols * b.cols + i % b.cols) = some i
  rw [Nat.mul_comm, Nat.div_add_mod]

theorem positionAt_of_index? {b : Board} {p : Position} {i : Nat} (h : b.index? p = some i) :
    b.positionAt i = p := by
  by_cases hp : b.InBounds p
  · rw [index?_eq_some hp, Option.some.injEq] at h
    obtain ⟨hr, hc, hr', hc'⟩ := hp
    have hlt : p.col.toNat < b.cols := by omega
    have hpos : 0 < b.cols := by omega
    have hdiv : i / b.cols = p.row.toNat := by
      rw [← h, Nat.mul_comm, Nat.mul_add_div hpos, Nat.div_eq_of_lt hlt, Nat.add_zero]
    have hmod : i % b.cols = p.col.toNat := by
      rw [← h, Nat.mul_comm, Nat.mul_add_mod, Nat.mod_eq_of_lt hlt]
    cases p
    simp only [positionAt, hdiv, hmod, Position.mk.injEq]
    simp only at hr hc
    omega
  · rw [index?_eq_none_iff.mpr hp] at h
    simp at h

theorem index?_inj {b : Board} {p q : Position} {i : Nat} (hp : b.index? p = some i)
    (hq : b.index? q = some i) : p = q := by
  rw [← positionAt_of_index? hp, positionAt_of_index? hq]

theorem mem_positions_iff {b : Board} (hb : b.Sized) {p : Position} :
    p ∈ b.positions ↔ b.InBounds p := by
  simp only [positions, List.mem_map, List.mem_range]
  rw [show b.cells.size = b.rows * b.cols from hb]
  constructor
  · rintro ⟨i, hi, rfl⟩
    exact inBounds_positionAt hi
  · intro hp
    exact ⟨_, index?_lt (index?_eq_some hp), positionAt_of_index? (index?_eq_some hp)⟩

/-! ## Stacks -/

theorem stackAt_of_not_inBounds {b : Board} {p : Position} (h : ¬ b.InBounds p) :
    b.stackAt p = [] := by
  simp [stackAt, cell?, index?_eq_none_iff.mpr h]

theorem stackAt_of_index? {b : Board} {p : Position} {i : Nat} (h : b.index? p = some i) :
    b.stackAt p = (b.cells[i]?).getD [] := by
  simp [stackAt, cell?, h]

/-- The stacks among the cells are those at the positions of their places. -/
theorem getElem?_cells {b : Board} (hb : b.Sized) (i : Nat) :
    b.cells[i]? = if i < b.rows * b.cols then some (b.stackAt (b.positionAt i)) else none := by
  have hlen : b.cells.size = b.rows * b.cols := hb
  by_cases h : i < b.rows * b.cols
  · rw [if_pos h, stackAt_of_index? (index?_positionAt h),
      Array.getElem?_eq_getElem (by rw [hlen]; exact h)]
    rfl
  · rw [if_neg h, Array.getElem?_eq_none (by rw [hlen]; omega)]

theorem index?_modifyAt (b : Board) (p q : Position) (f : Stack → Stack) :
    (b.modifyAt p f).index? q = b.index? q := by
  simp only [index?, InBounds, rows_modifyAt, cols_modifyAt]

theorem inBounds_modifyAt (b : Board) (p q : Position) (f : Stack → Stack) :
    (b.modifyAt p f).InBounds q ↔ b.InBounds q := by
  simp only [InBounds, rows_modifyAt, cols_modifyAt]

theorem sized_modifyAt {b : Board} (hb : b.Sized) (p : Position) (f : Stack → Stack) :
    (b.modifyAt p f).Sized := by
  show (b.modifyAt p f).cells.size = _
  rw [size_cells_modifyAt, rows_modifyAt, cols_modifyAt]
  exact hb

/-- Changing the stack at a position changes that stack and no other. -/
theorem stackAt_modifyAt {b : Board} (hb : b.Sized) (p q : Position) (f : Stack → Stack) :
    (b.modifyAt p f).stackAt q =
      if p = q ∧ b.InBounds p then f (b.stackAt q) else b.stackAt q := by
  by_cases hq : b.InBounds q
  · have hj := index?_eq_some hq
    have hlt := index?_lt hj
    rw [stackAt_of_index? (by rw [index?_modifyAt]; exact hj)]
    by_cases hp : b.InBounds p
    · have hi := index?_eq_some hp
      simp only [modifyAt, hi, Array.getElem?_modify]
      rw [getElem?_cells hb, if_pos hlt, positionAt_of_index? hj]
      by_cases hpq : p = q
      · subst hpq
        simp [hp]
      · have hne : p.row.toNat * b.cols + p.col.toNat ≠ q.row.toNat * b.cols + q.col.toNat :=
          fun h => hpq (index?_inj hi (by rw [hj, h]))
        simp [hpq, hne]
    · simp only [modifyAt, index?_eq_none_iff.mpr hp]
      rw [if_neg (fun h => hp h.2), stackAt_of_index? hj]
  · rw [stackAt_of_not_inBounds (by rw [inBounds_modifyAt]; exact hq),
      stackAt_of_not_inBounds hq, if_neg]
    rintro ⟨rfl, hp⟩
    exact hq hp

/-- A board with one cell for each row and column is known by its size and its stacks. -/
theorem eq_of_stackAt {b b' : Board} (hb : b.Sized) (hb' : b'.Sized) (hrows : b.rows = b'.rows)
    (hcols : b.cols = b'.cols) (h : ∀ p, b.InBounds p → b.stackAt p = b'.stackAt p) :
    b = b' := by
  have hcells : b.cells = b'.cells := by
    apply Array.ext_getElem?
    intro i
    rw [getElem?_cells hb, getElem?_cells hb', ← hrows, ← hcols]
    by_cases hi : i < b.rows * b.cols
    · have hpos : b'.positionAt i = b.positionAt i := by simp only [positionAt, hcols]
      rw [if_pos hi, if_pos hi, h _ (inBounds_positionAt hi), hpos]
    · rw [if_neg hi, if_neg hi]
  cases b
  cases b'
  simp only at hrows hcols hcells
  simp only [hrows, hcols, hcells]

/-- Reading the stacks position by position gives all cells. -/
theorem map_stackAt_positions {b : Board} (hb : b.Sized) :
    b.positions.map b.stackAt = b.cells.toList := by
  have hlen : b.cells.size = b.rows * b.cols := hb
  apply List.ext_getElem?
  intro i
  rw [(Array.getElem?_toList : b.cells.toList[i]? = b.cells[i]?), getElem?_cells hb, positions,
    List.map_map, List.getElem?_map, hlen]
  by_cases hi : i < b.rows * b.cols
  · rw [if_pos hi, List.getElem?_range hi]
    rfl
  · rw [if_neg hi, List.getElem?_eq_none (by rw [List.length_range]; omega)]
    rfl

/-- Reading the stacks position by position gives all pieces, in the same order. -/
theorem pieces_eq_flatMap {b : Board} (hb : b.Sized) :
    b.pieces = b.positions.flatMap b.stackAt := by
  rw [pieces, ← map_stackAt_positions hb, List.flatMap_def]

/-! ## The empty board -/

theorem sized_empty (rows cols : Nat) : (empty rows cols).Sized := by
  simp [Sized, empty]

theorem stackAt_empty (rows cols : Nat) (p : Position) : (empty rows cols).stackAt p = [] := by
  by_cases h : (empty rows cols).InBounds p
  · have hlt := index?_lt (index?_eq_some h)
    rw [stackAt_of_index? (index?_eq_some h)]
    simp only [empty] at hlt ⊢
    rw [Array.getElem?_replicate, if_pos hlt]
    rfl
  · exact stackAt_of_not_inBounds h

/-! ## Lines -/

/-- Two positions are one cell of the board, or neither of them is on it. -/
def SameCell (b : Board) (p q : Position) : Prop := p = q ∨ ¬ b.InBounds p ∧ ¬ b.InBounds q

theorem SameCell.inBounds_iff {b : Board} {p q : Position} (h : b.SameCell p q) :
    b.InBounds p ↔ b.InBounds q := by
  rcases h with rfl | ⟨hp, hq⟩
  · rfl
  · exact iff_of_false hp hq

theorem SameCell.stackAt_eq {b : Board} {p q : Position} (h : b.SameCell p q) :
    b.stackAt p = b.stackAt q := by
  rcases h with rfl | ⟨hp, hq⟩
  · rfl
  · rw [stackAt_of_not_inBounds hp, stackAt_of_not_inBounds hq]

/-- A position on the board is one cell with no other position. -/
theorem SameCell.eq {b : Board} {p q : Position} (h : b.SameCell p q) (hq : b.InBounds q) :
    p = q :=
  h.resolve_right fun hout => hout.2 hq

/-- One row and one column more than the board has lead off it from any neighbour of a
position on it. -/
theorem not_inBounds_advance {b : Board} {p : Position} {d : Direction}
    (h : b.InBounds (p.step d)) : ¬ b.InBounds (p.advance d (b.rows + b.cols + 1)) := by
  rintro ⟨g1, g2, g3, g4⟩
  obtain ⟨h1, h2, h3, h4⟩ := h
  cases d <;>
    simp only [Position.step, Position.advance, Direction.rowStep, Direction.colStep] at * <;>
    omega

end WordTiles.Board
