import WordTiles.Proofs.Board.Machine

/-!
# Places and positions

A board keeps its cells one row after the other. The place of a cell is the number of cells before
it, and divided by the number of columns it gives the row and, as what remains, the column. Here it
is shown that this is a bijection between the places and the positions on the board which keeps the
order, and that nothing is lost when it is carried out on words of 64 bits and coordinates of 32
(`Board.placeOf_eq`, `Board.positionOf_ofNat`).

The main statements are

* `Board.positions_eq_flatMap`: the positions are listed row by row;
* `Board.addressing_exact`: addressing is a bijection.
-/

set_option autoImplicit false

namespace WordTiles

/-- In reading order, a position comes before those of the rows below it and before those further to
the right in its own row. -/
def Position.Before (p q : Position) : Prop := p.row < q.row ∨ p.row = q.row ∧ p.col < q.col

namespace Board

variable {b : Board} {p : Position} {k : Nat}

/-! ## The positions in their order -/

theorem length_positions (b : Board) : b.positions.length = b.cells.size := by
  rw [positions, List.length_map, List.length_range]

theorem getElem?_positions_eq_some_iff :
    b.positions[k]? = some p ↔ k < b.cells.size ∧ b.positionAt k = p := by
  rw [positions, List.getElem?_map, Option.map_eq_some_iff]
  constructor
  · rintro ⟨i, hi, hp⟩
    obtain ⟨hk, rfl⟩ := List.getElem?_eq_some_iff.mp hi
    rw [List.length_range] at hk
    rw [List.getElem_range] at hp
    exact ⟨hk, hp⟩
  · rintro ⟨hk, hp⟩
    exact ⟨k, List.getElem?_range hk, hp⟩

theorem positionAt_before {i j : Nat} (h : i < j) : (b.positionAt i).Before (b.positionAt j) := by
  have hi := Nat.div_add_mod i b.cols
  have hj := Nat.div_add_mod j b.cols
  rcases Nat.lt_or_eq_of_le (Nat.div_le_div_right (c := b.cols) (Nat.le_of_lt h)) with hrow | hrow
  · exact .inl (Int.ofNat_lt.mpr hrow)
  -- in one row, the remainders differ as the places do
  · refine .inr ⟨congrArg Nat.cast hrow, Int.ofNat_lt.mpr ?_⟩
    rw [hrow] at hi
    omega

theorem pairwise_positions (b : Board) : b.positions.Pairwise Position.Before :=
  List.pairwise_lt_range.map b.positionAt fun _ _ => positionAt_before

theorem count_positions (hb : b.Sized) (p : Position) :
    b.positions.count p = if b.InBounds p then 1 else 0 := by
  rw [(nodup_positions hb).count]
  simp only [mem_positions_iff hb]

/-- The place of a position is its place in the list of positions. -/
theorem getElem?_positions_iff (hb : b.Sized) : b.positions[k]? = some p ↔ b.index? p = some k := by
  rw [getElem?_positions_eq_some_iff, show b.cells.size = b.rows * b.cols from hb]
  constructor
  · rintro ⟨hk, rfl⟩
    exact index?_positionAt hk
  · intro hindex
    exact ⟨index?_lt hindex, positionAt_of_index? hindex⟩

theorem positionAt_add {row col : Nat} (hcol : col < b.cols) :
    b.positionAt (b.cols * row + col) = ⟨row, col⟩ := by
  have hcols : 0 < b.cols := Nat.zero_lt_of_lt hcol
  rw [positionAt, Nat.mul_add_div hcols, Nat.div_eq_of_lt hcol, Nat.add_zero, Nat.mul_add_mod,
    Nat.mod_eq_of_lt hcol]

/-- The positions are those of the first row, then those of the second, and so on. -/
theorem positions_eq_flatMap (hb : b.Sized) : b.positions =
    (List.range b.rows).flatMap fun (row : Nat) =>
      (List.range b.cols).map fun (col : Nat) => ⟨row, col⟩ := by
  rw [positions, show b.cells.size = b.rows * b.cols from hb, Nat.mul_comm]
  induction b.rows with
  | zero => rfl
  | succ rows ih =>
      have hrow : ∀ col ∈ List.range b.cols,
          b.positionAt (b.cols * rows + col) = ⟨rows, col⟩ := fun col hcol =>
        positionAt_add (List.mem_range.mp hcol)
      rw [Nat.mul_succ, List.range_add, List.map_append, ih, List.range_succ, List.flatMap_append,
        List.flatMap_singleton, List.map_map]
      exact congrArg _ (List.map_congr_left hrow)

/-! ## The cells at the positions -/

theorem getElem?_cells_of_index? (hb : b.Sized) (h : b.index? p = some k) :
    b.cells[k]? = some (b.stackAt p) := by
  rw [getElem?_cells hb, if_pos (index?_lt h), positionAt_of_index? h]

theorem length_pieces (b : Board) : b.pieces.length = b.pieceCount := by
  rw [pieces, pieceCount, List.length_flatten, List.sum_eq_foldl, List.foldl_map,
    Array.foldl_toList]

/-! ## Addressing in machine words -/

namespace Word

def times (v w : UInt64) : Except Halt UInt64 := (times? v w).elim (.error .overflow) .ok

/-- A coordinate as a word. Below zero the sign bit is repeated, which makes it a great word. -/
def ofCoordinate (i : Int32) : UInt64 := i.toInt64.toUInt64

theorem times_eq {v w : UInt64} (h : v.toNat * w.toNat < 2 ^ 64) :
    ∃ u, times v w = .ok u ∧ u.toNat = v.toNat * w.toNat := by
  obtain ⟨u, hu, hvalue⟩ := times?_eq h
  refine ⟨u, ?_, hvalue⟩
  rw [times, hu]
  rfl

theorem toNat_ofCoordinate {i : Int32} (h : 0 ≤ i.toInt) :
    (ofCoordinate i).toNat = i.toInt.toNat := by
  have hle : 0 ≤ i.toInt64 := by
    rw [Int64.le_iff_toInt_le, Int32.toInt_toInt64]
    exact h
  rw [ofCoordinate, Int64.toNat_toUInt64_of_le hle]
  exact Int32.toNatClampNeg_toInt64 i

end Word

/-- Whether coordinates are those of a cell of the board. -/
def fitsWords (rows cols : UInt64) (row col : Int32) : Bool :=
  decide (0 ≤ row) && decide (0 ≤ col) && decide (Word.ofCoordinate row < rows) &&
    decide (Word.ofCoordinate col < cols)

def placeOf (rows cols : UInt64) (row col : Int32) : Except Halt (Option UInt64) := do
  if fitsWords rows cols row col then
    let start ← Word.times (Word.ofCoordinate row) cols
    let place ← Word.plus start (Word.ofCoordinate col)
    return some place
  else return none

/-- Rows and columns that coordinates can count are words. -/
theorem Countable.toNat_words (hb : b.Countable) :
    (UInt64.ofNat b.rows).toNat = b.rows ∧ (UInt64.ofNat b.cols).toNat = b.cols :=
  ⟨UInt64.toNat_ofNat_of_lt' (Nat.lt_of_le_of_lt hb.rows_le (by decide)),
    UInt64.toNat_ofNat_of_lt' (Nat.lt_of_le_of_lt hb.cols_le (by decide))⟩

/-- The bounds of the board are the same for words. -/
theorem fitsWords_iff (hb : b.Countable) {row col : Int32} :
    fitsWords (.ofNat b.rows) (.ofNat b.cols) row col = true ↔
      b.InBounds ⟨row.toInt, col.toInt⟩ := by
  obtain ⟨hrows, hcols⟩ := hb.toNat_words
  have hzero : (0 : Int32).toInt = 0 := rfl
  simp only [fitsWords, Bool.and_eq_true, decide_eq_true_eq, Int32.le_iff_toInt_le, hzero,
    UInt64.lt_iff_toNat_lt, hrows, hcols, InBounds, Position.Within]
  constructor
  · rintro ⟨⟨⟨hr, hc⟩, hr'⟩, hc'⟩
    rw [Word.toNat_ofCoordinate hr] at hr'
    rw [Word.toNat_ofCoordinate hc] at hc'
    omega
  · rintro ⟨hr, hc, hr', hc'⟩
    rw [Word.toNat_ofCoordinate hr, Word.toNat_ofCoordinate hc]
    omega

/-- Whatever the coordinates, the place of their cell is found on words. -/
theorem placeOf_eq (hb : b.Countable) (row col : Int32) :
    placeOf (.ofNat b.rows) (.ofNat b.cols) row col =
      .ok ((b.index? ⟨row.toInt, col.toInt⟩).map .ofNat) := by
  by_cases hin : b.InBounds ⟨row.toInt, col.toInt⟩
  · obtain ⟨-, hcols⟩ := hb.toNat_words
    have hplace := index?_eq_some hin
    have hlt := index?_lt hplace
    have hsize : b.rows * b.cols ≤ 2 ^ 31 * 2 ^ 31 := Nat.mul_le_mul hb.rows_le hb.cols_le
    have hrow := Word.toNat_ofCoordinate hin.1
    have hcol := Word.toNat_ofCoordinate hin.2.1
    dsimp only at hlt
    obtain ⟨start, hstart, hstart'⟩ :=
      Word.times_eq (v := Word.ofCoordinate row) (w := .ofNat b.cols) (by rw [hrow, hcols]; omega)
    obtain ⟨place, hplus, hvalue⟩ :=
      Word.plus_eq (v := start) (w := Word.ofCoordinate col)
        (by rw [hstart', hrow, hcols, hcol]; omega)
    have hword : place = .ofNat (row.toInt.toNat * b.cols + col.toInt.toNat) := by
      rw [← UInt64.ofNat_toNat (x := place), hvalue, hstart', hrow, hcols, hcol]
    rw [placeOf, if_pos ((fitsWords_iff hb).mpr hin), hstart, hplace, Option.map_some, ← hword]
    exact congrArg (· >>= fun place => pure (some place)) hplus
  · rw [placeOf, if_neg (mt (fitsWords_iff hb).mp hin), index?_eq_none_iff.mpr hin]
    rfl

/-- Nothing of a position is cut off when it is found from a word. -/
theorem positionOf_ofNat (hb : b.Countable) (h : k < b.rows * b.cols) :
    positionOf (.ofNat b.cols) (.ofNat k) = .ok (b.positionAt k) := by
  obtain ⟨-, hcols⟩ := hb.toNat_words
  have hlt : k < 2 ^ 31 * b.cols :=
    Nat.lt_of_lt_of_le h (Nat.mul_le_mul_right b.cols hb.rows_le)
  have hk : (UInt64.ofNat k).toNat = k := by
    apply UInt64.toNat_ofNat_of_lt'
    calc k < 2 ^ 31 * b.cols := hlt
      _ ≤ 2 ^ 31 * 2 ^ 31 := Nat.mul_le_mul_left _ hb.cols_le
      _ ≤ UInt64.size := by decide
  have hpos : 0 < (UInt64.ofNat b.cols).toNat := hcols.symm ▸ hb.cols_pos
  have hle : (UInt64.ofNat b.cols).toNat ≤ 2 ^ 31 := hcols.symm ▸ hb.cols_le
  rw [positionOf_eq hpos hle (by rwa [hk, hcols]), hk, hcols]
  rfl

/-! ## The bijection -/

/-- **Addressing is a bijection.** Take rows and columns that there are and that coordinates can
count, and one cell for each of them.

* The positions on the board are listed once each, and no others; they are in reading order.
* The place of a position is its place in this list, and positions off the board have none.
* What stands at a position is the stack of its place. One position after the other, these are all
  pieces in reading order, and as many as are counted.
* Found on words, the places of all coordinates and the positions of all places are the same. -/
theorem addressing_exact {b : Board} (hb : b.Countable) (hsized : b.Sized) :
    ((∀ p, b.positions.count p = if b.InBounds p then 1 else 0) ∧
        b.positions.Pairwise Position.Before ∧ b.positions.length = b.rows * b.cols) ∧
      ((∀ (k : Nat) p, b.positions[k]? = some p ↔ b.index? p = some k) ∧
        ∀ p, b.index? p = none ↔ ¬ b.InBounds p) ∧
      ((∀ (k : Nat) p, b.positions[k]? = some p → b.cells[k]? = some (b.stackAt p)) ∧
        b.positions.flatMap b.stackAt = b.pieces ∧ b.pieces.length = b.pieceCount) ∧
      (∀ row col : Int32, placeOf (.ofNat b.rows) (.ofNat b.cols) row col =
        .ok ((b.index? ⟨row.toInt, col.toInt⟩).map .ofNat)) ∧
      ∀ (k : Nat) p, b.positions[k]? = some p → positionOf (.ofNat b.cols) (.ofNat k) = .ok p := by
  have hlength : b.positions.length = b.rows * b.cols := b.length_positions.trans hsized
  refine ⟨⟨count_positions hsized, b.pairwise_positions, hlength⟩,
    ⟨fun k p => getElem?_positions_iff hsized, fun p => index?_eq_none_iff⟩,
    ⟨?_, (pieces_eq_flatMap hsized).symm, b.length_pieces⟩, placeOf_eq hb, ?_⟩
  · intro k p hk
    exact getElem?_cells_of_index? hsized ((getElem?_positions_iff hsized).mp hk)
  · intro k p hk
    obtain ⟨hlt, rfl⟩ := getElem?_positions_eq_some_iff.mp hk
    exact positionOf_ofNat hb (Nat.lt_of_lt_of_eq hlt hsized)

/-- Two rows of three cells. Where the second row begins, a keke stands on a wall. -/
def twoByThree : Board :=
  ⟨2, 3, #[[], [], [⟨.ofNat 1, .thing .baba, ⟨0, 2⟩, .right⟩],
    [⟨.ofNat 2, .thing .wall, ⟨1, 0⟩, .up⟩, ⟨.ofNat 3, .thing .keke, ⟨1, 0⟩, .down⟩], [],
    [⟨.ofNat 4, .thing .rock, ⟨1, 2⟩, .left⟩]]⟩

/-- The second row begins at place three; there is no fourth column and no row above the first. -/
theorem addressing_twoByThree :
    (twoByThree.Countable ∧ twoByThree.Sized) ∧
      (twoByThree.positions.count ⟨1, 2⟩ = 1 ∧ twoByThree.positions.count ⟨2, 1⟩ = 0) ∧
      (twoByThree.positions[3]? = some ⟨1, 0⟩ ∧
        twoByThree.cells[3]? = some (twoByThree.stackAt ⟨1, 0⟩)) ∧
      (twoByThree.index? ⟨0, 3⟩ = none ∧ twoByThree.index? ⟨-1, 0⟩ = none) ∧
      placeOf 2 3 1 0 = .ok (some 3) ∧ placeOf 2 3 (-1) 0 = .ok none := by
  have hcountable : twoByThree.Countable := ⟨by decide, by decide, by decide, by decide⟩
  have hsized : twoByThree.Sized := rfl
  obtain ⟨⟨hcount, -, -⟩, ⟨hplace, hnone⟩, ⟨hcell, -, -⟩, hwords, -⟩ :=
    addressing_exact hcountable hsized
  have hthird : twoByThree.positions[3]? = some ⟨1, 0⟩ := (hplace 3 _).mpr (by decide)
  refine ⟨⟨hcountable, hsized⟩, ⟨(hcount _).trans (if_pos (by decide)),
    (hcount _).trans (if_neg (by decide))⟩, ⟨hthird, hcell 3 _ hthird⟩,
    ⟨(hnone _).mpr (by decide), (hnone _).mpr (by decide)⟩, ?_, ?_⟩
  · exact (hwords 1 0).trans (congrArg (fun place => Except.ok (place.map UInt64.ofNat))
      ((hplace 3 _).mp hthird))
  · exact (hwords (-1) 0).trans (congrArg (fun place => Except.ok (place.map UInt64.ofNat))
      ((hnone ⟨-1, 0⟩).mpr (by decide)))

end Board

end WordTiles
