import WordTiles.Proofs.Board.Fault

/-!
# Checking boards in machine words

The numbers of rows and columns that data give a board are words of 64 bits, and may be any such
words. Here the check of a board is carried out on them: every operation that a word may be too
small for, or for which a divisor may be zero, says so (`Board.Halt`), and coordinates keep the low
32 bits of a word only. Since each operation comes after the questions that make it harmless, the
check never breaks off, and it finds what `Board.validate` finds (`Board.checkWords_eq`).

The main statement is `Board.checkWords_exact`.
-/

set_option autoImplicit false

namespace WordTiles

namespace Board

/-- What ends a check before its end: an operation on words that has no result, or a fault of the
data. -/
inductive Halt where
  | underflow
  | overflow
  | zeroDivisor
  | fault (fault : Malformed)

variable {v w : UInt64}

/-! ## Operations on words -/

namespace Word

def minus (v w : UInt64) : Except Halt UInt64 := if w ≤ v then .ok (v - w) else .error .underflow

def plus (v w : UInt64) : Except Halt UInt64 :=
  if v.toNat + w.toNat < 2 ^ 64 then .ok (v + w) else .error .overflow

def times? (v w : UInt64) : Option UInt64 :=
  if v.toNat * w.toNat < 2 ^ 64 then some (v * w) else none

def quotient (v w : UInt64) : Except Halt UInt64 :=
  if w = 0 then .error .zeroDivisor else .ok (v / w)

def remainder (v w : UInt64) : Except Halt UInt64 :=
  if w = 0 then .error .zeroDivisor else .ok (v % w)

/-- The coordinate in the low 32 bits of a word. -/
def coordinate (v : UInt64) : Int := v.toUInt32.toInt32.toInt

theorem minus_eq (h : w.toNat ≤ v.toNat) :
    ∃ u, minus v w = .ok u ∧ u.toNat = v.toNat - w.toNat := by
  rw [← UInt64.le_iff_toNat_le] at h
  exact ⟨v - w, if_pos h, UInt64.toNat_sub_of_le v w h⟩

theorem plus_eq (h : v.toNat + w.toNat < 2 ^ 64) :
    ∃ u, plus v w = .ok u ∧ u.toNat = v.toNat + w.toNat := by
  refine ⟨v + w, if_pos h, ?_⟩
  rw [UInt64.toNat_add, Nat.mod_eq_of_lt h]

theorem times?_eq (h : v.toNat * w.toNat < 2 ^ 64) :
    ∃ u, times? v w = some u ∧ u.toNat = v.toNat * w.toNat := by
  refine ⟨v * w, if_pos h, ?_⟩
  rw [UInt64.toNat_mul, Nat.mod_eq_of_lt h]

theorem ne_zero_of_pos (h : 0 < w.toNat) : w ≠ 0 := by
  rintro rfl
  exact absurd h (by decide)

theorem quotient_eq (h : 0 < w.toNat) :
    ∃ u, quotient v w = .ok u ∧ u.toNat = v.toNat / w.toNat :=
  ⟨v / w, if_neg (ne_zero_of_pos h), UInt64.toNat_div v w⟩

theorem remainder_eq (h : 0 < w.toNat) :
    ∃ u, remainder v w = .ok u ∧ u.toNat = v.toNat % w.toNat :=
  ⟨v % w, if_neg (ne_zero_of_pos h), UInt64.toNat_mod v w⟩

/-- A word that a coordinate can hold is that coordinate. -/
theorem coordinate_eq (h : v.toNat < 2 ^ 31) : coordinate v = v.toNat := by
  have hlow : v.toUInt32.toNat = v.toNat := by
    rw [UInt64.toNat_toUInt32]
    exact Nat.mod_eq_of_lt (by omega)
  have hsign : 2 * v.toUInt32.toBitVec.toNat < 2 ^ 32 := by
    show 2 * v.toUInt32.toNat < 2 ^ 32
    omega
  show v.toUInt32.toBitVec.toInt = _
  rw [BitVec.toInt_eq_toNat_of_lt hsign]
  exact congrArg Nat.cast hlow

end Word

/-! ## The check -/

def positionOf (cols place : UInt64) : Except Halt Position := do
  let row ← Word.quotient place cols
  let col ← Word.remainder place cols
  return ⟨Word.coordinate row, Word.coordinate col⟩

/-- Checks a piece of a cell, and adds its identity to those that have been seen. -/
def checkPiece (cell : Position) (seen : Std.TreeSet PieceId) (x : Piece) :
    Except Halt (Std.TreeSet PieceId) :=
  if x.position ≠ cell then .error (.fault (.positionMismatch x.position cell))
  else if x.id ∈ seen then .error (.fault (.duplicate x.id))
  else .ok (seen.insert x.id)

/-- Checks the pieces of the next cell, and counts the cell. -/
def checkCell (cols : UInt64) (state : Std.TreeSet PieceId × UInt64) (s : Stack) :
    Except Halt (Std.TreeSet PieceId × UInt64) := do
  let next ← Word.plus state.2 1
  let cell ← positionOf cols state.2
  let seen ← s.foldlM (checkPiece cell) state.1
  return (seen, next)

def expectedCells (rows cols : UInt64) : Except Halt UInt64 := do
  if rows = 0 ∨ cols = 0 then throw (.fault .empty)
  let lastRow ← Word.minus rows 1
  let lastCol ← Word.minus cols 1
  if (Position.ofIndices? lastRow.toNat lastCol.toNat).isNone then
    throw (.fault (.tooLarge rows.toNat cols.toNat))
  match Word.times? rows cols with
  | none => throw (.fault (.tooLarge rows.toNat cols.toNat))
  | some expected => return expected

def checkWords (rows cols : UInt64) (cells : Array Stack) : Except Halt Unit := do
  let expected ← expectedCells rows cols
  if cells.size ≠ expected.toNat then
    throw (.fault (.cellCount expected.toNat cells.size))
  (fun _ => ()) <$> cells.toList.foldlM (checkCell cols) (∅, 0)

variable {rows cols place : UInt64} {cells : Array Stack}

/-! ## Reading the cells -/

/-- Rows and columns that coordinates can hold are not cut off. -/
theorem positionOf_eq (hcols : 0 < cols.toNat) (hcols' : cols.toNat ≤ 2 ^ 31)
    (hplace : place.toNat < 2 ^ 31 * cols.toNat) :
    positionOf cols place =
      .ok ⟨(place.toNat / cols.toNat : Nat), (place.toNat % cols.toNat : Nat)⟩ := by
  obtain ⟨row, hrow, hrow'⟩ := Word.quotient_eq (v := place) hcols
  obtain ⟨col, hcol, hcol'⟩ := Word.remainder_eq (v := place) hcols
  have hrowlt : row.toNat < 2 ^ 31 := by
    rw [hrow']
    exact Nat.div_lt_of_lt_mul (by rwa [Nat.mul_comm])
  have hcollt : col.toNat < 2 ^ 31 := by
    rw [hcol']
    exact Nat.lt_of_lt_of_le (Nat.mod_lt _ hcols) hcols'
  rw [positionOf, hrow, hcol, ← hrow', ← hcol', ← Word.coordinate_eq hrowlt,
    ← Word.coordinate_eq hcollt]
  rfl

/-- Checking the pieces of a cell finds their first fault. -/
theorem foldlM_checkPiece_eq (cell : Position) (seen : Std.TreeSet PieceId) (s : Stack) :
    s.foldlM (checkPiece cell) seen =
      (pieceFault? seen (s.map fun x => (cell, x))).elim
        (.ok (seenAfter seen (s.map fun x => (cell, x)))) (fun fault => .error (.fault fault)) := by
  induction s generalizing seen with
  | nil => rfl
  | cons x rest ih =>
      rw [List.foldlM_cons, List.map_cons, pieceFault?, checkPiece]
      split
      · rfl
      split
      · rfl
      · exact ih _

/-- Checking a cell finds the first fault of its pieces, and goes on to the next place. -/
theorem exists_checkCell_eq (hcols : 0 < cols.toNat) (hcols' : cols.toNat ≤ 2 ^ 31)
    (hplace : place.toNat < 2 ^ 31 * cols.toNat) (seen : Std.TreeSet PieceId) (s : Stack) :
    ∃ next : UInt64, next.toNat = place.toNat + 1 ∧
      checkCell cols (seen, place) s =
        (pieceFault? seen (placementsFrom cols.toNat place.toNat [s])).elim
          (.ok (seenAfter seen (placementsFrom cols.toNat place.toNat [s]), next))
          (fun fault => .error (.fault fault)) := by
  have hone : (1 : UInt64).toNat = 1 := rfl
  obtain ⟨next, hnext, hvalue⟩ := Word.plus_eq (v := place) (w := 1) (by omega)
  refine ⟨next, hvalue, ?_⟩
  rw [checkCell, hnext, positionOf_eq hcols hcols' hplace, placementsFrom_singleton]
  simp only [bind, Except.bind, foldlM_checkPiece_eq]
  cases pieceFault? seen _ <;> rfl

/-- Checking cells from a place on finds the first fault of their pieces, if there are no more cells
than can be counted. -/
theorem foldlM_checkCell_eq (hcols : 0 < cols.toNat) (hcols' : cols.toNat ≤ 2 ^ 31)
    (seen : Std.TreeSet PieceId) (place : UInt64) (cells : List Stack)
    (hplace : place.toNat + cells.length ≤ 2 ^ 31 * cols.toNat) :
    (fun _ => ()) <$> cells.foldlM (checkCell cols) (seen, place) =
      (pieceFault? seen (placementsFrom cols.toNat place.toNat cells)).elim (.ok ())
        (fun fault => .error (.fault fault)) := by
  induction cells generalizing seen place with
  | nil => rfl
  | cons s rest ih =>
      rw [List.length_cons] at hplace
      obtain ⟨next, hnext, hcell⟩ :=
        exists_checkCell_eq hcols hcols' (by omega : place.toNat < 2 ^ 31 * cols.toNat) seen s
      have hrest := ih (seenAfter seen (placementsFrom cols.toNat place.toNat [s])) next (by omega)
      rw [pieceFault?_placementsFrom_cons, ← hnext, List.foldlM_cons, hcell]
      cases pieceFault? seen (placementsFrom cols.toNat place.toNat [s]) with
      | some fault => rfl
      | none => exact hrest

/-! ## Reading the numbers of rows and columns -/

theorem expectedCells_of_empty (h : rows.toNat = 0 ∨ cols.toNat = 0) :
    expectedCells rows cols = .error (.fault .empty) := by
  have hzero : rows = 0 ∨ cols = 0 := by
    rwa [← UInt64.toNat_inj, ← UInt64.toNat_inj]
  rw [expectedCells, if_pos hzero]
  rfl

theorem expectedCells_of_pos (hrows : 0 < rows.toNat) (hcols : 0 < cols.toNat) :
    expectedCells rows cols =
      if (Position.ofIndices? (rows.toNat - 1) (cols.toNat - 1)).isNone then
        .error (.fault (.tooLarge rows.toNat cols.toNat))
      else match Word.times? rows cols with
        | none => .error (.fault (.tooLarge rows.toNat cols.toNat))
        | some expected => .ok expected := by
  obtain ⟨lastRow, hlastRow, hlastRow'⟩ := Word.minus_eq (v := rows) (w := 1) hrows
  obtain ⟨lastCol, hlastCol, hlastCol'⟩ := Word.minus_eq (v := cols) (w := 1) hcols
  have hzero : ¬ (rows = 0 ∨ cols = 0) :=
    not_or.mpr ⟨Word.ne_zero_of_pos hrows, Word.ne_zero_of_pos hcols⟩
  have hone : (1 : UInt64).toNat = 1 := rfl
  rw [expectedCells, if_neg hzero, hlastRow, hlastCol, ← hone, ← hlastRow', ← hlastCol']
  rfl

theorem expectedCells_of_tooLarge (hrows : 0 < rows.toNat) (hcols : 0 < cols.toNat)
    (h : 2 ^ 31 < rows.toNat ∨ 2 ^ 31 < cols.toNat) :
    expectedCells rows cols = .error (.fault (.tooLarge rows.toNat cols.toNat)) := by
  have hnone : (Position.ofIndices? (rows.toNat - 1) (cols.toNat - 1)).isNone = true :=
    (Position.isNone_ofIndices?_pred_iff hrows hcols).mpr h
  rw [expectedCells_of_pos hrows hcols, if_pos hnone]

/-- The product of rows and columns that coordinates can count is a word. -/
theorem Countable.expectedCells_eq (h : Countable ⟨rows.toNat, cols.toNat, cells⟩) :
    ∃ expected, expectedCells rows cols = .ok expected ∧
      expected.toNat = rows.toNat * cols.toNat := by
  obtain ⟨hrows, hcols, hrows', hcols'⟩ := h
  have hsome : ¬ (Position.ofIndices? (rows.toNat - 1) (cols.toNat - 1)).isNone = true :=
    Position.not_isNone_ofIndices?_pred hrows hcols hrows' hcols'
  have hproduct : rows.toNat * cols.toNat ≤ 2 ^ 31 * 2 ^ 31 := Nat.mul_le_mul hrows' hcols'
  obtain ⟨expected, hexpected, hvalue⟩ := Word.times?_eq (v := rows) (w := cols) (by omega)
  refine ⟨expected, ?_, hvalue⟩
  rw [expectedCells_of_pos hrows hcols, if_neg hsome, hexpected]

/-- The check on words finds what the check on numbers finds. -/
theorem checkWords_eq (rows cols : UInt64) (cells : Array Stack) :
    checkWords rows cols cells =
      (validate ⟨rows.toNat, cols.toNat, cells⟩).mapError Halt.fault := by
  by_cases hempty : rows.toNat = 0 ∨ cols.toNat = 0
  · rw [checkWords, expectedCells_of_empty hempty, validate_of_empty hempty]
    rfl
  have hrows : 0 < rows.toNat := by omega
  have hcols : 0 < cols.toNat := by omega
  by_cases hlarge : 2 ^ 31 < rows.toNat ∨ 2 ^ 31 < cols.toNat
  · rw [checkWords, expectedCells_of_tooLarge hrows hcols hlarge,
      validate_of_tooLarge hrows hcols hlarge]
    rfl
  have hcountable : Countable ⟨rows.toNat, cols.toNat, cells⟩ :=
    ⟨hrows, hcols, by dsimp only; omega, by dsimp only; omega⟩
  obtain ⟨expected, hexpected, hvalue⟩ := hcountable.expectedCells_eq
  by_cases hsize : cells.size = rows.toNat * cols.toNat
  · have hlength : 0 + cells.toList.length ≤ 2 ^ 31 * cols.toNat := by
      rw [Nat.zero_add, Array.length_toList, hsize]
      exact Nat.mul_le_mul_right _ hcountable.rows_le
    have hcells := foldlM_checkCell_eq hcols hcountable.cols_le ∅ 0 _ hlength
    rw [checkWords, hexpected, hcountable.validate_of_size_eq hsize]
    simp only [bind, Except.bind]
    rw [if_neg (by rw [hvalue]; exact not_not.mpr hsize)]
    refine hcells.trans ?_
    show Option.elim (pieceFault? ∅ (placements ⟨rows.toNat, cols.toNat, cells⟩)) _ _ = _
    cases pieceFault? ∅ (placements ⟨rows.toNat, cols.toNat, cells⟩) <;> rfl
  · rw [checkWords, hexpected, hcountable.validate_of_size_ne hsize]
    simp only [bind, Except.bind]
    rw [if_pos (by rwa [hvalue]), hvalue]
    rfl

/-- Whatever the words for rows and columns and whatever the cells, the check on words comes to its
end, so no operation breaks it off, and it finds what the check on numbers finds: nothing if
coordinates can count the rows and the columns, there are as many cells as these ask for and the
cells are without a fault, and otherwise the first fault. -/
theorem checkWords_exact (rows cols : UInt64) (cells : Array Stack) :
    let b : Board := ⟨rows.toNat, cols.toNat, cells⟩
    (checkWords rows cols cells = b.validate.mapError .fault ∧
        ∀ halt, checkWords rows cols cells = .error halt → ∃ fault, halt = .fault fault) ∧
      (b.validate = .ok () ↔
        b.Countable ∧ b.cells.size = b.rows * b.cols ∧ Faultless b.cols b.cells.toList) ∧
      ∀ fault, b.validate = .error fault ↔ FirstFault b fault := by
  intro b
  have hwords : checkWords rows cols cells = b.validate.mapError .fault :=
    checkWords_eq rows cols cells
  refine ⟨⟨hwords, fun halt hhalt => ?_⟩, validate_eq_ok_iff_faultless,
    fun fault => validate_eq_error_iff⟩
  rw [hwords] at hhalt
  cases hvalidate : b.validate with
  | ok _ =>
      rw [hvalidate] at hhalt
      cases hhalt
  | error fault =>
      rw [hvalidate] at hhalt
      cases hhalt
      exact ⟨fault, rfl⟩

/-- A baba in its cell, and a twin of it that names a cell which is not on the board. -/
def twins : Array Stack :=
  #[[⟨.ofNat 1, .thing .baba, ⟨0, 0⟩, .right⟩], [⟨.ofNat 1, .thing .baba, ⟨1, 0⟩, .right⟩]]

/-- That the twin names a wrong cell is its first fault, and in two rows its identity is. -/
theorem checkWords_twins :
    FirstFault ⟨1, 2, twins⟩ (.positionMismatch ⟨1, 0⟩ ⟨0, 1⟩) ∧
      FirstFault ⟨2, 1, twins⟩ (.duplicate (.ofNat 1)) :=
  ⟨((checkWords_exact 1 2 twins).2.2 _).mp rfl, ((checkWords_exact 2 1 twins).2.2 _).mp rfl⟩

/-- Rows and columns whose product is no word are refused without asking for it. -/
example : checkWords 9223372036854775808 2 #[] =
    .error (.fault (.tooLarge 9223372036854775808 2)) := rfl

end Board

end WordTiles
