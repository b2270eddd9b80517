import WordTiles.Board.Fault

/-!
# Valid boards

A board can be played on when it has rows and columns that coordinates can count, one cell for
each position, every piece in the cell that its position names, and no identity twice.
`Board.Valid` says so; `Board.validate` decides it and reports the first fault.
-/

set_option autoImplicit false

namespace WordTiles.Board

/-- The pieces of a board, each with the position of the cell it is stored in, in reading
order. -/
def placements (b : Board) : List (Position × Piece) :=
  b.cells.toList.zipIdx.flatMap fun (stack, i) => stack.map fun piece => (b.positionAt i, piece)

structure Valid (b : Board) : Prop where
  rows_pos : 0 < b.rows
  cols_pos : 0 < b.cols
  rows_le : b.rows ≤ Position.greatest + 1
  cols_le : b.cols ≤ Position.greatest + 1
  sized : b.Sized
  position_eq : ∀ placed ∈ b.placements, placed.2.position = placed.1
  ids_nodup : (b.pieces.map (·.id)).Nodup

/-- The first fault of stored pieces, read after pieces with the identities `seen`: a piece
that names another cell than its own, or one whose identity was seen before. -/
def pieceFault? (seen : Std.TreeSet PieceId) : List (Position × Piece) → Option Malformed
  | [] => none
  | (cell, piece) :: rest =>
    if piece.position ≠ cell then some (.positionMismatch piece.position cell)
    else if piece.id ∈ seen then some (.duplicate piece.id)
    else pieceFault? (seen.insert piece.id) rest

/-- Accepts a valid board. Otherwise reports, in this order, that it is empty, that it is too
large, that it has a wrong number of cells, or the fault of the first piece that has one. -/
def validate (b : Board) : Except Malformed Unit :=
  if b.rows = 0 ∨ b.cols = 0 then .error .empty
  else if (Position.ofIndices? (b.rows - 1) (b.cols - 1)).isNone then
    .error (.tooLarge b.rows b.cols)
  else if b.cells.size ≠ b.rows * b.cols then
    .error (.cellCount (b.rows * b.cols) b.cells.size)
  else
    match pieceFault? ∅ b.placements with
    | some fault => .error fault
    | none => .ok ()

end WordTiles.Board
