import WordTiles.Board.Edit

/-!
# Levels

A level describes a board to be loaded: rows of cells, each cell a stack of specifications.
A specification may declare its position, which must then be that of its cell, and the
direction it faces. Loading checks the level and gives every piece an identity.
-/

set_option autoImplicit false

namespace WordTiles

/-- One piece as a level describes it. -/
structure PieceSpec where
  kind : Kind
  position : Option Position
  facing : Option Direction
  deriving DecidableEq

namespace PieceSpec

/-- The piece described, with an identity and a position. It faces the initial direction if
none is described. -/
def piece (spec : PieceSpec) (id : PieceId) (position : Position) : Piece :=
  ⟨id, spec.kind, position, spec.facing.getD Direction.initial⟩

end PieceSpec

/-- A level: rows of cells of specifications, bottom to top. -/
structure Level where
  cells : List (List (List PieceSpec))
  deriving DecidableEq

namespace Level

def rows (l : Level) : Nat := l.cells.length

/-- The number of columns, which the first row decides. -/
def cols (l : Level) : Nat := (l.cells.head?.map List.length).getD 0

/-- The fault of a specification in the cell at a row and a column: a declared position off
the level, or one of another cell. -/
def specFault? (l : Level) (row col : Nat) (spec : PieceSpec) : Option Malformed :=
  match spec.position with
  | none => none
  | some declared =>
    if ¬ declared.Within l.rows l.cols then
      some (.outOfBounds declared l.rows l.cols)
    else if declared ≠ ⟨row, col⟩ then some (.positionMismatch declared ⟨row, col⟩)
    else none

/-- The first fault of a row: its width, or else that of a specification. -/
def rowFault? (l : Level) (row : Nat) (cells : List (List PieceSpec)) : Option Malformed :=
  if cells.length ≠ l.cols then some (.ragged row l.cols cells.length)
  else cells.zipIdx.findSome? fun (stack, col) => stack.findSome? (l.specFault? row col)

/-- Accepts a level whose rows all have one width and whose declared positions are right, and
gives its dimensions. Otherwise reports that it is empty, that it is too large, or the first
fault in reading order. -/
def validate (l : Level) : Except Malformed (Nat × Nat) :=
  if l.rows = 0 ∨ l.cols = 0 then .error .empty
  else if (Position.ofIndices? (l.rows - 1) (l.cols - 1)).isNone then
    .error (.tooLarge l.rows l.cols)
  else
    match l.cells.zipIdx.findSome? fun (cells, row) => l.rowFault? row cells with
    | some fault => .error fault
    | none => .ok (l.rows, l.cols)

/-- The specifications with the positions of their cells, in reading order. -/
def placements (l : Level) : List (Position × PieceSpec) :=
  l.cells.zipIdx.flatMap fun (cells, row) =>
    cells.zipIdx.flatMap fun (stack, col) => stack.map fun spec => (⟨row, col⟩, spec)

/-- The pieces described, in reading order. The `k`-th of them, counted from zero, gets the
identity `fresh k`. -/
def pieces (l : Level) (fresh : Nat → PieceId) : List Piece :=
  l.placements.zipIdx.map fun ((position, spec), k) => spec.piece (fresh k) position

/-- The board that a level describes, with the pieces put down one after the other. -/
def load (l : Level) (fresh : Nat → PieceId) : Except BoardError Board :=
  match l.validate with
  | .error fault => .error (.malformed fault)
  | .ok (rows, cols) => (l.pieces fresh).foldlM Board.place (Board.empty rows cols)

end Level

end WordTiles
