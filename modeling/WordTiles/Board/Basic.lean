import WordTiles.Piece

/-!
# Boards

A board is a rectangle of cells, listed row by row, each cell holding a stack of pieces. The
structure holds whatever data it is given; `WordTiles.Board.validate` says which data make a
board that can be played on.

Reading order goes row by row and, within a cell, from bottom to top.
-/

set_option autoImplicit false

namespace WordTiles

/-- The data of a board: its dimensions and its cells, row by row. -/
structure Board where
  rows : Nat
  cols : Nat
  cells : Array Stack
  deriving DecidableEq

namespace Board

def Sized (b : Board) : Prop := b.cells.size = b.rows * b.cols

def empty (rows cols : Nat) : Board := ⟨rows, cols, Array.replicate (rows * cols) []⟩

/-- A position is on the board when it has a row and a column of the board. -/
def InBounds (b : Board) (p : Position) : Prop := p.Within b.rows b.cols

instance (b : Board) (p : Position) : Decidable (b.InBounds p) := by
  unfold InBounds; infer_instance

/-- The place of a position's cell among the cells. -/
def index? (b : Board) (p : Position) : Option Nat :=
  if b.InBounds p then some (p.row.toNat * b.cols + p.col.toNat) else none

/-- The position of the cell at a place among the cells. -/
def positionAt (b : Board) (i : Nat) : Position := ⟨(i / b.cols : Nat), (i % b.cols : Nat)⟩

/-- All positions, in reading order. -/
def positions (b : Board) : List Position := (List.range b.cells.size).map b.positionAt

/-- The stack at a position, if it is on the board. -/
def cell? (b : Board) (p : Position) : Option Stack := (b.index? p).bind (b.cells[·]?)

/-- The stack at a position; off the board nothing stands. -/
def stackAt (b : Board) (p : Position) : Stack := (b.cell? p).getD []

def pieces (b : Board) : List Piece := b.cells.toList.flatten

def pieceCount (b : Board) : Nat := b.cells.foldl (fun n s => n + s.length) 0

def find? (b : Board) (id : PieceId) : Option Piece := b.cells.findSome? (Stack.find? · id)

def modifyAt (b : Board) (p : Position) (f : Stack → Stack) : Board :=
  match b.index? p with
  | some i => { b with cells := b.cells.modify i f }
  | none => b

theorem index?_eq_none_iff {b : Board} {p : Position} : b.index? p = none ↔ ¬ b.InBounds p := by
  simp [index?]

theorem rows_modifyAt (b : Board) (p : Position) (f : Stack → Stack) :
    (b.modifyAt p f).rows = b.rows := by
  unfold modifyAt; split <;> rfl

theorem cols_modifyAt (b : Board) (p : Position) (f : Stack → Stack) :
    (b.modifyAt p f).cols = b.cols := by
  unfold modifyAt; split <;> rfl

theorem size_cells_modifyAt (b : Board) (p : Position) (f : Stack → Stack) :
    (b.modifyAt p f).cells.size = b.cells.size := by
  unfold modifyAt; split <;> simp

/-- Searching cell by cell finds the first of all pieces. -/
theorem find?_eq (b : Board) (id : PieceId) : b.find? id = b.pieces.find? (·.id == id) := by
  rw [find?, pieces, List.find?_flatten, ← Array.findSome?_toList]
  rfl

end Board

end WordTiles
