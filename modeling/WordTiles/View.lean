import WordTiles.Board.Basic
import WordTiles.Line

/-!
# Views

What is seen of a board from above: the top piece of every cell and the height of its stack.
-/

set_option autoImplicit false

namespace WordTiles

/-- What is seen of a cell that is not empty. -/
structure ViewCell where
  id : PieceId
  kind : Kind
  facing : Direction
  height : Nat
  deriving DecidableEq

/-- What is seen of a board, row by row; nothing is seen of an empty cell. -/
structure View where
  rows : List (List (Option ViewCell))
  deriving DecidableEq

namespace ViewCell

def ofStack? (s : Stack) : Option ViewCell :=
  s.top?.map fun top => ⟨top.id, top.kind, top.facing, s.length⟩

end ViewCell

namespace View

/-- The view of a board. A board without columns shows no rows. -/
def ofBoard (b : Board) : View :=
  ⟨(List.range (b.cells.size / b.cols)).map fun (row : Nat) =>
    (List.range b.cols).map fun (col : Nat) => ViewCell.ofStack? (b.stackAt ⟨row, col⟩)⟩

/-- The label of a cell; a dot stands for an empty one. -/
def cellLabel : Option ViewCell → String
  | none => "."
  | some cell => cell.kind.label

/-- The drawing of a view: one line for a row, with a space between two labels. -/
def lines (v : View) : List String :=
  v.rows.map fun row => Line.ofWords (row.map cellLabel)

end View

end WordTiles
