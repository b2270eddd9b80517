import WordTiles.Board.Fault

/-!
# Operations on a board

Putting a piece down, moving it, changing its kind and taking it away. An operation that is
refused says why; the board it was asked of is a value and stays as it was.

Operations that name a piece by its identity mean the first piece with that identity in
reading order.
-/

set_option autoImplicit false

namespace WordTiles.Board

/-- Puts a piece on top of the cell that its position names. -/
def place (b : Board) (piece : Piece) : Except BoardError Board :=
  if b.InBounds piece.position then .ok (b.modifyAt piece.position (· ++ [piece]))
  else .error (.outOfBounds piece.position)

/-- Takes the piece `id` out of the cell at `source` and puts it on top of the cell at
`target`. The two cells may be the same. A target off the board is reported before a source
off the board, and that before a piece that is not in its cell. -/
def move (b : Board) (id : PieceId) (source target : Position) : Except BoardError Board :=
  if ¬ b.InBounds target then .error (.outOfBounds target)
  else if ¬ b.InBounds source then .error (.outOfBounds source)
  else
    match (b.stackAt source).find? id with
    | none => .error (.pieceNotFound id)
    | some piece =>
      .ok ((b.modifyAt source (Stack.remove · id)).modifyAt target
        (· ++ [{ piece with position := target }]))

/-- Moves the piece `id` one cell in a direction and turns it that way. The new position comes
with the new board. -/
def step (b : Board) (id : PieceId) (d : Direction) : Except BoardError (Board × Position) :=
  match b.find? id with
  | none => .error (.pieceNotFound id)
  | some piece => do
    let target := piece.position.wrappedStep d
    let moved ← b.move id piece.position target
    return (moved.modifyAt target (Stack.update · id ({ · with facing := d })), target)

/-- Gives the piece `id` another kind; all else about it stays. The old kind comes with the
new board. -/
def setKind (b : Board) (id : PieceId) (kind : Kind) : Except BoardError (Board × Kind) :=
  match b.find? id with
  | none => .error (.pieceNotFound id)
  | some piece =>
    match (b.stackAt piece.position).find? id with
    | none => .error (.pieceNotFound id)
    | some old =>
      .ok (b.modifyAt piece.position (Stack.update · id ({ · with kind })), old.kind)

/-- Takes the piece `id` off the board. It comes with the new board. -/
def remove (b : Board) (id : PieceId) : Except BoardError (Board × Piece) :=
  match b.find? id with
  | none => .error (.pieceNotFound id)
  | some piece =>
    if ¬ b.InBounds piece.position then .error (.outOfBounds piece.position)
    else
      match (b.stackAt piece.position).find? id with
      | none => .error (.pieceNotFound id)
      | some found => .ok (b.modifyAt piece.position (Stack.remove · id), found)

end WordTiles.Board
