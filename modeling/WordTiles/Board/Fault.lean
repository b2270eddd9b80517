import WordTiles.Board.Basic

/-!
# Faults of boards and levels

What can be wrong with the data of a board or a level, and why an operation on a board is
refused. Each cause has one wording.
-/

set_option autoImplicit false

namespace WordTiles

inductive Malformed where
  /-- There is no row or no column. -/
  | empty
  /-- A row has another number of cells than the first one. -/
  | ragged (row expected found : Nat)
  /-- A declared position is on no cell of the level. -/
  | outOfBounds (declared : Position) (rows cols : Nat)
  /-- A declared position is that of another cell. -/
  | positionMismatch (declared cell : Position)
  /-- The last row or column has no coordinate. -/
  | tooLarge (rows cols : Nat)
  /-- There are more or fewer cells than the dimensions ask for. -/
  | cellCount (expected found : Nat)
  /-- Two pieces have one identity. -/
  | duplicate (id : PieceId)
  deriving DecidableEq

namespace Malformed

def dimensions (rows cols : Nat) : String :=
  Decimal.natText rows ++ "x" ++ Decimal.natText cols ++ " grid"

def message : Malformed → String
  | .empty => "the level has no cells"
  | .ragged row expected found =>
    "row " ++ Decimal.natText row ++ " has " ++ Decimal.natText found ++ " cells, expected "
      ++ Decimal.natText expected
  | .outOfBounds declared rows cols =>
    "object declared at " ++ declared.text ++ " lies outside a " ++ dimensions rows cols
  | .positionMismatch declared cell =>
    "object declared at " ++ declared.text ++ " is stored in cell " ++ cell.text
  | .tooLarge rows cols =>
    "a " ++ dimensions rows cols ++ " does not fit the coordinate range"
  | .cellCount expected found =>
    "grid holds " ++ Decimal.natText found ++ " cells, expected " ++ Decimal.natText expected
  | .duplicate id => "object " ++ id.text ++ " appears more than once"

end Malformed

inductive BoardError where
  | malformed (fault : Malformed)
  | pieceNotFound (id : PieceId)
  | outOfBounds (position : Position)
  deriving DecidableEq

namespace BoardError

def message : BoardError → String
  | .malformed fault => "malformed level: " ++ fault.message
  | .pieceNotFound id => "object " ++ id.text ++ " is not on the grid"
  | .outOfBounds position => "position " ++ position.text ++ " is outside the grid"

end BoardError

end WordTiles
