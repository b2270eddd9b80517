import WordTiles.Board.Edit
import WordTiles.Capability

/-!
# Hazards

Pieces of one cell meet on two levels: those that float and those that do not. A sinking piece
takes everything on its level down with it, unless it is alone there. A hot piece melts what
can melt on its level.
-/

set_option autoImplicit false

namespace WordTiles

inductive HazardCause where
  | sink
  | melt
  deriving DecidableEq

namespace HazardCause

def all : List HazardCause := [.sink, .melt]

def text : HazardCause → String
  | .sink => "sank"
  | .melt => "melted"

end HazardCause

structure Destruction where
  piece : PieceId
  kind : Kind
  position : Position
  cause : HazardCause
  deriving DecidableEq

namespace Destruction

/-- What a piece suffers among the pieces of its level, itself included. -/
def cause? (t : CapabilityTable) (level : Stack) (piece : Piece) : Option HazardCause :=
  if (level.any fun o => (t.ofPiece o).sinking) ∧ 1 < level.length then some .sink
  else if (level.any fun o => (t.ofPiece o).hot) ∧ (t.ofPiece piece).melting then some .melt
  else none

def ofLevel (t : CapabilityTable) (position : Position) (level : Stack) : List Destruction :=
  level.filterMap fun piece =>
    (cause? t level piece).map fun cause => ⟨piece.id, piece.kind, position, cause⟩

/-- The destructions in a cell: those on the ground before those above it. -/
def ofCell (t : CapabilityTable) (position : Position) (s : Stack) : List Destruction :=
  [false, true].flatMap fun floating =>
    ofLevel t position (s.filter fun piece => (t.ofPiece piece).floating == floating)

def apply (b : Board) (o : Destruction) : Except BoardError Board :=
  (b.remove o.piece).map Prod.fst

end Destruction

namespace Board

/-- The destructions that the hazards of a board cause, cell by cell. -/
def destructions (b : Board) (t : CapabilityTable) : List Destruction :=
  b.positions.flatMap fun p => Destruction.ofCell t p (b.stackAt p)

/-- Removes what the hazards destroy, which comes with the new board. -/
def resolveHazards (b : Board) (t : CapabilityTable) :
    Except BoardError (Board × List Destruction) :=
  let destroyed := b.destructions t
  (destroyed.foldlM Destruction.apply b).map (·, destroyed)

end Board

end WordTiles
