import WordTiles.Board.Edit
import WordTiles.Rule.RuleSet

/-!
# Transformations

Rules such as `ROCK IS FLAG` change the kind of every thing of a noun. All changes are planned
against the board as it is and then applied, so that a kind that a change produces is not
changed again in the same round. Text tiles do not change.
-/

set_option autoImplicit false

namespace WordTiles

structure Transformation where
  piece : PieceId
  position : Position
  source : Noun
  target : Noun
  deriving DecidableEq

namespace Transformation

/-- The change that the rules call for in a piece. -/
def ofPiece? (rs : RuleSet) (piece : Piece) : Option Transformation :=
  piece.kind.noun?.bind fun n =>
    (rs.becomes? n).map fun target => ⟨piece.id, piece.position, n, target⟩

def apply (b : Board) (t : Transformation) : Except BoardError Board :=
  (b.setKind t.piece (.thing t.target)).map Prod.fst

end Transformation

namespace Board

def transformations (b : Board) (rs : RuleSet) : List Transformation :=
  b.pieces.filterMap (Transformation.ofPiece? rs)

/-- Applies the changes that the rules call for, which come with the new board. -/
def transform (b : Board) (rs : RuleSet) : Except BoardError (Board × List Transformation) :=
  let changes := b.transformations rs
  (changes.foldlM Transformation.apply b).map (·, changes)

end Board

end WordTiles
