import WordTiles.Board.Edit
import WordTiles.Move.Plan

/-!
# Carrying out a move

The movers of a plan step one after the other: those farthest along the direction first, so
that no piece arrives in a cell before the pieces that leave it have left, and those of one
cell from bottom to top, so that they arrive in the order in which they stood. Either all
steps succeed or the board stays as it was.
-/

set_option autoImplicit false

namespace WordTiles

structure Step where
  piece : PieceId
  kind : Kind
  source : Position
  target : Position
  deriving DecidableEq

namespace Mover

/-- Whether one mover may step before another: by progress along the direction, farthest
first, then by row, by column and by layer. -/
def precedes (d : Direction) (m m' : Mover) : Bool :=
  if m.position.progress d ≠ m'.position.progress d then
    decide (m'.position.progress d < m.position.progress d)
  else if m.position.row ≠ m'.position.row then decide (m.position.row < m'.position.row)
  else if m.position.col ≠ m'.position.col then decide (m.position.col < m'.position.col)
  else decide (m.layer ≤ m'.layer)

def inOrder (d : Direction) (ms : List Mover) : List Mover := ms.mergeSort (precedes d)

/-- Makes the step of a mover, after steps already made. -/
def step (d : Direction) (state : Board × List Step) (m : Mover) :
    Except BoardError (Board × List Step) :=
  (state.1.step m.piece d).map fun (b, target) =>
    (b, state.2 ++ [⟨m.piece, m.kind, m.position, target⟩])

end Mover

/-- What a move did: the attempts and the steps made. -/
structure MoveReport where
  attempts : List Attempt
  steps : List Step
  deriving DecidableEq

namespace MoveReport

def empty : MoveReport := ⟨[], []⟩

end MoveReport

namespace Board

/-- Carries out a plan, which may have been made for another board. -/
def commit (b : Board) (plan : MovePlan) : Except BoardError (Board × List Step) :=
  match plan.direction with
  | none => .ok (b, [])
  | some d => (Mover.inOrder d plan.movers).foldlM (Mover.step d) (b, [])

/-- Plans a move and carries it out. Without a limit the default one holds. -/
def resolveMove (b : Board) (t : CapabilityTable) (d : Direction) (limit : Option Nat) :
    Except BoardError (Board × MoveReport) :=
  let plan := b.plan t d (limit.getD b.defaultLimit)
  (b.commit plan).map fun (b', steps) => (b', ⟨plan.attempts, steps⟩)

end Board

end WordTiles
