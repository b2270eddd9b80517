import WordTiles.Capability

/-!
# Outcomes

A game is lost when a controllable piece shares a cell with one that defeats, and won when one
shares a cell with one that wins; the two may be the same piece. A loss anywhere outweighs
every win.
-/

set_option autoImplicit false

namespace WordTiles

inductive Outcome where
  | ongoing
  | win
  | loss
  deriving DecidableEq

namespace Outcome

def all : List Outcome := [.ongoing, .win, .loss]

def text : Outcome → String
  | .ongoing => "continue"
  | .win => "win"
  | .loss => "loss"

def isFinal : Outcome → Bool
  | .ongoing => false
  | .win => true
  | .loss => true

/-- The graver of two outcomes: a loss before a win, and a win before none. -/
def max : Outcome → Outcome → Outcome
  | .loss, _ => .loss
  | _, .loss => .loss
  | .win, _ => .win
  | .ongoing, o => o

/-- The outcome that one cell decides. -/
def ofCell (t : CapabilityTable) (s : Stack) : Outcome :=
  if s.any fun piece => (t.ofPiece piece).controllable then
    if s.any fun piece => (t.ofPiece piece).losing then .loss
    else if s.any fun piece => (t.ofPiece piece).winning then .win
    else .ongoing
  else .ongoing

theorem max_assoc (o o' o'' : Outcome) : (o.max o').max o'' = o.max (o'.max o'') := by
  cases o <;> cases o' <;> cases o'' <;> rfl

theorem max_comm (o o' : Outcome) : o.max o' = o'.max o := by
  cases o <;> cases o' <;> rfl

end Outcome

/-- The gravest outcome that a cell of the board decides. -/
def Board.outcome (b : Board) (t : CapabilityTable) : Outcome :=
  (b.cells.toList.map (Outcome.ofCell t)).foldl Outcome.max .ongoing

end WordTiles
