import WordTiles.Board.Validity
import WordTiles.Event
import WordTiles.Level
import WordTiles.View

/-!
# The game

A game holds a board, what can be read from it, and how it stands. A tick takes one input
through these phases:

1. the board is read;
2. things change as the rules say;
3. the capabilities follow from the rules read and the changed board;
4. the controllable pieces move, if the input is a direction;
5. hazards destroy what they meet, unless they are switched off;
6. the board is read again, for text may have moved, and the outcome is judged.

Once a game is won or lost, further ticks change nothing.
-/

set_option autoImplicit false

namespace WordTiles

inductive Input where
  | move (direction : Direction)
  | wait
  deriving DecidableEq

/-- The settings of a game. Without a limit on push chains the board's own one holds. -/
structure Config where
  pushLimit : Option Nat := none
  hazards : Bool := true
  recordEvents : Bool := true
  deriving DecidableEq

def Config.default : Config := {}

/-- A game: the board, its settings, the ticks played, how it stands, and the rules and
capabilities that hold. -/
structure Game where
  board : Board
  config : Config
  turn : Nat
  outcome : Outcome
  rules : RuleSet
  capabilities : CapabilityTable
  deriving DecidableEq

structure TickReport where
  turn : Nat
  outcome : Outcome
  rules : RuleSet
  attempts : List Attempt
  events : List Event
  deriving DecidableEq

namespace TickReport

def committedCount (r : TickReport) : Nat :=
  (r.attempts.filter (·.status == .committed)).length

end TickReport

namespace Game

/-- A game on a board, which must be valid. -/
def ofBoard (b : Board) (config : Config) : Except BoardError Game :=
  match b.validate with
  | .error fault => .error (.malformed fault)
  | .ok () =>
    let rules := b.read.rules
    .ok ⟨b, config, 0, .ongoing, rules, CapabilityTable.build rules b⟩

def ofLevel (l : Level) (fresh : Nat → PieceId) (config : Config) : Except BoardError Game := do
  ofBoard (← l.load fresh) config

/-- The report of a tick that changes nothing. -/
def idleReport (g : Game) : TickReport := ⟨g.turn, g.outcome, g.rules, [], []⟩

def resolveInput (b : Board) (t : CapabilityTable) (limit : Option Nat) :
    Input → Except BoardError (Board × MoveReport)
  | .move d => b.resolveMove t d limit
  | .wait => .ok (b, MoveReport.empty)

def resolveHazards (config : Config) (b : Board) (t : CapabilityTable) :
    Except BoardError (Board × List Destruction) :=
  if config.hazards then b.resolveHazards t else .ok (b, [])

/-- A tick of a game that is not over. -/
def play (g : Game) (input : Input) : Except BoardError (Game × TickReport) := do
  let reading := g.board.read
  let (changed, transformations) ← g.board.transform reading.rules
  let table := CapabilityTable.build reading.rules changed
  let (shifted, move) ← resolveInput changed table g.config.pushLimit input
  let (board, destroyed) ← resolveHazards g.config shifted table
  let rules := board.read.rules
  let capabilities := CapabilityTable.build rules board
  let outcome := board.outcome capabilities
  let log := (EventLog.start g.config.recordEvents)
    |>.record (reading.rejected.map Event.ofRejectedRun)
    |>.record (transformations.map Event.ofTransformation)
    |>.record (move.steps.map Event.ofStep)
    |>.record (move.attempts.filterMap Event.ofAttempt?)
    |>.record (destroyed.map Event.ofDestruction)
    |>.record (Event.ofOutcome? outcome).toList
  let turn := g.turn + 1
  return (⟨board, g.config, turn, outcome, rules, capabilities⟩,
    ⟨turn, outcome, rules, move.attempts, log.events⟩)

def tick (g : Game) (input : Input) : Except BoardError (Game × TickReport) :=
  if g.outcome.isFinal then .ok (g, g.idleReport) else g.play input

/-- The ticks for some inputs, one after the other: the game after each tick, and what the
tick did. -/
def run (g : Game) : List Input → Except BoardError (List (Game × TickReport))
  | [] => .ok []
  | input :: rest => do
    let (next, report) ← g.tick input
    return (next, report) :: (← next.run rest)

def view (g : Game) : View := View.ofBoard g.board

end Game

end WordTiles
