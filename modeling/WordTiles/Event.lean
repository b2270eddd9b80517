import WordTiles.Hazard
import WordTiles.Line
import WordTiles.Move.Commit
import WordTiles.Outcome
import WordTiles.Reading
import WordTiles.Transformation

/-!
# Events

What happened in a turn, one event for each thing that is worth telling: runs that are no
rules, pieces that changed, moved, stayed or were destroyed, and the end of the game.
-/

set_option autoImplicit false

namespace WordTiles

/-- Something that happened in a turn. -/
inductive Event where
  /-- A run of two or more words is no rule. -/
  | ruleRejected (origin : Position) (direction : Direction) (words : List String)
      (reason : String)
  /-- A thing changed its noun. -/
  | transformed (piece : PieceId) (position : Position) (source target : Noun)
  /-- A piece stepped from one cell to another. -/
  | moved (piece : PieceId) (kind : Kind) (source target : Position)
  /-- A controllable piece could not step. -/
  | moveRejected (piece : PieceId) (position : Position) (reason : Refusal)
  /-- A hazard removed a piece. -/
  | destroyed (piece : PieceId) (kind : Kind) (position : Position) (cause : HazardCause)
  /-- The game ended. -/
  | outcomeReached (outcome : Outcome)
  deriving DecidableEq

namespace Event

def ofRejectedRun (r : RejectedRun) : Event :=
  .ruleRejected r.run.origin r.run.direction r.run.words r.error.message

def ofTransformation (t : Transformation) : Event :=
  .transformed t.piece t.position t.source t.target

def ofStep (s : Step) : Event := .moved s.piece s.kind s.source s.target

def ofAttempt? (a : Attempt) : Option Event :=
  match a.status with
  | .committed => none
  | .refused reason => some (.moveRejected a.piece a.position reason)

def ofDestruction (o : Destruction) : Event := .destroyed o.piece o.kind o.position o.cause

/-- The event of an outcome, if it ends the game. -/
def ofOutcome? (o : Outcome) : Option Event :=
  if o.isFinal then some (.outcomeReached o) else none

def name : Event → String
  | .ruleRejected .. => "rule_rejected"
  | .transformed .. => "transformed"
  | .moved .. => "moved"
  | .moveRejected .. => "move_rejected"
  | .destroyed .. => "destroyed"
  | .outcomeReached .. => "outcome_reached"

def text : Event → String
  | .ruleRejected origin direction words reason =>
    "ignored '" ++ Line.ofWords words ++ "' reading " ++ direction.text ++ " from "
      ++ origin.text ++ ": " ++ reason
  | .transformed _ position source target =>
    source.word ++ " at " ++ position.text ++ " became " ++ target.word
  | .moved _ kind source target =>
    kind.text ++ " moved " ++ source.text ++ " -> " ++ target.text
  | .moveRejected _ position reason =>
    "object at " ++ position.text ++ " did not move: " ++ reason.text
  | .destroyed _ kind position cause =>
    kind.text ++ " at " ++ position.text ++ " " ++ cause.text
  | .outcomeReached outcome => "outcome: " ++ outcome.text

end Event

/-- The events of a turn so far. A log that does not record stays empty. -/
structure EventLog where
  recording : Bool
  events : List Event
  deriving DecidableEq

namespace EventLog

def start (recording : Bool) : EventLog := ⟨recording, []⟩

def record (log : EventLog) (es : List Event) : EventLog :=
  if log.recording then { log with events := log.events ++ es } else log

end EventLog

end WordTiles
