import WordTiles.Board.Basic
import WordTiles.Rule.Parser
import WordTiles.Rule.RuleSet

/-!
# Reading a board

Rules are read rightward and downward. Every text tile starts a run in either direction: its
own word, and then the word of the topmost tile of each next cell, up to the first cell
without text or the edge of the board. So two tiles in one cell start two runs each, while a
run that passes their cell reads the upper one.

A run of two or more words is a rule, or else it is rejected for the cause that parsing gives.
A lone word cannot be a rule and is passed over.
-/

set_option autoImplicit false

namespace WordTiles

/-- The words read in one direction from one text tile. -/
structure Run where
  origin : Position
  direction : Direction
  words : List String
  deriving DecidableEq

structure RejectedRun where
  run : Run
  error : ParseError
  deriving DecidableEq

structure Reading where
  rules : RuleSet
  rejected : List RejectedRun
  deriving DecidableEq

namespace Run

/-- The directions in which boards are read. -/
def directions : List Direction := [.right, .down]

/-- The rule of a run, if it is one. Runs of fewer than two words do not count. -/
def rule? (r : Run) : Option Rule :=
  if r.words.length < 2 then none else (Rule.parse r.words).toOption

def rejected? (r : Run) : Option RejectedRun :=
  if r.words.length < 2 then none
  else
    match Rule.parse r.words with
    | .ok _ => none
    | .error e => some ⟨r, e⟩

end Run

namespace Board

/-- The words of the topmost tiles in front of a position, up to the first cell without text or
the edge of the board, but no more than `limit` of them. After a position comes `next` of it. -/
def wordsAlong (b : Board) (next : Position → Position) : (limit : Nat) → Position → List String
  | 0, _ => []
  | limit + 1, p =>
    match (b.stackAt (next p)).topWord? with
    | some w => w :: b.wordsAlong next limit (next p)
    | none => []

/-- The run from a tile with a given word. A line on the board is no longer than its rows and
columns together, so nothing is cut off. -/
def runFrom (b : Board) (origin : Position) (word : String) (d : Direction) : Run :=
  ⟨origin, d, word :: b.wordsAlong (·.wrappedStep d) (b.rows + b.cols) origin⟩

/-- All runs, by the tile they start from in reading order, and the rightward one first. -/
def runs (b : Board) : List Run :=
  b.positions.flatMap fun p =>
    ((b.stackAt p).filterMap (·.kind.word?)).flatMap fun w =>
      Run.directions.map fun d => b.runFrom p w d

def read (b : Board) : Reading :=
  ⟨⟨b.runs.filterMap Run.rule?⟩, b.runs.filterMap Run.rejected?⟩

end Board

end WordTiles
