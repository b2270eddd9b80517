import WordTiles.PieceId
import WordTiles.Position
import WordTiles.Vocabulary

/-!
# Pieces

What stands on a board: things, each of one noun, and text tiles, each showing one word. Any
word can stand on a tile, also one outside the vocabulary. What a piece can do is not part of
it; that follows from the rules that can be read from the board.
-/

set_option autoImplicit false

namespace WordTiles

/-- What a piece is. -/
inductive Kind where
  /-- A thing of some noun. -/
  | thing (noun : Noun)
  /-- A text tile. -/
  | tile (word : String)
  deriving DecidableEq

namespace Kind

def noun? : Kind → Option Noun
  | .thing n => some n
  | .tile _ => none

def word? : Kind → Option String
  | .thing _ => none
  | .tile w => some w

def isTile : Kind → Bool
  | .thing _ => false
  | .tile _ => true

/-- The short name in a drawing of the board: small letters for a thing, the bare word for a
tile. -/
def label : Kind → String
  | .thing n => n.label
  | .tile w => w

def text : Kind → String
  | .thing n => n.word
  | .tile w => "text:" ++ w

end Kind

/-- A piece: its identity, what it is, the cell it says it stands in, and the direction of its
last step. -/
structure Piece where
  id : PieceId
  kind : Kind
  position : Position
  facing : Direction
  deriving DecidableEq

/-- The pieces of one cell, bottom to top. -/
abbrev Stack := List Piece

namespace Stack

/-- The piece drawn above the others: the last one put there. -/
def top? (s : Stack) : Option Piece := s.getLast?

def contains (s : Stack) (id : PieceId) : Bool := s.any (·.id == id)

/-- The lowest piece with this identity. -/
def find? (s : Stack) (id : PieceId) : Option Piece := List.find? (·.id == id) s

/-- The stack without the lowest piece with this identity. -/
def remove (s : Stack) (id : PieceId) : Stack := s.eraseP (·.id == id)

/-- Changes the lowest piece with this identity. -/
def update (s : Stack) (id : PieceId) (f : Piece → Piece) : Stack :=
  s.modify (s.findIdx (·.id == id)) f

def tiles (s : Stack) : Stack := s.filter (·.kind.isTile)

def topWord? (s : Stack) : Option String := (s.filterMap (·.kind.word?)).getLast?

end Stack

end WordTiles
