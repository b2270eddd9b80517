import WordTiles.Capability

/-!
# Push chains

A piece that wants to step into a cell has to push the pushable pieces there before it, and
these those in the cell beyond, and so on. The chain of a step is what has to move first. A
step is refused at the edge of the board, before a blocking piece, or when more cells than a
limit would have to be pushed.
-/

set_option autoImplicit false

namespace WordTiles

inductive Refusal where
  /-- The piece, or the end of its chain, stands at the edge of the board. -/
  | edge
  /-- A blocking piece is in the way. -/
  | blocked
  /-- More cells than the limit would have to be pushed. -/
  | tooLong
  deriving DecidableEq

namespace Refusal

def all : List Refusal := [.edge, .blocked, .tooLong]

def text : Refusal → String
  | .edge => "edge of the grid"
  | .blocked => "blocked"
  | .tooLong => "push chain too long"

end Refusal

/-- A piece in a push chain, with its place in the stack of its cell counted from the bottom. -/
structure Pushed where
  piece : Piece
  layer : Nat
  deriving DecidableEq

/-- The pushable pieces of a stack, bottom to top. -/
def CapabilityTable.pushables (t : CapabilityTable) (s : Stack) : List Pushed :=
  (s.zipIdx.filter fun (piece, _) => (t.ofPiece piece).pushable).map fun (piece, layer) =>
    ⟨piece, layer⟩

def CapabilityTable.blocks (t : CapabilityTable) (s : Stack) : Bool :=
  s.any fun piece => (t.ofPiece piece).blocking

namespace Board

/-- The limit on push chains unless another is set. No line on the board is that long. -/
def defaultLimit (b : Board) : Nat := b.rows + b.cols

/-- What has to move before a piece at `p` can step to the cell `next p`, nearest cell first and
bottom to top within a cell. At most `limit` cells may be pushed. -/
def chainAlong (b : Board) (t : CapabilityTable) (next : Position → Position) :
    (limit : Nat) → (p : Position) → Except Refusal (List Pushed)
  | limit, p =>
    let ahead := next p
    if ¬ b.InBounds ahead then .error .edge
    else if t.blocks (b.stackAt ahead) then .error .blocked
    else if (t.pushables (b.stackAt ahead)).isEmpty then .ok []
    else
      match limit with
      | 0 => .error .tooLong
      | limit + 1 => (b.chainAlong t next limit ahead).map (t.pushables (b.stackAt ahead) ++ ·)

/-- What has to move before a piece at `p` can step in a direction. -/
def pushChain (b : Board) (t : CapabilityTable) (d : Direction) (limit : Nat) (p : Position) :
    Except Refusal (List Pushed) :=
  b.chainAlong t (·.wrappedStep d) limit p

/-- Whether a piece at `p` can step in a direction. -/
def canStep (b : Board) (t : CapabilityTable) (d : Direction) (limit : Nat) (p : Position) :
    Bool :=
  (b.pushChain t d limit p).isOk

end Board

end WordTiles
