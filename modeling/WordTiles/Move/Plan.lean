import WordTiles.Move.Chain

/-!
# Planning a move

All controllable pieces try to step in the same direction at once. Each attempt is judged on
the board as it stands, so a refused piece does not keep another from moving. The plan lists
the attempts in reading order, and every piece that will move once, however many chains it is
part of.
-/

set_option autoImplicit false

namespace WordTiles

inductive AttemptStatus where
  | committed
  | refused (reason : Refusal)
  deriving DecidableEq

namespace AttemptStatus

def text : AttemptStatus → String
  | .committed => "committed"
  | .refused reason => reason.text

end AttemptStatus

structure Attempt where
  piece : PieceId
  position : Position
  status : AttemptStatus
  deriving DecidableEq

/-- A piece that is going to move: what it is, and where it stands. -/
structure Mover where
  piece : PieceId
  kind : Kind
  position : Position
  layer : Nat
  deriving DecidableEq

namespace Mover

def ofPushed (p : Pushed) : Mover := ⟨p.piece.id, p.piece.kind, p.piece.position, p.layer⟩

/-- Keeps the first mover of each identity that is not among those seen before. -/
def distinctAfter (seen : Std.TreeSet PieceId) : List Mover → List Mover
  | [] => []
  | m :: rest =>
    if m.piece ∈ seen then distinctAfter seen rest
    else m :: distinctAfter (seen.insert m.piece) rest

/-- Keeps the first mover of each identity. -/
def distinct (ms : List Mover) : List Mover := distinctAfter ∅ ms

/-- It matters only which identities were seen. -/
theorem distinctAfter_congr {seen seen' : Std.TreeSet PieceId} (ms : List Mover)
    (h : ∀ id, id ∈ seen ↔ id ∈ seen') : distinctAfter seen ms = distinctAfter seen' ms := by
  induction ms generalizing seen seen' with
  | nil => rfl
  | cons m rest ih =>
    have hinsert : ∀ id, id ∈ seen.insert m.piece ↔ id ∈ seen'.insert m.piece := fun id => by
      simp only [Std.TreeSet.mem_insert, h id]
    simp only [distinctAfter, h m.piece, ih h, ih hinsert]

/-- Having seen one more identity takes its mover out. -/
theorem distinctAfter_insert (seen : Std.TreeSet PieceId) (id : PieceId) (ms : List Mover) :
    distinctAfter (seen.insert id) ms = (distinctAfter seen ms).filter (·.piece ≠ id) := by
  induction ms generalizing seen with
  | nil => rfl
  | cons m rest ih =>
    simp only [distinctAfter, Std.TreeSet.mem_insert, Std.LawfulEqOrd.compare_eq_iff_eq]
    by_cases hseen : m.piece ∈ seen
    · simp only [hseen, or_true, if_true, ih]
    · by_cases hid : id = m.piece
      · subst hid
        simp [hseen, ih]
      · have hid' : m.piece ≠ id := fun h => hid h.symm
        simp only [hseen, hid, or_self, if_false, List.filter_cons, ne_eq, hid',
          not_false_eq_true, decide_true, if_true]
        rw [← ih (seen.insert m.piece)]
        congr 1
        apply distinctAfter_congr
        intro i
        simp only [Std.TreeSet.mem_insert, or_left_comm]

/-- The first mover is kept, and of the others the first of each other identity. -/
theorem distinct_cons (m : Mover) (rest : List Mover) :
    distinct (m :: rest) = m :: (distinct rest).filter (·.piece ≠ m.piece) := by
  simp [distinct, distinctAfter, distinctAfter_insert]

end Mover

/-- The plan of a move. Without a direction nothing moves. -/
structure MovePlan where
  direction : Option Direction
  attempts : List Attempt
  movers : List Mover
  deriving DecidableEq

namespace MovePlan

def empty : MovePlan := ⟨none, [], []⟩

def moves (plan : MovePlan) (id : PieceId) : Bool := plan.movers.any (·.piece == id)

end MovePlan

namespace Board

/-- The controllable pieces with their positions, in reading order. -/
def controlled (b : Board) (t : CapabilityTable) : List (Position × Pushed) :=
  b.positions.flatMap fun p =>
    ((b.stackAt p).zipIdx.filter fun (piece, _) => (t.ofPiece piece).controllable).map
      fun (piece, layer) => (p, ⟨piece, layer⟩)

def attempt (b : Board) (t : CapabilityTable) (d : Direction) (limit : Nat)
    (c : Position × Pushed) : Attempt :=
  match b.pushChain t d limit c.1 with
  | .ok _ => ⟨c.2.piece.id, c.1, .committed⟩
  | .error reason => ⟨c.2.piece.id, c.1, .refused reason⟩

/-- What a controllable piece moves: nothing if it is refused, and otherwise its chain,
farthest first, and then itself. -/
def moversOf (b : Board) (t : CapabilityTable) (d : Direction) (limit : Nat)
    (c : Position × Pushed) : List Mover :=
  match b.pushChain t d limit c.1 with
  | .ok pushed => (pushed.reverse ++ [c.2]).map Mover.ofPushed
  | .error _ => []

def plan (b : Board) (t : CapabilityTable) (d : Direction) (limit : Nat) : MovePlan where
  direction := some d
  attempts := (b.controlled t).map (b.attempt t d limit)
  movers := Mover.distinct ((b.controlled t).flatMap (b.moversOf t d limit))

end Board

end WordTiles
