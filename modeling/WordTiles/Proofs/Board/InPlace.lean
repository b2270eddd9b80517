import WordTiles.Board.Edit
import WordTiles.Proofs.Board.Standing

/-!
# Operations carried out in place

An operation on a board is a function on values: one that is refused gives no board at all. Here the
operations are carried out step by step on one board that is changed on the way, so that a refusal
leaves behind what has been made of the board by then. Since every question that can lead to a
refusal is asked before the first change, a refused operation leaves the board as it was, and any
other leaves the board that the function gives (`run_move`, `run_step` and the like).
-/

set_option autoImplicit false

namespace WordTiles

/-! ## Stacks changed into themselves -/

/-- Without the identity there is nothing to change. -/
theorem Stack.update_eq_self {s : Stack} {id : PieceId} (h : s.find? id = none)
    (f : Piece → Piece) : s.update id f = s := by
  have hlength : s.findIdx (·.id == id) = s.length :=
    List.findIdx_eq_length.mpr (by simpa [Stack.find?] using h)
  rw [Stack.update, hlength]
  exact List.modify_eq_self (Nat.le_refl _)

namespace Board

variable {b : Board} {p : Position} {i : Nat}

/-- The board with the stack of a cell changed, said by the cell and not by its position. -/
theorem modifyAt_eq (h : b.index? p = some i) (g : Stack → Stack) :
    b.modifyAt p g = { b with cells := b.cells.modify i g } := by
  rw [modifyAt, h]

theorem modifyAt_eq_self {g : Stack → Stack} (h : g (b.stackAt p) = b.stackAt p) :
    b.modifyAt p g = b := by
  cases hi : b.index? p with
  | none => rw [modifyAt, hi]
  | some i =>
      rw [stackAt_of_index? hi] at h
      rw [modifyAt_eq hi]
      have hcells : b.cells.modify i g = b.cells := by
        apply Array.ext_getElem?
        intro j
        rw [Array.getElem?_modify]
        split
        next hij =>
          rw [hij] at h
          cases hs : b.cells[j]? with
          | none => rfl
          | some s =>
              rw [hs] at h
              exact congrArg some h
        · rfl
      rw [hcells]

theorem modifyAt_update_eq_self {id : PieceId} (h : (b.stackAt p).find? id = none)
    (f : Piece → Piece) : b.modifyAt p (Stack.update · id f) = b :=
  modifyAt_eq_self (g := (Stack.update · id f)) (Stack.update_eq_self h f)

end Board

/-! ## Computations -/

/-- A computation that changes a board in place and may break off with a refusal, which leaves
behind what has been made of the board by then. -/
abbrev InPlace (α : Type) := EStateM BoardError Board α

namespace InPlace

variable {α : Type}

/-! ## Steps -/

def cellAt (p : Position) : InPlace Nat := do
  match (← get).index? p with
  | some i => return i
  | none => throw (.outOfBounds p)

def lookUp (id : PieceId) : InPlace Piece := do
  match (← get).find? id with
  | some piece => return piece
  | none => throw (.pieceNotFound id)

def take (id : PieceId) (i : Nat) : InPlace Piece := do
  match Stack.find? ((← get).cells[i]?.getD []) id with
  | some piece =>
    modify fun b => { b with cells := b.cells.modify i (Stack.remove · id) }
    return piece
  | none => throw (.pieceNotFound id)

def push (piece : Piece) (i : Nat) : InPlace Unit :=
  modify fun b => { b with cells := b.cells.modify i (· ++ [piece]) }

/-- Changes the piece `id` in the cell at a position, and gives it as it was. If it is not there,
nothing is changed. -/
def change? (id : PieceId) (p : Position) (f : Piece → Piece) : InPlace (Option Piece) := do
  match (← get).index? p with
  | none => return none
  | some i =>
    match Stack.find? ((← get).cells[i]?.getD []) id with
    | none => return none
    | some piece =>
      modify fun b => { b with cells := b.cells.modify i (Stack.update · id f) }
      return some piece

/-! ## Operations -/

def place (piece : Piece) : InPlace Unit := do
  push piece (← cellAt piece.position)

def move (id : PieceId) (source target : Position) : InPlace Unit := do
  let above ← cellAt target
  let below ← cellAt source
  let piece ← take id below
  push { piece with position := target } above

def step (id : PieceId) (d : Direction) : InPlace Position := do
  let piece ← lookUp id
  let target := piece.position.wrappedStep d
  move id piece.position target
  let _ ← change? id target ({ · with facing := d })
  return target

def setKind (id : PieceId) (kind : Kind) : InPlace Kind := do
  let piece ← lookUp id
  match ← change? id piece.position ({ · with kind }) with
  | some old => return old.kind
  | none => throw (.pieceNotFound id)

def remove (id : PieceId) : InPlace Piece := do
  let piece ← lookUp id
  take id (← cellAt piece.position)

/-! ## What is left behind -/

/-- The answer of an operation as a value, and the board that it leaves behind: the new one, or
after a refusal the old one. -/
def settle (b : Board) : Except BoardError (Board × α) → EStateM.Result BoardError Board α
  | .ok (b', a) => .ok a b'
  | .error refusal => .error refusal b

variable {β : Type} {m : InPlace α} {f : α → InPlace β} {a : α} {e : BoardError} {b b' : Board}
  {id : PieceId} {p : Position} {i : Nat} {x : Piece}

theorem run_bind_ok (h : m.run b = .ok a b') : (m >>= f).run b = (f a).run b' := by
  rw [EStateM.run_bind, h]

theorem run_bind_error (h : m.run b = .error e b') : (m >>= f).run b = .error e b' := by
  rw [EStateM.run_bind, h]

theorem run_get_bind (f : Board → InPlace α) : (get >>= f).run b = (f b).run b := rfl

theorem run_cellAt (h : b.index? p = some i) : (cellAt p).run b = .ok i b := by
  rw [cellAt, run_get_bind, h]
  rfl

theorem run_cellAt_none (h : b.index? p = none) :
    (cellAt p).run b = .error (.outOfBounds p) b := by
  rw [cellAt, run_get_bind, h]
  rfl

theorem run_lookUp (h : b.find? id = some x) : (lookUp id).run b = .ok x b := by
  rw [lookUp, run_get_bind, h]
  rfl

theorem run_lookUp_none (h : b.find? id = none) :
    (lookUp id).run b = .error (.pieceNotFound id) b := by
  rw [lookUp, run_get_bind, h]
  rfl

theorem run_take (hi : b.index? p = some i) (hx : (b.stackAt p).find? id = some x) :
    (take id i).run b = .ok x (b.modifyAt p (Stack.remove · id)) := by
  rw [Board.stackAt_of_index? hi] at hx
  rw [take, run_get_bind, hx, Board.modifyAt_eq hi]
  rfl

theorem run_take_none (hi : b.index? p = some i) (hx : (b.stackAt p).find? id = none) :
    (take id i).run b = .error (.pieceNotFound id) b := by
  rw [Board.stackAt_of_index? hi] at hx
  rw [take, run_get_bind, hx]
  rfl

theorem run_push (hi : b.index? p = some i) :
    (push x i).run b = .ok () (b.modifyAt p (· ++ [x])) := by
  rw [Board.modifyAt_eq hi]
  rfl

theorem run_change? (b : Board) (id : PieceId) (p : Position) (f : Piece → Piece) :
    (change? id p f).run b =
      .ok ((b.stackAt p).find? id) (b.modifyAt p (Stack.update · id f)) := by
  cases hi : b.index? p with
  | none =>
      rw [change?, run_get_bind, hi, Board.modifyAt, hi,
        Board.stackAt_of_not_inBounds (Board.index?_eq_none_iff.mp hi)]
      rfl
  | some i =>
      rw [change?, run_get_bind, hi]
      simp only [run_get_bind]
      rw [← Board.stackAt_of_index? hi]
      cases hx : (b.stackAt p).find? id with
      | none =>
          rw [Board.modifyAt_update_eq_self hx f]
          rfl
      | some x =>
          rw [Board.modifyAt_eq hi]
          rfl

theorem run_place (b : Board) (piece : Piece) :
    (place piece).run b = settle b ((b.place piece).map (·, ())) := by
  by_cases hp : b.InBounds piece.position
  · have hi := Board.index?_eq_some hp
    rw [place, run_bind_ok (run_cellAt hi), run_push hi, Board.place, if_pos hp]
    rfl
  · have hi := Board.index?_eq_none_iff.mpr hp
    rw [place, run_bind_error (run_cellAt_none hi), Board.place, if_neg hp]
    rfl

theorem run_move (b : Board) (id : PieceId) (source target : Position) :
    (move id source target).run b = settle b ((b.move id source target).map (·, ())) := by
  by_cases ht : b.InBounds target
  · have hj := Board.index?_eq_some ht
    by_cases hs : b.InBounds source
    · have hi := Board.index?_eq_some hs
      rw [move, run_bind_ok (run_cellAt hj), run_bind_ok (run_cellAt hi), Board.move,
        if_neg (not_not.mpr ht), if_neg (not_not.mpr hs)]
      cases hx : (b.stackAt source).find? id with
      | none =>
          rw [run_bind_error (run_take_none hi hx)]
          rfl
      | some piece =>
          have hj' : (b.modifyAt source (Stack.remove · id)).index? target = some _ :=
            (Board.index?_modifyAt ..).trans hj
          rw [run_bind_ok (run_take hi hx), run_push hj']
          rfl
    · have hi := Board.index?_eq_none_iff.mpr hs
      rw [move, run_bind_ok (run_cellAt hj), run_bind_error (run_cellAt_none hi), Board.move,
        if_neg (not_not.mpr ht), if_pos hs]
      rfl
  · have hj := Board.index?_eq_none_iff.mpr ht
    rw [move, run_bind_error (run_cellAt_none hj), Board.move, if_pos ht]
    rfl

theorem run_step (b : Board) (id : PieceId) (d : Direction) :
    (step id d).run b = settle b (b.step id d) := by
  cases hx : b.find? id with
  | none =>
      rw [step, run_bind_error (run_lookUp_none hx), Board.step, hx]
      rfl
  | some piece =>
      have hmove := run_move b id piece.position (piece.position.wrappedStep d)
      rw [step, run_bind_ok (run_lookUp hx), Board.step, hx]
      cases hb : b.move id piece.position (piece.position.wrappedStep d) with
      | error e =>
          rw [hb] at hmove
          rw [run_bind_error hmove]
          simp only [hb]
          rfl
      | ok moved =>
          rw [hb] at hmove
          rw [run_bind_ok hmove]
          rw [run_bind_ok (run_change? ..)]
          simp only [hb]
          rfl

theorem run_setKind (b : Board) (id : PieceId) (kind : Kind) :
    (setKind id kind).run b = settle b (b.setKind id kind) := by
  cases hx : b.find? id with
  | none =>
      rw [setKind, run_bind_error (run_lookUp_none hx), Board.setKind, hx]
      rfl
  | some piece =>
      rw [setKind, run_bind_ok (run_lookUp hx), run_bind_ok (run_change? ..), Board.setKind, hx]
      cases hold : (b.stackAt piece.position).find? id with
      | none =>
          rw [Board.modifyAt_update_eq_self hold]
          simp only [hold]
          rfl
      | some old =>
          simp only [hold]
          rfl

theorem run_remove (b : Board) (id : PieceId) :
    (remove id).run b = settle b (b.remove id) := by
  cases hx : b.find? id with
  | none =>
      rw [remove, run_bind_error (run_lookUp_none hx), Board.remove, hx]
      rfl
  | some piece =>
      rw [remove, run_bind_ok (run_lookUp hx), Board.remove, hx]
      by_cases hp : b.InBounds piece.position
      · have hi := Board.index?_eq_some hp
        rw [run_bind_ok (run_cellAt hi)]
        simp only [hp, not_true_eq_false, if_false]
        cases hfound : (b.stackAt piece.position).find? id with
        | none =>
            rw [run_take_none hi hfound]
            rfl
        | some found =>
            rw [run_take hi hfound]
            rfl
      · have hi := Board.index?_eq_none_iff.mpr hp
        rw [run_bind_error (run_cellAt_none hi)]
        simp only [hp, not_false_eq_true, if_true]
        rfl

end InPlace

end WordTiles
