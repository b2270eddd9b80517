import WordTiles.Proofs.Board.Reordering
import WordTiles.Proofs.Move.Symmetry

/-!
# Moves and hazards on reordered stacks

How an attempt ends depends on which kinds of pieces stand in the cells ahead, and not on their
places in a stack. So on boards that are reorderings of each other the same pieces try to move and
the same move (`Board.Reordered.attempts_perm`, `Board.Reordered.moves_plan_eq`), though the chains
list them differently, and the same are destroyed (`Board.Reordered.destroyed_iff`).
-/

set_option autoImplicit false

namespace WordTiles.Board.Reordered

variable {b b' : Board} {x : Piece}

theorem verdict_eq (h : b.Reordered b') (t : CapabilityTable) (d : Direction) (limit : Nat)
    (p : Position) : b.verdict t d limit p = b'.verdict t d limit p :=
  (h.resembles.verdict_eq t d limit p).symm

/-- The same attempts are made, and they end in the same way. -/
theorem attempts_perm (h : b.Reordered b') (hb : b.Valid) (hb' : b'.Valid)
    (t : CapabilityTable) (d : Direction) (limit : Nat) :
    (b.plan t d limit).attempts.Perm (b'.plan t d limit).attempts := by
  rw [hb.attempts_plan_eq, hb'.attempts_plan_eq]
  simp only [h.verdict_eq]
  exact ((h.pieces_perm hb.sized hb'.sized).filter _).map _

theorem moves_plan_eq (h : b.Reordered b') (hb : b.Valid) (hb' : b'.Valid)
    (t : CapabilityTable) (d : Direction) (limit : Nat) (hx : x ∈ b.pieces) :
    (b.plan t d limit).moves x.id = (b'.plan t d limit).moves x.id := by
  have hx' : x ∈ b'.pieces := (h.pieces_perm hb.sized hb'.sized).mem_iff.mp hx
  exact (h.resembles.moves_plan_eq hb hb' t d limit hx hx' rfl rfl).symm

theorem destroyed_iff (h : b.Reordered b') (hb : b.Valid) (hb' : b'.Valid)
    (t : CapabilityTable) (hx : x ∈ b.pieces) :
    x.id ∈ (b.destructions t).map (·.piece) ↔ x.id ∈ (b'.destructions t).map (·.piece) := by
  have hx' : x ∈ b'.pieces := (h.pieces_perm hb.sized hb'.sized).mem_iff.mp hx
  exact (h.resembles.destroyed_iff hb hb' t hx hx' rfl rfl).symm

end WordTiles.Board.Reordered
