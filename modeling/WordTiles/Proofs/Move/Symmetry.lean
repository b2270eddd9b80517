import WordTiles.Proofs.Board.Symmetry
import WordTiles.Proofs.Move.Resolution

/-!
# Moves seen through a symmetry

How an attempt ends depends on which kinds of pieces stand in the cells ahead, and not on the way
in which the grid is turned (`Board.Related.verdict_eq`). So on boards that resemble each other
through a symmetry the pieces that correspond to each other move together
(`Board.Related.moves_plan_eq`). When one board is the image of the other, the attempts are images,
too (`Board.Related.attempts_perm`).
-/

set_option autoImplicit false

namespace WordTiles

variable {σ : Symmetry} {b b' : Board} {t : CapabilityTable} {d : Direction} {limit : Nat}
  {p : Position} {x y : Piece}

def Symmetry.onAttempt (σ : Symmetry) (a : Attempt) : Attempt :=
  { a with position := σ.cell a.position }

namespace Stack.SameKinds

variable {s s' : Stack}

theorem blocks_eq (h : s.SameKinds s') (t : CapabilityTable) : t.blocks s' = t.blocks s :=
  h.any_eq fun k => (t.ofKind k).blocking

theorem exists_controllable_iff (h : s.SameKinds s') (t : CapabilityTable) :
    (∃ x ∈ s', (t.ofPiece x).controllable = true) ↔ ∃ x ∈ s, (t.ofPiece x).controllable = true := by
  rw [← List.any_eq_true, ← List.any_eq_true]
  exact Bool.eq_iff_iff.mp (h.any_eq fun k => (t.ofKind k).controllable)

theorem loaded_iff (h : s.SameKinds s') (t : CapabilityTable) : t.Loaded s' ↔ t.Loaded s := by
  rw [CapabilityTable.Loaded, CapabilityTable.Loaded, ← List.any_eq_true, ← List.any_eq_true]
  exact Bool.eq_iff_iff.mp (h.any_eq fun k => (t.ofKind k).pushable)

theorem isEmpty_pushables_eq (h : s.SameKinds s') (t : CapabilityTable) :
    (t.pushables s').isEmpty = (t.pushables s).isEmpty := by
  have hload := h.loaded_iff t
  rw [CapabilityTable.loaded_iff, CapabilityTable.loaded_iff, not_iff_not] at hload
  rw [Bool.eq_iff_iff, List.isEmpty_iff, List.isEmpty_iff]
  exact hload

end Stack.SameKinds

namespace Board.Related

/-! ## Moves -/

/-- Attempts from corresponding cells end in the same way. -/
theorem verdict_eq (h : Resembles σ b b') (t : CapabilityTable) (d : Direction) (limit : Nat)
    (p : Position) : b'.verdict t (σ.turn d) limit (σ.cell p) = b.verdict t d limit p := by
  induction limit generalizing p with
  | zero =>
      rw [Board.verdict_eq, Board.verdict_eq b, ← σ.cell_step]
      simp only [h.inBounds_iff, (h.stackAt _).blocks_eq, (h.stackAt _).isEmpty_pushables_eq]
  | succ limit ih =>
      rw [Board.verdict_eq, Board.verdict_eq b, ← σ.cell_step]
      simp only [h.inBounds_iff, (h.stackAt _).blocks_eq, (h.stackAt _).isEmpty_pushables_eq, ih]

theorem moves_iff (h : Resembles σ b b') (t : CapabilityTable) (d : Direction) (limit : Nat)
    (hkind : y.kind = x.kind) (hposition : y.position = σ.cell x.position) :
    b'.Moves t (σ.turn d) limit y ↔ b.Moves t d limit x := by
  have hpiece : t.ofPiece y = t.ofPiece x := congrArg t.ofKind hkind
  have hback : ∀ k, (σ.cell x.position).advance (σ.turn d).reverse k =
      σ.cell (x.position.advance d.reverse k) := fun k => by
    rw [← σ.turn_reverse, ← σ.cell_advance]
  simp only [Moves, hpiece, hposition, hback, h.verdict_eq, (h.stackAt _).loaded_iff]
  -- who pushes is another piece on each board, but of one kind
  refine or_congr_right (and_congr_right fun _ => exists_congr fun k => and_congr_right fun _ => ?_)
  have hpusher := (h.stackAt (x.position.advance d.reverse k)).exists_controllable_iff t
  simp only [← and_assoc, exists_and_right] at hpusher ⊢
  rw [hpusher]

/-- The plans move corresponding pieces together. -/
theorem moves_plan_eq (h : Resembles σ b b') (hb : b.Valid) (hb' : b'.Valid)
    (t : CapabilityTable) (d : Direction) (limit : Nat) (hx : x ∈ b.pieces) (hy : y ∈ b'.pieces)
    (hkind : y.kind = x.kind) (hposition : y.position = σ.cell x.position) :
    (b'.plan t (σ.turn d) limit).moves y.id = (b.plan t d limit).moves x.id := by
  rw [Bool.eq_iff_iff, hb.moves_plan_iff hx, hb'.moves_plan_iff hy,
    h.moves_iff t d limit hkind hposition]

/-! ## Images -/

theorem moves_plan_image (h : Image σ b b') (hb : b.Valid) (hb' : b'.Valid) (t : CapabilityTable)
    (d : Direction) (limit : Nat) (hx : x ∈ b.pieces) :
    (b'.plan t (σ.turn d) limit).moves x.id = (b.plan t d limit).moves x.id :=
  h.resembles.moves_plan_eq (y := σ.onPiece x) hb hb' t d limit hx
    (h.onPiece_mem hb.sized hb'.sized hx) rfl rfl

/-- On the image of a board the images of the attempts are made. -/
theorem attempts_perm (h : Image σ b b') (hb : b.Valid) (hb' : b'.Valid) (t : CapabilityTable)
    (d : Direction) (limit : Nat) :
    (b'.plan t (σ.turn d) limit).attempts.Perm
      ((b.plan t d limit).attempts.map σ.onAttempt) := by
  have hperm := ((h.pieces_perm hb.sized hb'.sized).filter fun x => (t.ofPiece x).controllable).map
    fun x => (⟨x.id, x.position, b'.verdict t (σ.turn d) limit x.position⟩ : Attempt)
  rw [List.filter_map, List.map_map] at hperm
  rw [hb.attempts_plan_eq, hb'.attempts_plan_eq, List.map_map]
  have himage : ∀ x : Piece,
      (⟨x.id, σ.cell x.position, b'.verdict t (σ.turn d) limit (σ.cell x.position)⟩ : Attempt) =
        σ.onAttempt ⟨x.id, x.position, b.verdict t d limit x.position⟩ := fun x => by
    rw [h.resembles.verdict_eq]
    rfl
  refine hperm.trans (List.Perm.of_eq ?_)
  exact List.map_congr_left fun x _ => himage x

end Board.Related

end WordTiles
