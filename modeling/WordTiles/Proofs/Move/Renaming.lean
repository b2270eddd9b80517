import WordTiles.Proofs.Board.Renaming
import WordTiles.Proofs.Move.Symmetry

/-!
# Moves of renamed pieces

When one board is a renaming of another, the same pieces try to move, and the same move; the
attempts and the steps are listed in the same order under the new names
(`Board.Renamed.attempts_eq`, `Board.Renamed.steps_eq`). That each piece moves once, however many
chains it is part of, is decided by identities; but since steps are put in order by the places of
the pieces, it leaves no trace.
-/

set_option autoImplicit false

namespace WordTiles

variable {f : PieceId → PieceId} {moved : PieceId → Prop}

def Attempt.rename (f : PieceId → PieceId) (a : Attempt) : Attempt := { a with piece := f a.piece }

def Mover.rename (f : PieceId → PieceId) (m : Mover) : Mover := { m with piece := f m.piece }

def Step.rename (f : PieceId → PieceId) (s : Step) : Step := { s with piece := f s.piece }

/-- Names have no part in the order of steps. -/
theorem Mover.inOrder_rename (f : PieceId → PieceId) (d : Direction) (ms : List Mover) :
    inOrder d (ms.map (·.rename f)) = (inOrder d ms).map (·.rename f) := by
  have hprecedes : ∀ m ∈ ms, ∀ m' ∈ ms,
      precedes d m m' = precedes d (m.rename f) (m'.rename f) := fun _ _ _ _ => rfl
  exact (List.map_mergeSort hprecedes).symm

theorem Stack.Renamed.zipIdx_eq {s s' : Stack} (h : s.Renamed f moved s') (n : Nat) :
    ((s'.zipIdx n).map fun e => Mover.ofPushed ⟨e.1, e.2⟩) =
      ((s.zipIdx n).map fun e => Mover.ofPushed ⟨e.1, e.2⟩).map (·.rename f) := by
  induction h generalizing n with
  | nil => rfl
  | @cons x y s s' hxy _ ih =>
      have hmover : Mover.ofPushed ⟨y, n⟩ = (Mover.ofPushed ⟨x, n⟩).rename f := by
        rw [Mover.ofPushed, hxy.id_eq, hxy.kind_eq, hxy.position_eq]
        rfl
      rw [List.zipIdx_cons, List.zipIdx_cons, List.map_cons, List.map_cons, List.map_cons, ih,
        hmover]

namespace Board.Renamed

variable {b b' : Board} {x y : Piece}

theorem standing_eq (h : b.Renamed f moved b') (hb : b.Sized) (hb' : b'.Sized) :
    b'.standing = b.standing.map (·.rename f) := by
  rw [standing, standing, positions_congr hb hb' h.rows_eq h.cols_eq, List.map_flatMap]
  exact List.flatMap_congr fun p _ => (h.stackAt p).zipIdx_eq 0

theorem moves_plan_eq (h : b.Renamed f moved b') (hb : b.Valid) (hb' : b'.Valid)
    (t : CapabilityTable) (d : Direction) (limit : Nat) (hx : x ∈ b.pieces) (hy : y ∈ b'.pieces)
    (hxy : x.Renamed f moved y) :
    (b'.plan t d limit).moves y.id = (b.plan t d limit).moves x.id :=
  h.resembles.moves_plan_eq hb hb' t d limit hx hy hxy.kind_eq hxy.position_eq

/-- The attempts are made in the same order and end in the same way. -/
theorem attempts_eq (h : b.Renamed f moved b') (hb : b.Valid) (hb' : b'.Valid)
    (t : CapabilityTable) (d : Direction) (limit : Nat) :
    (b'.plan t d limit).attempts = (b.plan t d limit).attempts.map (·.rename f) := by
  have hcontrolled := (h.pieces hb.sized hb'.sized).filter_kind fun k => (t.ofKind k).controllable
  rw [hb.attempts_plan_eq, hb'.attempts_plan_eq, List.map_map]
  apply hcontrolled.map_eq
  intro x y hxy
  have hverdict : b'.verdict t d limit x.position = b.verdict t d limit x.position :=
    h.resembles.verdict_eq t d limit x.position
  rw [hxy.id_eq, hxy.position_eq, hverdict]
  rfl

theorem steps_eq (h : b.Renamed f moved b') (hb : b.Valid) (hb' : b'.Valid)
    (t : CapabilityTable) (d : Direction) (limit : Nat) :
    (Mover.inOrder d (b'.plan t d limit).movers).map (Mover.stepTo d) =
      ((Mover.inOrder d (b.plan t d limit).movers).map (Mover.stepTo d)).map (·.rename f) := by
  have hmoves : ∀ m ∈ b.standing, (b'.plan t d limit).moves (m.rename f).piece =
      (b.plan t d limit).moves m.piece := by
    intro m hm
    obtain ⟨x, hlayer, hid, -⟩ := hb.mem_standing_iff.mp hm
    obtain ⟨y, hy, hxy⟩ := (h.stackAt m.position).exists_of_mem (List.mem_of_getElem? hlayer)
    show (b'.plan t d limit).moves (f m.piece) = _
    rw [← hid, ← hxy.id_eq]
    exact h.moves_plan_eq hb hb' t d limit
      ((mem_pieces_iff hb.sized).mpr ⟨_, List.mem_of_getElem? hlayer⟩)
      ((mem_pieces_iff hb'.sized).mpr ⟨_, hy⟩) hxy
  have hfilter : b.standing.filter
      ((fun m => (b'.plan t d limit).moves m.piece) ∘ (·.rename f)) =
      b.standing.filter fun m => (b.plan t d limit).moves m.piece := List.filter_congr hmoves
  rw [hb.inOrder_movers_eq, hb'.inOrder_movers_eq, h.standing_eq hb.sized hb'.sized,
    List.filter_map, hfilter, Mover.inOrder_rename, List.map_map, List.map_map]
  rfl

end Board.Renamed

end WordTiles
