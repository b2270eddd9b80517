import WordTiles.Proofs.Board.Symmetry
import WordTiles.Proofs.Board.Text

/-!
# Boards that differ in the order of their stacks

Two boards are reorderings of each other (`Board.Reordered`) when every cell holds the same
pieces on both, and the tiles of a cell stand in the same order among themselves. What is read
from a board sees of a stack only its tiles, and the capabilities and the outcome see of it only
which pieces there are; so they are the same on both boards. And changing every piece, leaving
pieces out and shifting them keep the boards reorderings of each other.
-/

set_option autoImplicit false

namespace WordTiles

/-! ## Stacks -/

namespace Stack

variable {s s' r r' : Stack}

/-- The same pieces, with the tiles in the same order among themselves. -/
structure Reordered (s s' : Stack) : Prop where
  perm : s.Perm s'
  tiles_eq : s.tiles = s'.tiles

instance (s s' : Stack) : Decidable (s.Reordered s') :=
  decidable_of_iff (s.Perm s' ∧ s.tiles = s'.tiles)
    ⟨fun h => ⟨h.1, h.2⟩, fun h => ⟨h.perm, h.tiles_eq⟩⟩

namespace Reordered

theorem append (h : s.Reordered s') (h' : r.Reordered r') : Reordered (s ++ r) (s' ++ r') where
  perm := h.perm.append h'.perm
  tiles_eq := by
    have htiles := h.tiles_eq
    have htiles' := h'.tiles_eq
    simp only [tiles, List.filter_append] at *
    rw [htiles, htiles']

/-- Changes that leave tiles tiles and things things do not disturb the order of the tiles. -/
theorem map (h : s.Reordered s') {f : Piece → Piece}
    (hf : ∀ x, (f x).kind.isTile = x.kind.isTile) : Reordered (s.map f) (s'.map f) where
  perm := h.perm.map f
  tiles_eq := by
    have htiles : ∀ s : Stack, tiles (s.map f) = (tiles s).map f := by
      intro s
      simp only [tiles, List.filter_map, Function.comp_def, hf]
    rw [htiles s, htiles s', h.tiles_eq]

theorem filter (h : s.Reordered s') {keep keep' : Piece → Bool}
    (hkeep : ∀ x ∈ s, keep x = keep' x) : Reordered (s.filter keep) (s'.filter keep') := by
  have hkeep' : s'.filter keep' = s'.filter keep :=
    List.filter_congr fun x hx => (hkeep x (h.perm.mem_iff.mpr hx)).symm
  rw [hkeep']
  refine ⟨h.perm.filter keep, ?_⟩
  have htiles : ∀ s : Stack, tiles (s.filter keep) = (tiles s).filter keep := by
    intro s
    simp only [tiles, List.filter_filter, Bool.and_comm]
  rw [htiles s, htiles s', h.tiles_eq]

end Reordered

end Stack

namespace Board

/-- Boards of one size whose cells hold the same pieces, with the tiles of each cell in the same
order among themselves. -/
structure Reordered (b b' : Board) : Prop where
  rows_eq : b.rows = b'.rows
  cols_eq : b.cols = b'.cols
  stackAt : ∀ p, (b.stackAt p).Reordered (b'.stackAt p)

namespace Reordered

variable {b b' : Board} {p : Position}

theorem inBounds_iff (h : b.Reordered b') : b.InBounds p ↔ b'.InBounds p := by
  rw [InBounds, h.rows_eq, h.cols_eq, InBounds]

theorem positions_eq (h : b.Reordered b') (hb : b.Sized) (hb' : b'.Sized) :
    b.positions = b'.positions :=
  positions_congr hb' hb h.rows_eq h.cols_eq

theorem pieces_perm (h : b.Reordered b') (hb : b.Sized) (hb' : b'.Sized) :
    b.pieces.Perm b'.pieces := by
  rw [pieces_eq_flatMap hb, pieces_eq_flatMap hb', h.positions_eq hb hb']
  exact List.Perm.flatMap_left _ fun p _ => (h.stackAt p).perm

/-- It is enough to compare the cells of the board: off it nothing stands. -/
theorem of_positions (hb : b.Sized) (hrows : b.rows = b'.rows) (hcols : b.cols = b'.cols)
    (h : ∀ p ∈ b.positions, (b.stackAt p).Reordered (b'.stackAt p)) : b.Reordered b' where
  rows_eq := hrows
  cols_eq := hcols
  stackAt p := by
    by_cases hp : b.InBounds p
    · exact h p ((mem_positions_iff hb).mpr hp)
    · have hp' : ¬ b'.InBounds p := by
        rw [InBounds, hrows, hcols] at hp
        exact hp
      rw [stackAt_of_not_inBounds hp, stackAt_of_not_inBounds hp']
      exact ⟨List.Perm.refl _, rfl⟩

/-! ## What is seen of a board -/

/-- The same rules and the same rejected runs are read, in the same order. -/
theorem read_eq (h : b.Reordered b') (hb : b.Sized) (hb' : b'.Sized) : b.read = b'.read := by
  have htext : b'.SameText b := .of_tiles h.rows_eq h.cols_eq fun p => (h.stackAt p).tiles_eq
  exact htext.read_eq hb' hb

theorem resembles (h : b.Reordered b') : Resembles .identity b b' where
  inBounds_iff _ := h.inBounds_iff.symm
  stackAt p := (h.stackAt p).perm.symm.map _

theorem build_eq (h : b.Reordered b') (hb : b.Sized) (hb' : b'.Sized) (rs : RuleSet) :
    CapabilityTable.build rs b = CapabilityTable.build rs b' :=
  (h.resembles.build_eq hb hb' rs).symm

theorem outcome_eq (h : b.Reordered b') (hb : b.Sized) (hb' : b'.Sized) (t : CapabilityTable) :
    b.outcome t = b'.outcome t :=
  (h.resembles.outcome_eq hb hb' t).symm

/-! ## Changes of the whole board -/

theorem restack (h : b.Reordered b') (hb : b.Sized) (hb' : b'.Sized) {f f' : Position → Stack}
    (hf : ∀ p, (f p).Reordered (f' p)) : (b.restack f).Reordered (b'.restack f') := by
  have hsized := sized_restack hb f
  refine of_positions hsized h.rows_eq h.cols_eq fun p hp => ?_
  have hin : b.InBounds p := (mem_positions_iff hsized).mp hp
  rw [stackAt_restack hb hin, stackAt_restack hb' (h.inBounds_iff.mp hin)]
  exact hf p

theorem mapPieces (h : b.Reordered b') (hb : b.Sized) (hb' : b'.Sized) {f : Piece → Piece}
    (hf : ∀ x, (f x).kind.isTile = x.kind.isTile) : (b.mapPieces f).Reordered (b'.mapPieces f) :=
  h.restack hb hb' fun p => (h.stackAt p).map hf

theorem filterPieces (h : b.Reordered b') (hb : b.Sized) (hb' : b'.Sized)
    {keep keep' : Piece → Bool} (hkeep : ∀ x ∈ b.pieces, keep x = keep' x) :
    (b.filterPieces keep).Reordered (b'.filterPieces keep') :=
  h.restack hb hb' fun p => (h.stackAt p).filter fun x hx =>
    hkeep x ((mem_pieces_iff hb).mpr ⟨p, hx⟩)

theorem shift (h : b.Reordered b') (hb : b.Sized) (hb' : b'.Sized) (d : Direction)
    {moving moving' : PieceId → Bool} (hmoving : ∀ x ∈ b.pieces, moving x.id = moving' x.id) :
    (b.shift d moving).Reordered (b'.shift d moving') := by
  have hstack : ∀ p, ∀ x ∈ b.stackAt p, moving x.id = moving' x.id := fun p x hx =>
    hmoving x ((mem_pieces_iff hb).mpr ⟨p, hx⟩)
  apply h.restack hb hb'
  intro q
  apply Stack.Reordered.append
  · exact (h.stackAt q).filter fun x hx => by rw [hstack q x hx]
  · exact ((h.stackAt _).filter fun x hx => hstack _ x hx).map fun _ => rfl

end Reordered

end Board

end WordTiles
