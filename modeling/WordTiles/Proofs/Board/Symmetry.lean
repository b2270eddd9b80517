import Mathlib.Data.List.Perm.Basic
import WordTiles.Outcome
import WordTiles.Proofs.Capability
import WordTiles.Proofs.Hazard
import WordTiles.Proofs.Move.Shift

/-!
# Boards seen through a symmetry

A symmetry of the grid takes neighbouring cells to neighbouring cells. Two boards can be compared
through one stack by stack, in whatever sense two stacks are alike (`Board.Related`). Here the
sense is that a stack has as many pieces of each kind as the other one (`Board.Resembles`), which
is all that the capabilities, the outcome and the hazards see of it; or that it has the same
pieces in the same order, moved and turned by the symmetry (`Board.Image`). Changing pieces,
leaving pieces out and shifting them make images of images.
-/

set_option autoImplicit false

namespace WordTiles

/-! ## Symmetries -/

/-- A symmetry of the grid: where it takes the cells and the directions. It takes the neighbour of
a cell in a direction to the neighbour of the new cell in the new direction, and undoes itself. -/
structure Symmetry where
  cell : Position → Position
  turn : Direction → Direction
  cell_step : ∀ p d, cell (p.step d) = (cell p).step (turn d)
  cell_cell : ∀ p, cell (cell p) = p

namespace Symmetry

variable (σ : Symmetry)

def identity : Symmetry := ⟨id, id, fun _ _ => rfl, fun _ => rfl⟩

/-- The piece in its new cell, facing its new way. -/
def onPiece (x : Piece) : Piece :=
  { x with position := σ.cell x.position, facing := σ.turn x.facing }

theorem cell_injective : Function.Injective σ.cell := Function.LeftInverse.injective σ.cell_cell

theorem turn_reverse (d : Direction) : σ.turn d.reverse = (σ.turn d).reverse := by
  have hback : ((⟨0, 0⟩ : Position).step d).step d.reverse = ⟨0, 0⟩ :=
    Position.step_reverse_step _ d
  -- a step and the step back cancel, and so do their images
  have himage := congrArg σ.cell hback
  rw [σ.cell_step, σ.cell_step] at himage
  generalize σ.cell ⟨0, 0⟩ = p at himage
  generalize σ.turn d = e at himage ⊢
  generalize σ.turn d.reverse = e' at himage ⊢
  obtain ⟨row, col⟩ := p
  cases e <;> cases e' <;>
    simp [Position.step, Direction.rowStep, Direction.colStep, Direction.reverse] at himage ⊢ <;>
    omega

theorem cell_advance (p : Position) (d : Direction) (k : Nat) :
    σ.cell (p.advance d k) = (σ.cell p).advance (σ.turn d) k := by
  induction k with
  | zero => rw [Position.advance_zero, Position.advance_zero]
  | succ k ih => rw [← Position.step_advance, σ.cell_step, ih, Position.step_advance]

end Symmetry

variable {σ : Symmetry}

/-! ## Stacks of the same kinds -/

namespace Stack

def SameKinds (s s' : Stack) : Prop := (s'.map (·.kind)).Perm (s.map (·.kind))

variable {s s' : Stack} {x y : Piece}

theorem SameKinds.any_eq (h : s.SameKinds s') (f : Kind → Bool) :
    (s'.any fun x => f x.kind) = s.any fun x => f x.kind := by
  have hmap : ∀ r : Stack, (r.any fun x => f x.kind) = (r.map (·.kind)).any f := fun r => by
    rw [List.any_map]
    rfl
  rw [hmap, hmap, List.Perm.any_eq h]

theorem SameKinds.length_eq (h : s.SameKinds s') : s'.length = s.length := by
  simpa using List.Perm.length_eq h

theorem SameKinds.filter (h : s.SameKinds s') (f : Kind → Bool) :
    SameKinds (s.filter fun x => f x.kind) (s'.filter fun x => f x.kind) := by
  have hmap : ∀ r : Stack, (r.filter fun x => f x.kind).map (·.kind) = (r.map (·.kind)).filter f :=
    fun r => by
      rw [List.filter_map]
      rfl
  rw [SameKinds, hmap, hmap]
  exact List.Perm.filter f h

/-- A cell decides by the kinds of its pieces. -/
theorem SameKinds.ofCell_eq (h : s.SameKinds s') (t : CapabilityTable) :
    Outcome.ofCell t s' = Outcome.ofCell t s := by
  have hyou : (s'.any fun x => (t.ofPiece x).controllable) =
      s.any fun x => (t.ofPiece x).controllable := h.any_eq fun k => (t.ofKind k).controllable
  have hdefeat : (s'.any fun x => (t.ofPiece x).losing) =
      s.any fun x => (t.ofPiece x).losing := h.any_eq fun k => (t.ofKind k).losing
  have hwin : (s'.any fun x => (t.ofPiece x).winning) =
      s.any fun x => (t.ofPiece x).winning := h.any_eq fun k => (t.ofKind k).winning
  rw [Outcome.ofCell, hyou, hdefeat, hwin, Outcome.ofCell]

/-- What a piece suffers depends on its kind and on those of its level. -/
theorem SameKinds.cause?_eq (h : s.SameKinds s') (t : CapabilityTable) (hkind : y.kind = x.kind) :
    Destruction.cause? t s' y = Destruction.cause? t s x := by
  have hsink : (s'.any fun o => (t.ofPiece o).sinking) = s.any fun o => (t.ofPiece o).sinking :=
    h.any_eq fun k => (t.ofKind k).sinking
  have hhot : (s'.any fun o => (t.ofPiece o).hot) = s.any fun o => (t.ofPiece o).hot :=
    h.any_eq fun k => (t.ofKind k).hot
  have hpiece : t.ofPiece y = t.ofPiece x := congrArg t.ofKind hkind
  rw [Destruction.cause?, hsink, hhot, h.length_eq, hpiece, Destruction.cause?]

/-- The second stack has the pieces of the first one, moved and turned by the symmetry. -/
def Image (σ : Symmetry) (s s' : Stack) : Prop := s' = s.map σ.onPiece

theorem Image.sameKinds (h : s.Image σ s') : s.SameKinds s' := by
  rw [h, SameKinds, List.map_map]
  exact List.Perm.refl _

end Stack

/-- In whatever order, the gravest of some outcomes is the same. -/
theorem Outcome.foldl_max_perm {os os' : List Outcome} (h : os'.Perm os) (o : Outcome) :
    os'.foldl max o = os.foldl max o := by
  have hcomm : RightCommutative max :=
    ⟨fun o o' o'' => by rw [max_assoc, max_comm o' o'', ← max_assoc]⟩
  exact h.foldl_eq o

namespace Board

variable {b b' : Board} {p : Position} {x y : Piece} {R S : Stack → Stack → Prop}

/-! ## Related boards -/

/-- Boards whose stacks are related: each stack of the first one with the stack of the second one
in the cell that the symmetry takes its own to. -/
structure Related (σ : Symmetry) (R : Stack → Stack → Prop) (b b' : Board) : Prop where
  inBounds_iff : ∀ p, b'.InBounds (σ.cell p) ↔ b.InBounds p
  stackAt : ∀ p, R (b.stackAt p) (b'.stackAt (σ.cell p))

namespace Related

theorem imp (h : Related σ R b b') (himp : ∀ s s', R s s' → S s s') : Related σ S b b' :=
  ⟨h.inBounds_iff, fun p => himp _ _ (h.stackAt p)⟩

theorem positions_perm (h : Related σ R b b') (hb : b.Sized) (hb' : b'.Sized) :
    b'.positions.Perm (b.positions.map σ.cell) := by
  apply (List.perm_ext_iff_of_nodup (nodup_positions hb')
    ((nodup_positions hb).map σ.cell_injective)).mpr
  intro q
  obtain ⟨p, rfl⟩ : ∃ p, σ.cell p = q := ⟨σ.cell q, σ.cell_cell q⟩
  rw [mem_positions_iff hb', h.inBounds_iff, List.mem_map_of_injective σ.cell_injective,
    mem_positions_iff hb]

/-- Boards made of related stacks are related. -/
theorem restack (h : Related σ R b b') (hb : b.Sized) (hb' : b'.Sized) (hnil : S [] [])
    {f f' : Position → Stack} (hf : ∀ p, S (f p) (f' (σ.cell p))) :
    Related σ S (b.restack f) (b'.restack f') where
  inBounds_iff := h.inBounds_iff
  stackAt p := by
    by_cases hp : b.InBounds p
    · rw [stackAt_restack hb hp, stackAt_restack hb' ((h.inBounds_iff p).mpr hp)]
      exact hf p
    · have hp' : ¬ (b'.restack f').InBounds (σ.cell p) := fun hin => hp ((h.inBounds_iff p).mp hin)
      rw [stackAt_of_not_inBounds hp', stackAt_of_not_inBounds (b := b.restack f) hp]
      exact hnil

end Related

/-! ## Boards of the same kinds -/

/-- Boards with as many pieces of each kind in every cell. -/
abbrev Resembles (σ : Symmetry) (b b' : Board) : Prop := Related σ Stack.SameKinds b b'

namespace Related

theorem exists_thing_iff (h : Resembles σ b b') (hb : b.Sized) (hb' : b'.Sized) (n : Noun) :
    n ∈ b'.pieces.filterMap (·.kind.noun?) ↔ n ∈ b.pieces.filterMap (·.kind.noun?) := by
  have hcell : ∀ s : Stack, (s.any fun x => x.kind.noun? == some n) = true ↔
      ∃ x ∈ s, x.kind.noun? = some n := fun s => by simp
  have hmem : ∀ b : Board, b.Sized → (n ∈ b.pieces.filterMap (·.kind.noun?) ↔
      ∃ p, ((b.stackAt p).any fun x => x.kind.noun? == some n) = true) := by
    intro b hb
    simp only [hcell, List.mem_filterMap, mem_pieces_iff hb]
    constructor
    · rintro ⟨x, ⟨p, hx⟩, hn⟩
      exact ⟨p, x, hx, hn⟩
    · rintro ⟨p, x, hx, hn⟩
      exact ⟨x, ⟨p, hx⟩, hn⟩
  rw [hmem b hb, hmem b' hb']
  constructor
  · rintro ⟨q, hq⟩
    refine ⟨σ.cell q, ?_⟩
    rw [← (h.stackAt (σ.cell q)).any_eq (·.noun? == some n), σ.cell_cell]
    exact hq
  · rintro ⟨p, hp⟩
    refine ⟨σ.cell p, ?_⟩
    rw [(h.stackAt p).any_eq (·.noun? == some n)]
    exact hp

theorem build_eq (h : Resembles σ b b') (hb : b.Sized) (hb' : b'.Sized) (rs : RuleSet) :
    CapabilityTable.build rs b' = CapabilityTable.build rs b :=
  CapabilityTable.build_congr rs (h.exists_thing_iff hb hb')

theorem outcome_eq (h : Resembles σ b b') (hb : b.Sized) (hb' : b'.Sized) (t : CapabilityTable) :
    b'.outcome t = b.outcome t := by
  have hcells : b.positions.map ((fun p => Outcome.ofCell t (b'.stackAt p)) ∘ σ.cell) =
      b.positions.map (Outcome.ofCell t ∘ b.stackAt) :=
    List.map_congr_left fun p _ => (h.stackAt p).ofCell_eq t
  have hperm := (h.positions_perm hb hb').map fun p => Outcome.ofCell t (b'.stackAt p)
  rw [List.map_map, hcells] at hperm
  rw [outcome, outcome, ← map_stackAt_positions hb, ← map_stackAt_positions hb', List.map_map,
    List.map_map]
  exact Outcome.foldl_max_perm hperm .ongoing

theorem destroyed_iff (h : Resembles σ b b') (hb : b.Valid) (hb' : b'.Valid) (t : CapabilityTable)
    (hx : x ∈ b.pieces) (hy : y ∈ b'.pieces) (hkind : y.kind = x.kind)
    (hposition : y.position = σ.cell x.position) :
    y.id ∈ (b'.destructions t).map (·.piece) ↔ x.id ∈ (b.destructions t).map (·.piece) := by
  have hpiece : t.ofPiece y = t.ofPiece x := congrArg t.ofKind hkind
  have hlevel : (b.level t x).SameKinds (b'.level t y) := by
    rw [level, level, hposition, hpiece]
    exact (h.stackAt x.position).filter fun k => (t.ofKind k).floating == (t.ofPiece x).floating
  rw [hb.destroyed_iff hx, hb'.destroyed_iff hy, hlevel.cause?_eq t hkind]

end Related

/-! ## Images -/

/-- The second board is the image of the first one: it has the same pieces in the same order in
the cells that the symmetry takes theirs to, and turned by it. -/
abbrev Image (σ : Symmetry) (b b' : Board) : Prop := Related σ (Stack.Image σ) b b'

/-- The board of a given size with the stacks of a board in the cells that a symmetry takes them
to. -/
def image (σ : Symmetry) (rows cols : Nat) (b : Board) : Board :=
  (empty rows cols).restack fun p => (b.stackAt (σ.cell p)).map σ.onPiece

theorem sized_image (σ : Symmetry) (rows cols : Nat) (b : Board) : (b.image σ rows cols).Sized :=
  sized_restack (sized_empty rows cols) _

/-- With room for all cells of a board, this is its image. -/
theorem image_image {rows cols : Nat} (b : Board)
    (hin : ∀ p, (σ.cell p).Within rows cols ↔ b.InBounds p) : b.Image σ (b.image σ rows cols) where
  inBounds_iff := hin
  stackAt p := by
    by_cases hp : b.InBounds p
    · have hcell : (empty rows cols).InBounds (σ.cell p) := (hin p).mpr hp
      rw [image, stackAt_restack (sized_empty rows cols) hcell, σ.cell_cell]
      rfl
    · have hcell : ¬ (b.image σ rows cols).InBounds (σ.cell p) := fun h => hp ((hin p).mp h)
      rw [stackAt_of_not_inBounds hcell, stackAt_of_not_inBounds hp]
      rfl

namespace Related

theorem stackAt_eq (h : Image σ b b') (p : Position) :
    b'.stackAt (σ.cell p) = (b.stackAt p).map σ.onPiece := h.stackAt p

theorem eq_image (h : Image σ b b') (hb' : b'.Sized) : b' = b.image σ b'.rows b'.cols := by
  apply eq_of_stackAt hb' (sized_image σ _ _ b) rfl rfl
  intro q hq
  have hstack := h.stackAt_eq (σ.cell q)
  rw [σ.cell_cell] at hstack
  have hq' : (empty b'.rows b'.cols).InBounds q := hq
  rw [hstack, image, stackAt_restack (sized_empty _ _) hq']

theorem resembles (h : Image σ b b') : Resembles σ b b' := h.imp fun _ _ => Stack.Image.sameKinds

theorem pieces_perm (h : Image σ b b') (hb : b.Sized) (hb' : b'.Sized) :
    b'.pieces.Perm (b.pieces.map σ.onPiece) := by
  have hcells : (b.positions.map σ.cell).flatMap b'.stackAt =
      b.positions.flatMap fun p => (b.stackAt p).map σ.onPiece := by
    rw [List.flatMap_map]
    exact List.flatMap_congr fun p _ => h.stackAt_eq p
  rw [pieces_eq_flatMap hb, pieces_eq_flatMap hb', List.map_flatMap, ← hcells]
  exact List.Perm.flatMap_right _ (h.positions_perm hb hb')

theorem onPiece_mem (h : Image σ b b') (hb : b.Sized) (hb' : b'.Sized) (hx : x ∈ b.pieces) :
    σ.onPiece x ∈ b'.pieces :=
  (h.pieces_perm hb hb').mem_iff.mpr (List.mem_map_of_mem hx)

theorem destroyed_image (h : Image σ b b') (hb : b.Valid) (hb' : b'.Valid) (t : CapabilityTable)
    (hx : x ∈ b.pieces) :
    x.id ∈ (b'.destructions t).map (·.piece) ↔ x.id ∈ (b.destructions t).map (·.piece) :=
  h.resembles.destroyed_iff (y := σ.onPiece x) hb hb' t hx (h.onPiece_mem hb.sized hb'.sized hx)
    rfl rfl

/-- An image of a valid board is valid if its size can be counted. -/
theorem valid (h : Image σ b b') (hb : b.Valid) (hb' : b'.Sized) (hrows : 0 < b'.rows)
    (hcols : 0 < b'.cols) (hrows' : b'.rows ≤ Position.greatest + 1)
    (hcols' : b'.cols ≤ Position.greatest + 1) : b'.Valid where
  rows_pos := hrows
  cols_pos := hcols
  rows_le := hrows'
  cols_le := hcols'
  sized := hb'
  position_eq := by
    rintro ⟨q, y⟩ hy
    rw [mem_placements_iff hb', ← σ.cell_cell q, h.stackAt_eq] at hy
    obtain ⟨x, hx, rfl⟩ := List.mem_map.mp hy
    show σ.cell x.position = q
    rw [hb.position_of_mem hx, σ.cell_cell]
  ids_nodup := by
    rw [((h.pieces_perm hb.sized hb').map _).nodup_iff, List.map_map]
    exact hb.ids_nodup

/-! ## Images of changed boards -/

theorem image_restack (h : Image σ b b') (hb : b.Sized) (hb' : b'.Sized)
    {f f' : Position → Stack} (hf : ∀ p, f' (σ.cell p) = (f p).map σ.onPiece) :
    Image σ (b.restack f) (b'.restack f') := h.restack (S := Stack.Image σ) hb hb' rfl hf

theorem mapPieces (h : Image σ b b') (hb : b.Sized) (hb' : b'.Sized) {f : Piece → Piece}
    (hf : ∀ x, f (σ.onPiece x) = σ.onPiece (f x)) : Image σ (b.mapPieces f) (b'.mapPieces f) := by
  apply h.image_restack hb hb'
  intro p
  rw [h.stackAt_eq, List.map_map, List.map_map]
  exact List.map_congr_left fun x _ => hf x

/-- A test that lets pieces through when another one lets their images through, does so in the
stacks of an image. -/
theorem filter_stackAt (h : Image σ b b') (hb : b.Sized) (keep keep' : Piece → Bool)
    (hkeep : ∀ x ∈ b.pieces, keep' (σ.onPiece x) = keep x) (p : Position) :
    (b'.stackAt (σ.cell p)).filter keep' = ((b.stackAt p).filter keep).map σ.onPiece := by
  rw [h.stackAt_eq, List.filter_map]
  congr 1
  apply List.filter_congr
  intro x hx
  exact hkeep x ((mem_pieces_iff hb).mpr ⟨p, hx⟩)

theorem filterPieces (h : Image σ b b') (hb : b.Sized) (hb' : b'.Sized)
    {keep keep' : Piece → Bool} (hkeep : ∀ x ∈ b.pieces, keep' (σ.onPiece x) = keep x) :
    Image σ (b.filterPieces keep) (b'.filterPieces keep') :=
  h.image_restack hb hb' (h.filter_stackAt hb keep keep' hkeep)

theorem shift (h : Image σ b b') (hb : b.Sized) (hb' : b'.Sized) (d : Direction)
    {moving moving' : PieceId → Bool} (hmoving : ∀ x ∈ b.pieces, moving' x.id = moving x.id) :
    Image σ (b.shift d moving) (b'.shift (σ.turn d) moving') := by
  apply h.image_restack hb hb'
  intro p
  have hstay := h.filter_stackAt hb (fun x => !moving x.id) (fun x => !moving' x.id)
    (fun x hx => congrArg not (hmoving x hx)) p
  have harrive := h.filter_stackAt hb (fun x => moving x.id) (fun x => moving' x.id) hmoving
    (p.step d.reverse)
  rw [σ.cell_step, σ.turn_reverse] at harrive
  rw [hstay, harrive, List.map_append, List.map_map, List.map_map]
  rfl

end Related

end Board

end WordTiles
