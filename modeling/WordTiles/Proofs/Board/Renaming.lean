import Mathlib.Data.List.Forall2
import WordTiles.Proofs.Board.Symmetry
import WordTiles.Proofs.Board.Text
import WordTiles.Proofs.Hazard
import WordTiles.Proofs.Transformation

/-!
# Boards that differ in identities and facings

One board is a renaming of another (`Board.Renamed`) when it has the same kinds of pieces in the
same places of the same stacks, and their identities are renamed by a function. The pieces may
face other ways, apart from those that have moved: a move turns a piece, and then both face the
way they went.

Identities and facings cannot be read, and the rules, capabilities, changes and hazards do not ask
for them. So the same is read from both boards, and what changes or is destroyed on one of them
does so on the other, in the same order and under the new names.
-/

set_option autoImplicit false

namespace WordTiles

variable {f : PieceId → PieceId} {moved moved' : PieceId → Prop}

/-! ## Pieces -/

/-- The second piece is the first one under another name. They may face different ways, unless the
first one is among those that have moved. -/
structure Piece.Renamed (f : PieceId → PieceId) (moved : PieceId → Prop) (x y : Piece) : Prop where
  id_eq : y.id = f x.id
  kind_eq : y.kind = x.kind
  position_eq : y.position = x.position
  facing_eq : moved x.id → y.facing = x.facing

def Transformation.rename (f : PieceId → PieceId) (c : Transformation) : Transformation :=
  { c with piece := f c.piece }

def Destruction.rename (f : PieceId → PieceId) (o : Destruction) : Destruction :=
  { o with piece := f o.piece }

namespace Piece.Renamed

variable {x y : Piece}

theorem recast (h : x.Renamed f moved y) (rs : RuleSet) :
    (x.recast rs).Renamed f moved (y.recast rs) where
  id_eq := h.id_eq
  kind_eq := congrArg (Kind.recast rs) h.kind_eq
  position_eq := h.position_eq
  facing_eq := h.facing_eq

/-- Pieces that arrive together face the same way. -/
theorem arrive (h : x.Renamed f moved y) (p : Position) (d : Direction) :
    (x.arrive p d).Renamed f moved' (y.arrive p d) where
  id_eq := h.id_eq
  kind_eq := h.kind_eq
  position_eq := rfl
  facing_eq _ := rfl

theorem transformation_eq (h : x.Renamed f moved y) (rs : RuleSet) :
    Transformation.ofPiece? rs y = (Transformation.ofPiece? rs x).map (·.rename f) := by
  rw [Transformation.ofPiece?, Transformation.ofPiece?, h.kind_eq, h.id_eq, h.position_eq]
  cases x.kind with
  | thing n =>
      show ((rs.becomes? n).map _) = ((rs.becomes? n).map _).map _
      rw [Option.map_map]
      rfl
  | tile w => rfl

end Piece.Renamed

/-! ## Stacks -/

namespace Stack

variable {s s' r r' : Stack}

/-- Layer by layer, the pieces of the second stack are those of the first one renamed. -/
def Renamed (f : PieceId → PieceId) (moved : PieceId → Prop) (s s' : Stack) : Prop :=
  List.Forall₂ (Piece.Renamed f moved) s s'

namespace Renamed

theorem append (h : s.Renamed f moved s') (h' : r.Renamed f moved r') :
    Stack.Renamed f moved (s ++ r) (s' ++ r') := List.rel_append h h'

theorem map (h : s.Renamed f moved s') {g : Piece → Piece}
    (hg : ∀ x y, x.Renamed f moved y → (g x).Renamed f moved' (g y)) :
    Stack.Renamed f moved' (s.map g) (s'.map g) := List.rel_map hg h

theorem exists_of_mem (h : s.Renamed f moved s') {x : Piece} (hx : x ∈ s) :
    ∃ y ∈ s', x.Renamed f moved y := by
  induction h with
  | nil => exact absurd hx List.not_mem_nil
  | @cons x' y s s' hxy _ ih =>
      rcases List.mem_cons.mp hx with rfl | hx
      · exact ⟨y, List.mem_cons_self, hxy⟩
      · obtain ⟨z, hz, hxz⟩ := ih hx
        exact ⟨z, List.mem_cons_of_mem y hz, hxz⟩

/-- What is the same of two renamed pieces, or the renamed of each other, is so in their stacks. -/
theorem map_eq {α : Type} (h : s.Renamed f moved s') {g g' : Piece → α}
    (hg : ∀ x y, x.Renamed f moved y → g' y = g x) : s'.map g' = s.map g := by
  induction h with
  | nil => rfl
  | cons hxy _ ih => rw [List.map_cons, List.map_cons, hg _ _ hxy, ih]

theorem filterMap_eq {α : Type} (h : s.Renamed f moved s') {g g' : Piece → Option α}
    (hg : ∀ x y, x.Renamed f moved y → g' y = g x) : s'.filterMap g' = s.filterMap g := by
  induction h with
  | nil => rfl
  | cons hxy _ ih => rw [List.filterMap_cons, List.filterMap_cons, hg _ _ hxy, ih]

/-- The pieces that pass tests which agree on them are renamed, too; and when fewer of them count
as moved, fewer have to face the same way. -/
theorem filter (h : s.Renamed f moved s') {keep keep' : Piece → Bool}
    (hkeep : ∀ x ∈ s, ∀ y ∈ s', x.Renamed f moved y → keep' y = keep x)
    (hmoved : ∀ x ∈ s, keep x = true → moved' x.id → moved x.id) :
    Stack.Renamed f moved' (s.filter keep) (s'.filter keep') := by
  induction h with
  | nil => exact .nil
  | @cons x y s s' hxy _ ih =>
      have hrest := ih (fun x hx y hy => hkeep x (.tail _ hx) y (.tail _ hy))
        fun x hx => hmoved x (.tail _ hx)
      have hfirst := hkeep x (.head _) y (.head _) hxy
      rw [List.filter_cons, List.filter_cons, hfirst]
      split
      next hx =>
        exact .cons ⟨hxy.id_eq, hxy.kind_eq, hxy.position_eq,
          fun hm => hxy.facing_eq (hmoved x (.head _) hx hm)⟩ hrest
      · exact hrest

/-- Tests of the kind of a piece agree on renamed pieces. -/
theorem filter_kind (h : s.Renamed f moved s') (g : Kind → Bool) :
    Stack.Renamed f moved (s.filter fun x => g x.kind) (s'.filter fun x => g x.kind) :=
  h.filter (fun _ _ _ _ hxy => congrArg g hxy.kind_eq) fun _ _ _ hm => hm

theorem sameKinds (h : s.Renamed f moved s') : s.SameKinds s' :=
  List.Perm.of_eq (h.map_eq fun _ _ hxy => hxy.kind_eq)

end Renamed

end Stack

namespace Destruction

variable {s s' : Stack}

theorem ofLevel_renamed (h : s.Renamed f moved s') (t : CapabilityTable) (p : Position) :
    ofLevel t p s' = (ofLevel t p s).map (·.rename f) := by
  rw [ofLevel, ofLevel, List.map_filterMap]
  apply h.filterMap_eq
  intro x y hxy
  rw [h.sameKinds.cause?_eq t hxy.kind_eq, Option.map_map, hxy.id_eq, hxy.kind_eq]
  rfl

/-- In renamed stacks the same pieces are destroyed, for the same causes and in the same order. -/
theorem ofCell_renamed (h : s.Renamed f moved s') (t : CapabilityTable) (p : Position) :
    ofCell t p s' = (ofCell t p s).map (·.rename f) := by
  rw [ofCell, ofCell, List.map_flatMap]
  apply List.flatMap_congr
  intro floating _
  exact ofLevel_renamed (h.filter_kind fun k => (t.ofKind k).floating == floating) t p

end Destruction

namespace Board

variable {b b' : Board} {p : Position}

/-! ## Boards -/

structure Renamed (f : PieceId → PieceId) (moved : PieceId → Prop) (b b' : Board) : Prop where
  rows_eq : b'.rows = b.rows
  cols_eq : b'.cols = b.cols
  stackAt : ∀ p, Stack.Renamed f moved (b.stackAt p) (b'.stackAt p)

namespace Renamed

/-- When fewer pieces count as moved, fewer have to face the same way. -/
theorem mono (h : b.Renamed f moved b')
    (hmoved : ∀ id, moved' id → moved id) : b.Renamed f moved' b' where
  rows_eq := h.rows_eq
  cols_eq := h.cols_eq
  stackAt p := List.Forall₂.imp (fun _ _ hxy => ⟨hxy.id_eq, hxy.kind_eq, hxy.position_eq,
    fun hm => hxy.facing_eq (hmoved _ hm)⟩) (h.stackAt p)

/-- A change of nothing but identities and facings is a renaming. -/
theorem of_mapPieces (hb : b.Sized) {g : Piece → Piece} (hid : ∀ x, (g x).id = f x.id)
    (hkind : ∀ x, (g x).kind = x.kind) (hposition : ∀ x, (g x).position = x.position) :
    b.Renamed f (fun _ => False) (b.mapPieces g) where
  rows_eq := rfl
  cols_eq := rfl
  stackAt p := by
    rw [stackAt_mapPieces hb, Stack.Renamed, List.forall₂_map_right_iff, List.forall₂_same]
    exact fun x _ => ⟨hid x, hkind x, hposition x, False.elim⟩

theorem related (h : b.Renamed f moved b') : Related .identity (Stack.Renamed f moved) b b' where
  inBounds_iff p := by
    rw [InBounds, h.rows_eq, h.cols_eq]
    rfl
  stackAt := h.stackAt

/-! ### What is seen of a board -/

theorem resembles (h : b.Renamed f moved b') : Resembles .identity b b' :=
  h.related.imp fun _ _ => Stack.Renamed.sameKinds

theorem read_eq (h : b.Renamed f moved b') (hb : b.Sized) (hb' : b'.Sized) : b'.read = b.read := by
  have htext : b.SameText b' := {
    rows_eq := h.rows_eq
    cols_eq := h.cols_eq
    words_eq := fun p => (h.stackAt p).filterMap_eq fun _ _ hxy => congrArg Kind.word? hxy.kind_eq }
  exact htext.read_eq hb hb'

theorem build_eq (h : b.Renamed f moved b') (hb : b.Sized) (hb' : b'.Sized) (rs : RuleSet) :
    CapabilityTable.build rs b' = CapabilityTable.build rs b :=
  h.resembles.build_eq hb hb' rs

theorem outcome_eq (h : b.Renamed f moved b') (hb : b.Sized) (hb' : b'.Sized)
    (t : CapabilityTable) : b'.outcome t = b.outcome t :=
  h.resembles.outcome_eq hb hb' t

/-- Reading order lists the pieces of both boards in step. -/
theorem pieces (h : b.Renamed f moved b') (hb : b.Sized) (hb' : b'.Sized) :
    Stack.Renamed f moved b.pieces b'.pieces := by
  rw [pieces_eq_flatMap hb, pieces_eq_flatMap hb', positions_congr hb hb' h.rows_eq h.cols_eq]
  induction b.positions with
  | nil => exact .nil
  | cons p rest ih =>
      rw [List.flatMap_cons, List.flatMap_cons]
      exact (h.stackAt p).append ih

theorem transformations_eq (h : b.Renamed f moved b') (hb : b.Sized) (hb' : b'.Sized)
    (rs : RuleSet) : b'.transformations rs = (b.transformations rs).map (·.rename f) := by
  rw [transformations, transformations, List.map_filterMap]
  exact (h.pieces hb hb').filterMap_eq fun _ _ hxy => hxy.transformation_eq rs

theorem destructions_eq (h : b.Renamed f moved b') (hb : b.Sized) (hb' : b'.Sized)
    (t : CapabilityTable) : b'.destructions t = (b.destructions t).map (·.rename f) := by
  rw [destructions, destructions, positions_congr hb hb' h.rows_eq h.cols_eq, List.map_flatMap]
  exact List.flatMap_congr fun p _ => Destruction.ofCell_renamed (h.stackAt p) t p

/-! ### Changes of the whole board -/

theorem restack (h : b.Renamed f moved b') (hb : b.Sized) (hb' : b'.Sized)
    {g g' : Position → Stack} (hg : ∀ p, Stack.Renamed f moved' (g p) (g' p)) :
    (b.restack g).Renamed f moved' (b'.restack g') where
  rows_eq := h.rows_eq
  cols_eq := h.cols_eq
  stackAt := (h.related.restack hb hb' List.Forall₂.nil hg).stackAt

theorem mapPieces_recast (h : b.Renamed f moved b') (hb : b.Sized) (hb' : b'.Sized)
    (rs : RuleSet) : (b.mapPieces (·.recast rs)).Renamed f moved (b'.mapPieces (·.recast rs)) :=
  h.restack hb hb' fun p => (h.stackAt p).map fun _ _ hxy => hxy.recast rs

theorem filterPieces (h : b.Renamed f moved b') (hb : b.Sized) (hb' : b'.Sized)
    {keep keep' : Piece → Bool}
    (hkeep : ∀ x ∈ b.pieces, ∀ y ∈ b'.pieces, x.Renamed f moved y → keep' y = keep x) :
    (b.filterPieces keep).Renamed f moved (b'.filterPieces keep') := by
  apply h.restack hb hb'
  intro p
  refine (h.stackAt p).filter (fun x hx y hy => ?_) fun _ _ _ hm => hm
  exact hkeep x ((mem_pieces_iff hb).mpr ⟨p, hx⟩) y ((mem_pieces_iff hb').mpr ⟨p, hy⟩)

/-- After a shift the pieces that have moved before face the same way, and those that have moved
now. -/
theorem shift (h : b.Renamed f moved b') (hb : b.Sized) (hb' : b'.Sized) (d : Direction)
    {moving moving' : PieceId → Bool}
    (hmoving : ∀ x ∈ b.pieces, ∀ y ∈ b'.pieces, x.Renamed f moved y → moving' y.id = moving x.id) :
    (b.shift d moving).Renamed f (fun id => moved id ∨ moving id = true) (b'.shift d moving') := by
  have hagree : ∀ p, ∀ x ∈ b.stackAt p, ∀ y ∈ b'.stackAt p, x.Renamed f moved y →
      moving' y.id = moving x.id := fun p x hx y hy =>
    hmoving x ((mem_pieces_iff hb).mpr ⟨p, hx⟩) y ((mem_pieces_iff hb').mpr ⟨p, hy⟩)
  apply h.restack hb hb'
  intro q
  apply Stack.Renamed.append
  · apply (h.stackAt q).filter
    · intro x hx y hy hxy
      rw [hagree q x hx y hy hxy]
    -- who stays is not among those that move now
    · intro x _ hstay hm
      rcases hm with hm | hm
      · exact hm
      · rw [hm] at hstay
        cases hstay
  · have harrive : Stack.Renamed f moved
        ((b.stackAt (q.step d.reverse)).filter fun x => moving x.id)
        ((b'.stackAt (q.step d.reverse)).filter fun x => moving' x.id) :=
      (h.stackAt _).filter (fun x hx y hy hxy => hagree _ x hx y hy hxy) fun _ _ _ hm => hm
    exact harrive.map fun _ _ hxy => hxy.arrive q d

end Renamed

end Board

end WordTiles
