import WordTiles.Board.Edit
import WordTiles.Proofs.Board.Standing

/-!
# Boards made stack by stack

What an operation does to a whole board is said at once by the stacks that it leaves behind:
`Board.restack` is the board of the same size with given stacks. Two such boards are those in
which every piece is changed by a function (`Board.mapPieces`) and in which the pieces that
fail a test are left out (`Board.filterPieces`); both keep a board valid.

On a valid board, giving a piece another kind is a change of the first sort
(`Valid.setKind_eq`), and removing a piece one of the second (`Valid.remove_eq`), as is removing
many of them one after the other (`Valid.removeAll_eq`). None of this is refused when the pieces
are there.
-/

set_option autoImplicit false

namespace WordTiles

namespace Board

variable {b b' : Board} {p q : Position} {x y : Piece} {f g : Position → Stack}

/-- The board of the same size with given stacks. -/
def restack (b : Board) (f : Position → Stack) : Board :=
  { b with cells := (b.positions.map f).toArray }

def mapPieces (b : Board) (f : Piece → Piece) : Board := b.restack fun p => (b.stackAt p).map f

def filterPieces (b : Board) (keep : Piece → Bool) : Board :=
  b.restack fun p => (b.stackAt p).filter keep

/-- Removes pieces by their identities, one after the other. -/
def removeAll (b : Board) (ids : List PieceId) : Except BoardError Board :=
  ids.foldlM (fun b id => (b.remove id).map Prod.fst) b

/-! ## Given stacks -/

theorem sized_restack (hb : b.Sized) (f : Position → Stack) : (b.restack f).Sized := by
  show (b.positions.map f).toArray.size = b.rows * b.cols
  rw [List.size_toArray, List.length_map, positions, List.length_map, List.length_range]
  exact hb

theorem stackAt_restack (hb : b.Sized) (hp : b.InBounds p) : (b.restack f).stackAt p = f p := by
  have hi := index?_eq_some hp
  have hlt := index?_lt hi
  rw [stackAt_of_index? (b := b.restack f) hi]
  show ((b.positions.map f).toArray[_]?).getD [] = f p
  rw [List.getElem?_toArray, List.getElem?_map, positions, List.getElem?_map,
    List.getElem?_range (by rw [show b.cells.size = b.rows * b.cols from hb]; exact hlt)]
  exact congrArg f (positionAt_of_index? hi)

theorem mem_stackAt_restack (hb : b.Sized) :
    x ∈ (b.restack f).stackAt p ↔ b.InBounds p ∧ x ∈ f p := by
  constructor
  · intro hx
    have hp : b.InBounds p := inBounds_of_mem (b := b.restack f) hx
    rw [stackAt_restack hb hp] at hx
    exact ⟨hp, hx⟩
  · rintro ⟨hp, hx⟩
    rw [stackAt_restack hb hp]
    exact hx

/-- A board of the same size with these stacks is this board. -/
theorem eq_restack (hb : b.Sized) (hb' : b'.Sized) (hrows : b'.rows = b.rows)
    (hcols : b'.cols = b.cols) (h : ∀ p, b.InBounds p → b'.stackAt p = f p) :
    b' = b.restack f := by
  apply eq_of_stackAt hb' (sized_restack hb f) hrows hcols
  intro p hp
  have hp' : b.InBounds p := by
    rw [InBounds, ← hrows, ← hcols]
    exact hp
  rw [h p hp', stackAt_restack hb hp']

/-! ## Changed and chosen pieces -/

theorem stackAt_mapPieces (hb : b.Sized) (f : Piece → Piece) (p : Position) :
    (b.mapPieces f).stackAt p = (b.stackAt p).map f := by
  by_cases hp : b.InBounds p
  · exact stackAt_restack hb hp
  · have hp' : ¬ (b.mapPieces f).InBounds p := hp
    rw [stackAt_of_not_inBounds hp, stackAt_of_not_inBounds hp', List.map_nil]

theorem stackAt_filterPieces (hb : b.Sized) (keep : Piece → Bool) (p : Position) :
    (b.filterPieces keep).stackAt p = (b.stackAt p).filter keep := by
  by_cases hp : b.InBounds p
  · exact stackAt_restack hb hp
  · have hp' : ¬ (b.filterPieces keep).InBounds p := hp
    rw [stackAt_of_not_inBounds hp, stackAt_of_not_inBounds hp', List.filter_nil]

theorem mem_pieces_mapPieces (hb : b.Sized) {f : Piece → Piece} :
    y ∈ (b.mapPieces f).pieces ↔ ∃ x ∈ b.pieces, f x = y := by
  have hb' : (b.mapPieces f).Sized := sized_restack hb _
  simp only [mem_pieces_iff hb', mem_pieces_iff hb, stackAt_mapPieces hb, List.mem_map]
  constructor
  · rintro ⟨p, x, hx, rfl⟩
    exact ⟨x, ⟨p, hx⟩, rfl⟩
  · rintro ⟨x, ⟨p, hx⟩, rfl⟩
    exact ⟨p, x, hx, rfl⟩

theorem mem_pieces_filterPieces (hb : b.Sized) {keep : Piece → Bool} :
    x ∈ (b.filterPieces keep).pieces ↔ x ∈ b.pieces ∧ keep x = true := by
  have hb' : (b.filterPieces keep).Sized := sized_restack hb _
  simp only [mem_pieces_iff hb', mem_pieces_iff hb, stackAt_filterPieces hb, List.mem_filter,
    exists_and_right]

theorem mapPieces_congr (hb : b.Sized) {f g : Piece → Piece} (h : ∀ x ∈ b.pieces, f x = g x) :
    b.mapPieces f = b.mapPieces g := by
  apply eq_restack hb (sized_restack hb _) rfl rfl
  intro p _
  rw [← mapPieces, stackAt_mapPieces hb]
  apply List.map_congr_left
  intro x hx
  exact h x ((mem_pieces_iff hb).mpr ⟨p, hx⟩)

theorem filterPieces_congr (hb : b.Sized) {keep keep' : Piece → Bool}
    (h : ∀ x ∈ b.pieces, keep x = keep' x) : b.filterPieces keep = b.filterPieces keep' := by
  apply eq_restack hb (sized_restack hb _) rfl rfl
  intro p _
  rw [← filterPieces, stackAt_filterPieces hb]
  apply List.filter_congr
  intro x hx
  exact h x ((mem_pieces_iff hb).mpr ⟨p, hx⟩)

theorem mapPieces_id (hb : b.Sized) : b.mapPieces (fun x => x) = b := by
  symm
  apply eq_restack hb hb rfl rfl
  intro p _
  rw [List.map_id']

theorem filterPieces_true (hb : b.Sized) : b.filterPieces (fun _ => true) = b := by
  symm
  apply eq_restack hb hb rfl rfl
  intro p _
  rw [List.filter_true]

theorem mapPieces_mapPieces (hb : b.Sized) (f g : Piece → Piece) :
    (b.mapPieces f).mapPieces g = b.mapPieces fun x => g (f x) := by
  have hb' : (b.mapPieces f).Sized := sized_restack hb _
  apply eq_restack hb (sized_restack hb' _) rfl rfl
  intro p _
  show ((b.mapPieces f).mapPieces g).stackAt p = _
  rw [stackAt_mapPieces hb', stackAt_mapPieces hb, List.map_map]
  rfl

theorem filterPieces_filterPieces (hb : b.Sized) (keep keep' : Piece → Bool) :
    (b.filterPieces keep).filterPieces keep' = b.filterPieces fun x => keep' x && keep x := by
  have hb' : (b.filterPieces keep).Sized := sized_restack hb _
  apply eq_restack hb (sized_restack hb' _) rfl rfl
  intro p _
  show ((b.filterPieces keep).filterPieces keep').stackAt p = _
  rw [stackAt_filterPieces hb', stackAt_filterPieces hb, List.filter_filter]

namespace Valid

/-- Changes that leave identities and positions alone keep a board valid. -/
theorem mapPieces (hb : b.Valid) {f : Piece → Piece} (hid : ∀ x, (f x).id = x.id)
    (hposition : ∀ x, (f x).position = x.position) : (b.mapPieces f).Valid := by
  have hmem : ∀ p x, x ∈ (b.mapPieces f).stackAt p → ∃ y ∈ b.stackAt p, f y = x := by
    intro p x hx
    rw [stackAt_mapPieces hb.sized] at hx
    exact List.mem_map.mp hx
  refine hb.of_stackAt rfl rfl (sized_restack hb.sized _) ?_ ?_ ?_
  · intro p x hx
    obtain ⟨y, hy, rfl⟩ := hmem p x hx
    rw [hposition, hb.position_of_mem hy]
  · intro p
    rw [stackAt_mapPieces hb.sized, List.map_map]
    simp only [Function.comp_def, hid]
    exact hb.nodup_stackAt p
  · intro p q x y hx hy hxy
    obtain ⟨x', hx', rfl⟩ := hmem p x hx
    obtain ⟨y', hy', rfl⟩ := hmem q y hy
    rw [hid, hid] at hxy
    exact hb.cell_eq_of_id_eq hx' hy' hxy

theorem filterPieces (hb : b.Valid) (keep : Piece → Bool) : (b.filterPieces keep).Valid := by
  have hmem : ∀ p x, x ∈ (b.filterPieces keep).stackAt p → x ∈ b.stackAt p := by
    intro p x hx
    rw [stackAt_filterPieces hb.sized] at hx
    exact (List.mem_filter.mp hx).1
  refine hb.of_stackAt rfl rfl (sized_restack hb.sized _) ?_ ?_ ?_
  · intro p x hx
    exact hb.position_of_mem (hmem p x hx)
  · intro p
    rw [stackAt_filterPieces hb.sized]
    exact (List.filter_sublist.map _).nodup (hb.nodup_stackAt p)
  · intro p q x y hx hy hxy
    exact hb.cell_eq_of_id_eq (hmem p x hx) (hmem q y hy) hxy

/-! ## One piece changed, one piece removed -/

/-- A piece on the board can be given another kind, which changes nothing else. -/
theorem setKind_eq (hb : b.Valid) (hx : x ∈ b.pieces) (kind : Kind) :
    b.setKind x.id kind =
      .ok (b.mapPieces fun y => if y.id = x.id then { y with kind } else y, x.kind) := by
  have hstack := hb.mem_stackAt_of_mem_pieces hx
  have hboard : b.modifyAt x.position (Stack.update · x.id ({ · with kind })) =
      b.mapPieces fun y => if y.id = x.id then { y with kind } else y := by
    apply eq_restack hb.sized (sized_modifyAt hb.sized _ _) (rows_modifyAt ..) (cols_modifyAt ..)
    intro p _
    rw [stackAt_modifyAt hb.sized]
    split
    · exact Stack.update_eq_map (hb.nodup_stackAt p) _ _
    next hne =>
      -- the identity stands at one position only, and this is another one
      have hrest : ∀ y ∈ b.stackAt p, (if y.id = x.id then { y with kind } else y) = y := by
        intro y hy
        apply if_neg
        intro hid
        exact hne ⟨hb.cell_eq_of_id_eq hstack hy hid.symm, inBounds_of_mem hstack⟩
      rw [List.map_congr_left hrest, List.map_id']
  rw [setKind, hb.find?_eq hstack]
  simp only [Stack.find?_of_mem (hb.nodup_stackAt _) hstack, hboard]

/-- A piece on the board can be removed, which changes nothing else. -/
theorem remove_eq (hb : b.Valid) (hx : x ∈ b.pieces) :
    b.remove x.id = .ok (b.filterPieces fun y => !(y.id == x.id), x) := by
  have hstack := hb.mem_stackAt_of_mem_pieces hx
  have hboard : b.modifyAt x.position (Stack.remove · x.id) =
      b.filterPieces fun y => !(y.id == x.id) := by
    apply eq_restack hb.sized (sized_modifyAt hb.sized _ _) (rows_modifyAt ..) (cols_modifyAt ..)
    intro p _
    rw [stackAt_modifyAt hb.sized]
    split
    · exact Stack.remove_eq_filter (hb.nodup_stackAt p) _
    next hne =>
      symm
      apply Stack.filter_id_ne_eq_self
      intro y hy hid
      exact hne ⟨hb.cell_eq_of_id_eq hstack hy hid.symm, inBounds_of_mem hstack⟩
  rw [remove, hb.find?_eq hstack]
  simp only [inBounds_of_mem hstack, not_true_eq_false, if_false,
    Stack.find?_of_mem (hb.nodup_stackAt _) hstack, hboard]

/-- Pieces that are there, none of them named twice, can be removed one after the other, which
leaves them out and changes nothing else. -/
theorem removeAll_eq (hb : b.Valid) {ids : List PieceId}
    (hids : ∀ id ∈ ids, ∃ x ∈ b.pieces, x.id = id) (hnodup : ids.Nodup) :
    b.removeAll ids = .ok (b.filterPieces fun x => !ids.contains x.id) := by
  induction ids generalizing b with
  | nil =>
      simp only [removeAll, List.foldlM_nil, List.contains_nil, Bool.not_false]
      rw [filterPieces_true hb.sized]
      rfl
  | cons id rest ih =>
      rw [List.nodup_cons] at hnodup
      rw [List.forall_mem_cons] at hids
      obtain ⟨⟨x, hx, rfl⟩, hids⟩ := hids
      have hb' : (b.filterPieces fun y => !(y.id == x.id)).Valid := hb.filterPieces _
      -- what is still to be removed is still there
      have hrest : ∀ id ∈ rest, ∃ y ∈ (b.filterPieces fun y => !(y.id == x.id)).pieces,
          y.id = id := by
        intro id hid
        obtain ⟨y, hy, rfl⟩ := hids id hid
        have hne : y.id ≠ x.id := by
          intro hyx
          exact hnodup.1 (hyx ▸ hid)
        exact ⟨y, (mem_pieces_filterPieces hb.sized).mpr ⟨hy, by simp [hne]⟩, rfl⟩
      rw [removeAll, List.foldlM_cons, hb.remove_eq hx]
      show removeAll _ rest = _
      rw [ih hb' hrest hnodup.2, filterPieces_filterPieces hb.sized]
      congr 1
      apply filterPieces_congr hb.sized
      intro y _
      rw [List.contains_cons, Bool.not_or, Bool.and_comm]

end Valid

end Board

end WordTiles
