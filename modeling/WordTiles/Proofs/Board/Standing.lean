import Mathlib.Data.List.Nodup
import Mathlib.Data.List.Pairwise
import WordTiles.Board.Lemmas
import WordTiles.Board.Validity

/-!
# Where pieces stand

What it means for a board to be valid, said of its stacks rather than of its list of cells:
every piece stands where its position says, and an identity stands in one place only. So a
piece is known by its identity alone, and looking an identity up finds the piece.

The main statements are

* `Board.nodup_ids_iff`: when no identity occurs twice, said of stacks;
* `Board.Valid.of_stackAt`: a board is valid when its stacks are right;
* `Board.validate_eq_ok_iff`: `Board.validate` accepts the valid boards;
* `Board.Valid.sameCell_wrappedStep`: beside the cells of a valid board, coordinates of 32 bits name
  the same cells as integers;
* `Board.Valid.find?_eq`: looking up the identity of a piece finds that piece.
-/

set_option autoImplicit false

namespace WordTiles

/-! ## Stacks in which no identity occurs twice -/

namespace Stack

variable {s : Stack} {x y : Piece} {id : PieceId}

/-- In such a stack a piece is known by its identity. -/
theorem eq_of_id_eq (h : (s.map (·.id)).Nodup) (hx : x ∈ s) (hy : y ∈ s) (hid : x.id = y.id) :
    x = y :=
  List.inj_on_of_nodup_map h hx hy hid

theorem find?_of_mem (h : (s.map (·.id)).Nodup) (hx : x ∈ s) : s.find? x.id = some x := by
  cases hfind : s.find? x.id with
  | none =>
      have hne : ¬ (x.id == x.id) = true := List.find?_eq_none.mp hfind x hx
      simp at hne
  | some y =>
      have hid := List.find?_some hfind
      have hmem : y ∈ s := List.mem_of_find?_eq_some hfind
      rw [eq_of_id_eq h hmem hx (by simpa using hid)]

/-- What is found out about some pieces, each time naming the piece, names each piece once and in
the order of the stack. -/
theorem map_filterMap_sublist {α : Type} {f : Piece → Option α} {g : α → PieceId}
    (hf : ∀ x a, f x = some a → g a = x.id) (s : Stack) :
    ((s.filterMap f).map g).Sublist (s.map (·.id)) := by
  induction s with
  | nil => exact List.Sublist.refl _
  | cons x rest ih =>
      rw [List.map_cons]
      cases hx : f x with
      | none =>
          rw [List.filterMap_cons_none hx]
          exact ih.cons x.id
      | some a =>
          rw [List.filterMap_cons_some hx, List.map_cons, hf x a hx]
          exact ih.cons_cons x.id

/-- Without the identity there is nothing to remove. -/
theorem filter_id_ne_eq_self (h : ∀ x ∈ s, x.id ≠ id) : s.filter (fun x => !(x.id == id)) = s := by
  apply List.filter_eq_self.mpr
  intro x hx
  simpa using h x hx

/-- Removing an identity takes all its pieces away, as there is at most one. -/
theorem remove_eq_filter (h : (s.map (·.id)).Nodup) (id : PieceId) :
    s.remove id = s.filter fun x => !(x.id == id) := by
  induction s with
  | nil => rfl
  | cons y rest ih =>
      rw [List.map_cons, List.nodup_cons] at h
      by_cases hid : y.id = id
      -- the piece is found here, and none of the rest has its identity
      · have hrest : ∀ x ∈ rest, x.id ≠ id := by
          intro x hx hxid
          exact h.1 (List.mem_map.mpr ⟨x, hx, hxid.trans hid.symm⟩)
        rw [List.filter_cons_of_neg (by simp [hid]), filter_id_ne_eq_self hrest]
        exact List.eraseP_cons_of_pos (by simp [hid])
      · rw [List.filter_cons_of_pos (by simp [hid]), ← ih h.2]
        exact List.eraseP_cons_of_neg (by simp [hid])

/-- Changing the piece of an identity changes all its pieces, as there is at most one. -/
theorem update_eq_map (h : (s.map (·.id)).Nodup) (id : PieceId) (f : Piece → Piece) :
    s.update id f = s.map fun x => if x.id = id then f x else x := by
  induction s with
  | nil => rfl
  | cons y rest ih =>
      rw [List.map_cons, List.nodup_cons] at h
      by_cases hid : y.id = id
      · have hrest : ∀ x ∈ rest, (if x.id = id then f x else x) = x := by
          intro x hx
          apply if_neg
          intro hxid
          exact h.1 (List.mem_map.mpr ⟨x, hx, hxid.trans hid.symm⟩)
        rw [List.map_cons, if_pos hid, List.map_congr_left hrest, List.map_id']
        simp [update, List.findIdx_cons, hid]
      · have hfalse : (y.id == id) = false := by simp [hid]
        rw [List.map_cons, if_neg hid, ← ih h.2, update, List.findIdx_cons, hfalse]
        rfl

end Stack

namespace Board

variable {b : Board} {p q : Position} {x y : Piece} {id : PieceId}

/-! ## Pieces and their cells -/

theorem inBounds_of_mem (h : x ∈ b.stackAt p) : b.InBounds p := by
  by_contra hp
  rw [stackAt_of_not_inBounds hp] at h
  exact List.not_mem_nil h

theorem mem_pieces_iff (hb : b.Sized) : x ∈ b.pieces ↔ ∃ p, x ∈ b.stackAt p := by
  rw [pieces_eq_flatMap hb, List.mem_flatMap]
  constructor
  · rintro ⟨p, _, hx⟩
    exact ⟨p, hx⟩
  · rintro ⟨p, hx⟩
    exact ⟨p, (mem_positions_iff hb).mpr (inBounds_of_mem hx), hx⟩

theorem id_eq_of_find? (h : b.find? id = some x) : x.id = id := by
  rw [find?_eq] at h
  simpa using List.find?_some h

theorem mem_pieces_of_find? (h : b.find? id = some x) : x ∈ b.pieces := by
  rw [find?_eq] at h
  exact List.mem_of_find?_eq_some h

theorem id_ne_of_find?_eq_none (h : b.find? id = none) (hx : x ∈ b.pieces) : x.id ≠ id := by
  rw [find?_eq, List.find?_eq_none] at h
  simpa using h x hx

theorem mem_placements_iff (hb : b.Sized) : (p, x) ∈ b.placements ↔ x ∈ b.stackAt p := by
  simp only [placements, List.mem_flatMap, List.mem_map, Prod.mk.injEq]
  constructor
  · rintro ⟨⟨s, i⟩, hs, x', hx, rfl, rfl⟩
    rw [List.mk_mem_zipIdx_iff_getElem?, Array.getElem?_toList, getElem?_cells hb] at hs
    split at hs
    · rw [Option.some.inj hs]
      exact hx
    · exact absurd hs (by simp)
  · intro hx
    have hi := index?_eq_some (inBounds_of_mem hx)
    refine ⟨(b.stackAt p, _), ?_, x, hx, positionAt_of_index? hi, rfl⟩
    rw [List.mk_mem_zipIdx_iff_getElem?, Array.getElem?_toList, getElem?_cells hb,
      if_pos (index?_lt hi), positionAt_of_index? hi]

theorem map_snd_placements (b : Board) : b.placements.map Prod.snd = b.pieces := by
  rw [placements, pieces, List.map_flatMap]
  simp only [List.map_map, Function.comp_def, List.map_id']
  rw [List.flatMap_def, List.zipIdx_map_fst]

theorem nodup_positions (hb : b.Sized) : b.positions.Nodup := by
  apply List.Nodup.map_on _ List.nodup_range
  intro i hi j hj hij
  rw [List.mem_range, show b.cells.size = b.rows * b.cols from hb] at hi hj
  have hindex := index?_positionAt hi
  rw [hij, index?_positionAt hj] at hindex
  exact (Option.some.inj hindex).symm

/-- No identity occurs twice on a board when none does in a stack or in two of them. -/
theorem nodup_ids_iff (hb : b.Sized) :
    (b.pieces.map (·.id)).Nodup ↔
      (∀ p, ((b.stackAt p).map (·.id)).Nodup) ∧
        ∀ p q x y, x ∈ b.stackAt p → y ∈ b.stackAt q → x.id = y.id → p = q := by
  rw [pieces_eq_flatMap hb, List.map_flatMap, List.nodup_flatMap]
  constructor
  · rintro ⟨hnodup, hdisjoint⟩
    constructor
    · intro p
      by_cases hp : b.InBounds p
      · exact hnodup p ((mem_positions_iff hb).mpr hp)
      · rw [stackAt_of_not_inBounds hp]
        exact List.nodup_nil
    -- two positions with an identity in common would not be disjoint
    · intro p q x y hx hy hid
      by_contra hpq
      have hsymm : Std.Symm (Function.onFun List.Disjoint fun p => (b.stackAt p).map (·.id)) :=
        ⟨fun _ _ h => List.disjoint_symm h⟩
      have hdis := hdisjoint.forall ((mem_positions_iff hb).mpr (inBounds_of_mem hx))
        ((mem_positions_iff hb).mpr (inBounds_of_mem hy)) hpq
      exact hdis (List.mem_map.mpr ⟨x, hx, rfl⟩) (List.mem_map.mpr ⟨y, hy, hid.symm⟩)
  · rintro ⟨hnodup, hunique⟩
    refine ⟨fun p _ => hnodup p, (nodup_positions hb).imp ?_⟩
    intro p q hpq id hp hq
    obtain ⟨x, hx, rfl⟩ := List.mem_map.mp hp
    obtain ⟨y, hy, hid⟩ := List.mem_map.mp hq
    exact hpq (hunique p q x y hx hy hid.symm)

/-! ## Valid boards -/

/-- A board of the size of a valid one is valid when its stacks are right: each piece names the
position of its stack, and no identity occurs twice in a stack or in two of them. -/
theorem Valid.of_stackAt {b' : Board} (hb : b.Valid) (hrows : b'.rows = b.rows)
    (hcols : b'.cols = b.cols) (hsized : b'.Sized)
    (hposition : ∀ p x, x ∈ b'.stackAt p → x.position = p)
    (hnodup : ∀ p, ((b'.stackAt p).map (·.id)).Nodup)
    (hunique : ∀ p q x y, x ∈ b'.stackAt p → y ∈ b'.stackAt q → x.id = y.id → p = q) :
    b'.Valid where
  rows_pos := hrows ▸ hb.rows_pos
  cols_pos := hcols ▸ hb.cols_pos
  rows_le := hrows ▸ hb.rows_le
  cols_le := hcols ▸ hb.cols_le
  sized := hsized
  position_eq := fun ⟨p, x⟩ hx => hposition p x ((mem_placements_iff hsized).mp hx)
  ids_nodup := (nodup_ids_iff hsized).mpr ⟨hnodup, hunique⟩

namespace Valid

/-- From a cell of the board, wrapping around goes unnoticed. -/
theorem sameCell_wrappedStep {d : Direction} (hb : b.Valid) (hp : b.InBounds p) :
    b.SameCell (p.wrappedStep d) (p.step d) :=
  Position.wrappedStep_cases hp hb.rows_le hb.cols_le

theorem position_of_mem (hb : b.Valid) (hx : x ∈ b.stackAt p) : x.position = p :=
  hb.position_eq (p, x) ((mem_placements_iff hb.sized).mpr hx)

theorem nodup_stackAt (hb : b.Valid) (p : Position) : ((b.stackAt p).map (·.id)).Nodup :=
  ((nodup_ids_iff hb.sized).mp hb.ids_nodup).1 p

/-- An identity stands in one cell only. -/
theorem cell_eq_of_id_eq (hb : b.Valid) (hx : x ∈ b.stackAt p) (hy : y ∈ b.stackAt q)
    (hid : x.id = y.id) : p = q :=
  ((nodup_ids_iff hb.sized).mp hb.ids_nodup).2 p q x y hx hy hid

/-- An identity stands in one place only. -/
theorem eq_of_id_eq (hb : b.Valid) (hx : x ∈ b.stackAt p) (hy : y ∈ b.stackAt q)
    (hid : x.id = y.id) : x = y := by
  have hpq : p = q := hb.cell_eq_of_id_eq hx hy hid
  subst hpq
  exact Stack.eq_of_id_eq (hb.nodup_stackAt p) hx hy hid

theorem mem_stackAt_of_mem_pieces (hb : b.Valid) (hx : x ∈ b.pieces) :
    x ∈ b.stackAt x.position := by
  obtain ⟨p, hp⟩ := (mem_pieces_iff hb.sized).mp hx
  rw [hb.position_of_mem hp]
  exact hp

theorem find?_eq (hb : b.Valid) (hx : x ∈ b.stackAt p) : b.find? x.id = some x := by
  rw [Board.find?_eq]
  exact Stack.find?_of_mem hb.ids_nodup ((mem_pieces_iff hb.sized).mpr ⟨p, hx⟩)

end Valid

/-! ## The decision -/

/-- No fault is found exactly when every piece names its cell and has an identity of its own. -/
theorem pieceFault?_eq_none_iff (seen : Std.TreeSet PieceId) (placed : List (Position × Piece)) :
    pieceFault? seen placed = none ↔
      (∀ e ∈ placed, e.2.position = e.1) ∧ (placed.map (·.2.id)).Nodup ∧
        ∀ e ∈ placed, e.2.id ∉ seen := by
  induction placed generalizing seen with
  | nil => simp [pieceFault?]
  | cons e rest ih =>
      obtain ⟨cell, piece⟩ := e
      by_cases hcell : piece.position = cell
      · by_cases hseen : piece.id ∈ seen
        · simp [pieceFault?, hcell, hseen]
        -- what is seen from here on is what was seen and this identity
        · simp only [pieceFault?, hcell, hseen, ih, ne_eq, not_true_eq_false, if_false,
            Std.TreeSet.mem_insert, Std.LawfulEqOrd.compare_eq_iff_eq, not_or,
            List.forall_mem_cons, List.map_cons, List.nodup_cons, List.mem_map, not_exists,
            not_and, true_and, not_false_eq_true]
          constructor
          · rintro ⟨hpos, hnodup, hnew⟩
            exact ⟨hpos, ⟨fun e he hid => (hnew e he).1 hid.symm, hnodup⟩,
              fun e he => (hnew e he).2⟩
          · rintro ⟨hpos, ⟨hfirst, hnodup⟩, hnew⟩
            exact ⟨hpos, hnodup, fun e he => ⟨fun hid => hfirst e he hid.symm, hnew e he⟩⟩
      · simp [pieceFault?, hcell]

theorem pieceFault?_placements_eq_none_iff (b : Board) :
    pieceFault? ∅ b.placements = none ↔
      (∀ e ∈ b.placements, e.2.position = e.1) ∧ (b.pieces.map (·.id)).Nodup := by
  have hids : b.placements.map (·.2.id) = b.pieces.map (·.id) := by
    rw [← map_snd_placements, List.map_map]
    rfl
  rw [pieceFault?_eq_none_iff, hids]
  simp

theorem validate_eq_ok_iff : b.validate = .ok () ↔ b.Valid := by
  constructor
  -- every test that was passed is a clause of validity
  · intro h
    unfold validate at h
    split at h
    · cases h
    split at h
    · cases h
    next hempty hfits =>
      rw [Position.isNone_ofIndices?_iff, not_not] at hfits
      split at h
      · cases h
      next hsized =>
        split at h
        · cases h
        next hnone =>
          obtain ⟨hposition, hnodup⟩ := (pieceFault?_placements_eq_none_iff b).mp hnone
          exact ⟨by omega, by omega, by omega, by omega, not_not.mp hsized, hposition, hnodup⟩
  · intro hb
    obtain ⟨hrows, hcols, hrows', hcols', hsized, hposition, hnodup⟩ := hb
    have hcells : b.cells.size = b.rows * b.cols := hsized
    unfold validate
    rw [if_neg (by omega), if_neg (by rw [Position.isNone_ofIndices?_iff]; omega),
      if_neg (not_not.mpr hcells),
      (pieceFault?_placements_eq_none_iff b).mpr ⟨hposition, hnodup⟩]

end Board

end WordTiles
