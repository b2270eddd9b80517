import Mathlib.Data.Finset.Card
import WordTiles.Hazard
import WordTiles.Proofs.Board.Restack

/-!
# Hazards as one removal

What the hazards destroy is planned first and then removed piece by piece. A piece is on one
level of one cell, so no destruction is planned twice (`Board.Valid.nodup_destructions`), no
removal is refused, and together they leave out the pieces that were destroyed
(`Board.Valid.resolveHazards_eq`).

Which pieces these are is said by the other pieces of their levels (`Board.Perishes`). A level that
has lost some of its pieces is no more dangerous than before, so one removal is all there is to do
(`Board.resolveHazards_exact`).
-/

set_option autoImplicit false

namespace WordTiles

namespace Destruction

variable {t : CapabilityTable} {p : Position} {s level : Stack} {o : Destruction}

theorem mem_ofLevel_iff :
    o ∈ ofLevel t p level ↔
      ∃ x ∈ level, ∃ cause, cause? t level x = some cause ∧ ⟨x.id, x.kind, p, cause⟩ = o := by
  simp only [ofLevel, List.mem_filterMap, Option.map_eq_some_iff]

theorem mem_ofCell_iff :
    o ∈ ofCell t p s ↔ ∃ floating,
      o ∈ ofLevel t p (s.filter fun x => (t.ofPiece x).floating == floating) := by
  simp [ofCell]

theorem exists_of_mem_ofCell (h : o ∈ ofCell t p s) :
    ∃ x ∈ s, x.id = o.piece ∧ x.kind = o.kind ∧ o.position = p := by
  obtain ⟨floating, h⟩ := mem_ofCell_iff.mp h
  obtain ⟨x, hx, cause, _, rfl⟩ := mem_ofLevel_iff.mp h
  exact ⟨x, (List.mem_filter.mp hx).1, rfl, rfl, rfl⟩

/-- On one level the pieces destroyed are some of the pieces there, in their order. -/
theorem pieces_ofLevel_sublist :
    ((ofLevel t p level).map (·.piece)).Sublist (level.map (·.id)) := by
  rw [ofLevel]
  refine Stack.map_filterMap_sublist (fun x o ho => ?_) level
  obtain ⟨cause, -, rfl⟩ := Option.map_eq_some_iff.mp ho
  rfl

/-- No piece of a cell is destroyed twice: it is on one of the two levels. -/
theorem nodup_ofCell (h : (s.map (·.id)).Nodup) : ((ofCell t p s).map (·.piece)).Nodup := by
  have hlevel : ∀ floating, ((ofLevel t p (s.filter fun x =>
      (t.ofPiece x).floating == floating)).map (·.piece)).Nodup := fun floating =>
    (pieces_ofLevel_sublist.trans (List.filter_sublist.map _)).nodup h
  simp only [ofCell, List.flatMap_cons, List.flatMap_nil, List.append_nil, List.map_append]
  rw [List.nodup_append']
  refine ⟨hlevel false, hlevel true, ?_⟩
  -- a piece on both levels would be floating and not floating
  intro id hlow hhigh
  have hlow' := pieces_ofLevel_sublist.subset hlow
  have hhigh' := pieces_ofLevel_sublist.subset hhigh
  obtain ⟨x, hx, hxid⟩ := List.mem_map.mp hlow'
  obtain ⟨y, hy, hyid⟩ := List.mem_map.mp hhigh'
  rw [List.mem_filter] at hx hy
  have hxy : x = y := Stack.eq_of_id_eq h hx.1 hy.1 (hxid.trans hyid.symm)
  rw [hxy] at hx
  have hfalse := hx.2
  simp [eq_of_beq hy.2] at hfalse

/-- Destructions of pieces that are there, none of them twice, remove these pieces. -/
theorem foldlM_apply_eq {b : Board} (hb : b.Valid) {l : List Destruction}
    (hl : ∀ o ∈ l, ∃ x ∈ b.pieces, x.id = o.piece) (hnodup : (l.map (·.piece)).Nodup) :
    l.foldlM apply b = .ok (b.filterPieces fun x => !(l.map (·.piece)).contains x.id) := by
  have hids : ∀ id ∈ l.map (·.piece), ∃ x ∈ b.pieces, x.id = id := by
    intro id hid
    obtain ⟨o, ho, rfl⟩ := List.mem_map.mp hid
    exact hl o ho
  rw [← hb.removeAll_eq hids hnodup, Board.removeAll, List.foldlM_map]
  rfl

end Destruction

namespace Board

variable {b : Board} {t : CapabilityTable}

/-- The level of a piece: the pieces of its cell that float if it floats, and those that do not
if it does not. -/
def level (b : Board) (t : CapabilityTable) (x : Piece) : Stack :=
  (b.stackAt x.position).filter fun o => (t.ofPiece o).floating == (t.ofPiece x).floating

/-- A destruction is that of a piece in the cell, for which something on its level is the cause. -/
theorem Valid.mem_destructions_iff (hb : b.Valid) {o : Destruction} :
    o ∈ b.destructions t ↔ ∃ x ∈ b.stackAt o.position,
      Destruction.cause? t (b.level t x) x = some o.cause ∧ x.id = o.piece ∧ x.kind = o.kind := by
  constructor
  · intro h
    obtain ⟨p, -, hcell⟩ := List.mem_flatMap.mp h
    obtain ⟨floating, hlevel⟩ := Destruction.mem_ofCell_iff.mp hcell
    obtain ⟨x, hx, cause, hcause, rfl⟩ := Destruction.mem_ofLevel_iff.mp hlevel
    obtain ⟨hxp, hfloating⟩ := List.mem_filter.mp hx
    -- the level that was looked at is that of the piece
    rw [← eq_of_beq hfloating, ← hb.position_of_mem hxp] at hcause
    exact ⟨x, hxp, hcause, rfl, rfl⟩
  · obtain ⟨id, kind, p, cause⟩ := o
    rintro ⟨x, hx, hcause, rfl, rfl⟩
    rw [level, hb.position_of_mem hx] at hcause
    have hlevel : x ∈ (b.stackAt p).filter fun o =>
        (t.ofPiece o).floating == (t.ofPiece x).floating :=
      List.mem_filter.mpr ⟨hx, beq_self_eq_true _⟩
    have hcell : ⟨x.id, x.kind, p, cause⟩ ∈ Destruction.ofCell t p (b.stackAt p) :=
      Destruction.mem_ofCell_iff.mpr ⟨(t.ofPiece x).floating,
        Destruction.mem_ofLevel_iff.mpr ⟨x, hlevel, cause, hcause, rfl⟩⟩
    exact List.mem_flatMap.mpr ⟨p, (mem_positions_iff hb.sized).mpr (inBounds_of_mem hx), hcell⟩

/-- A destruction names a piece of the board, its kind and its position. -/
theorem Valid.exists_of_mem_destructions (hb : b.Valid) {o : Destruction}
    (h : o ∈ b.destructions t) :
    ∃ x ∈ b.pieces, x.id = o.piece ∧ x.kind = o.kind ∧ x.position = o.position := by
  obtain ⟨x, hx, -, hid, hkind⟩ := hb.mem_destructions_iff.mp h
  exact ⟨x, (mem_pieces_iff hb.sized).mpr ⟨_, hx⟩, hid, hkind, hb.position_of_mem hx⟩

/-- A piece is destroyed when something on its level is a cause for it. -/
theorem Valid.destroyed_iff (hb : b.Valid) {x : Piece} (hx : x ∈ b.pieces) :
    x.id ∈ (b.destructions t).map (·.piece) ↔
      ∃ cause, Destruction.cause? t (b.level t x) x = some cause := by
  have hstack := hb.mem_stackAt_of_mem_pieces hx
  constructor
  · intro h
    obtain ⟨o, ho, hid⟩ := List.mem_map.mp h
    obtain ⟨y, hy, hcause, hyid, -⟩ := hb.mem_destructions_iff.mp ho
    -- the piece that was destroyed is this one
    obtain rfl : y = x := hb.eq_of_id_eq hy hstack (hyid.trans hid)
    exact ⟨o.cause, hcause⟩
  · rintro ⟨cause, hcause⟩
    have ho : ⟨x.id, x.kind, x.position, cause⟩ ∈ b.destructions t :=
      hb.mem_destructions_iff.mpr ⟨x, hstack, hcause, rfl, rfl⟩
    exact List.mem_map.mpr ⟨_, ho, rfl⟩

theorem Valid.nodup_destructions (hb : b.Valid) (t : CapabilityTable) :
    ((b.destructions t).map (·.piece)).Nodup := by
  rw [destructions, List.map_flatMap, List.nodup_flatMap]
  refine ⟨fun p _ => Destruction.nodup_ofCell (hb.nodup_stackAt p),
    (nodup_positions hb.sized).imp ?_⟩
  intro p q hpq id hp hq
  obtain ⟨o, ho, rfl⟩ := List.mem_map.mp hp
  obtain ⟨o', ho', hid⟩ := List.mem_map.mp hq
  obtain ⟨x, hx, hxo, -⟩ := Destruction.exists_of_mem_ofCell ho
  obtain ⟨y, hy, hyo, -⟩ := Destruction.exists_of_mem_ofCell ho'
  exact hpq (hb.cell_eq_of_id_eq hx hy (by rw [hxo, hyo, hid]))

/-- The removals of what was destroyed, one after the other, leave it out. -/
theorem Valid.foldlM_destructions_eq (hb : b.Valid) (t : CapabilityTable) :
    (b.destructions t).foldlM Destruction.apply b =
      .ok (b.filterPieces fun x => !((b.destructions t).map (·.piece)).contains x.id) := by
  refine Destruction.foldlM_apply_eq hb ?_ (hb.nodup_destructions t)
  intro o ho
  obtain ⟨x, hx, hid, -⟩ := hb.exists_of_mem_destructions ho
  exact ⟨x, hx, hid⟩

/-- On a valid board no removal is refused, and what was destroyed is left out. -/
theorem Valid.resolveHazards_eq (hb : b.Valid) (t : CapabilityTable) :
    b.resolveHazards t =
      .ok (b.filterPieces fun x => !((b.destructions t).map (·.piece)).contains x.id,
        b.destructions t) := by
  rw [resolveHazards, hb.foldlM_destructions_eq]
  rfl

/-! ## Which pieces perish -/

/-- The pieces of a cell that are on one level with a piece: they float as it does. -/
def peers (b : Board) (t : CapabilityTable) (p : Position) (x : Piece) : Set Piece :=
  {y | y ∈ b.stackAt p ∧ (t.ofPiece y).floating = (t.ofPiece x).floating}

/-- A piece sinks where some piece of its level is sinking, unless it is alone there. -/
def Sinks (b : Board) (t : CapabilityTable) (p : Position) (x : Piece) : Prop :=
  (∃ y ∈ b.peers t p x, (t.ofPiece y).sinking = true) ∧
    ∃ y ∈ b.peers t p x, ∃ z ∈ b.peers t p x, y ≠ z

/-- A piece of a cell perishes from a cause: it sinks, or it does not sink, but melts at some hot
piece of its level. -/
def Perishes (b : Board) (t : CapabilityTable) (p : Position) (x : Piece) : HazardCause → Prop
  | .sink => b.Sinks t p x
  | .melt => ¬ b.Sinks t p x ∧ (∃ y ∈ b.peers t p x, (t.ofPiece y).hot = true) ∧
      (t.ofPiece x).melting = true

variable {b' : Board} {p : Position} {x : Piece} {cause : HazardCause}

theorem Valid.mem_level_iff (hb : b.Valid) (hx : x ∈ b.stackAt p) {y : Piece} :
    y ∈ b.level t x ↔ y ∈ b.peers t p x := by
  rw [level, hb.position_of_mem hx, List.mem_filter, beq_iff_eq]
  rfl

/-- There is more than one piece on a level when two of its pieces differ. -/
theorem Valid.one_lt_length_level_iff (hb : b.Valid) (hx : x ∈ b.stackAt p) :
    1 < (b.level t x).length ↔ ∃ y ∈ b.peers t p x, ∃ z ∈ b.peers t p x, y ≠ z := by
  have hnodup : (b.level t x).Nodup := (hb.nodup_stackAt _).of_map.filter _
  rw [← List.toFinset_card_of_nodup hnodup, Finset.one_lt_card]
  simp only [List.mem_toFinset, hb.mem_level_iff hx]

/-- The cause that is found for a piece is the one from which it perishes. -/
theorem Valid.cause?_eq_some_iff (hb : b.Valid) (hx : x ∈ b.stackAt p) :
    Destruction.cause? t (b.level t x) x = some cause ↔ b.Perishes t p x cause := by
  have hsinks : ((b.level t x).any fun o => (t.ofPiece o).sinking) ∧ 1 < (b.level t x).length ↔
      b.Sinks t p x := by
    rw [Sinks, hb.one_lt_length_level_iff hx, List.any_eq_true]
    simp only [hb.mem_level_iff hx]
  have hhot : ((b.level t x).any fun o => (t.ofPiece o).hot) = true ↔
      ∃ y ∈ b.peers t p x, (t.ofPiece y).hot = true := by
    rw [List.any_eq_true]
    simp only [hb.mem_level_iff hx]
  rw [Destruction.cause?]
  split
  next h =>
    rw [hsinks] at h
    cases cause <;> simp [Perishes, h]
  next h =>
    rw [hsinks] at h
    split
    next hmelts =>
      rw [hhot] at hmelts
      cases cause <;> simp [Perishes, h, hmelts.1, hmelts.2]
    next hmelts =>
      rw [hhot] at hmelts
      cases cause <;> simp [Perishes, h, hmelts]

theorem Valid.mem_destructions_iff_perishes (hb : b.Valid) {o : Destruction} :
    o ∈ b.destructions t ↔
      ∃ x ∈ b.stackAt o.position, b.Perishes t o.position x o.cause ∧
        o = ⟨x.id, x.kind, o.position, o.cause⟩ := by
  rw [hb.mem_destructions_iff]
  refine exists_congr fun x => and_congr_right fun hx => ?_
  rw [hb.cause?_eq_some_iff hx]
  refine and_congr_right fun _ => ?_
  obtain ⟨id, kind, p, cause⟩ := o
  simp [eq_comm]

/-- The pieces that survive are those that do not perish from anything. -/
theorem Valid.survives_iff (hb : b.Valid) (hx : x ∈ b.stackAt p) :
    x.id ∉ (b.destructions t).map (·.piece) ↔ ∀ cause, ¬ b.Perishes t p x cause := by
  rw [hb.destroyed_iff ((mem_pieces_iff hb.sized).mpr ⟨p, hx⟩), not_exists]
  simp only [hb.cause?_eq_some_iff hx]

/-- Where pieces are missing, nothing perishes that would not have perished among them. -/
theorem Perishes.of_peers_subset (hsub : b'.peers t p x ⊆ b.peers t p x)
    (h : b'.Perishes t p x cause) : ∃ cause', b.Perishes t p x cause' := by
  by_cases hsinks : b.Sinks t p x
  · exact ⟨.sink, hsinks⟩
  · cases cause with
    | sink =>
        obtain ⟨⟨y, hy, hsinking⟩, z, hz, z', hz', hne⟩ := h
        exact absurd ⟨⟨y, hsub hy, hsinking⟩, z, hsub hz, z', hsub hz', hne⟩ hsinks
    | melt =>
        obtain ⟨-, ⟨y, hy, hhot⟩, hmelting⟩ := h
        exact ⟨.melt, hsinks, ⟨y, hsub hy, hhot⟩, hmelting⟩

/-- **Hazards are exact, and once is enough.** On a valid board no removal is refused. The pieces
destroyed are those that perish, each named once and with the cause. In every cell the others stay
as they were and in their order. And nothing is left that perishes by the same table. -/
theorem resolveHazards_exact {b : Board} (hb : b.validate = .ok ()) (t : CapabilityTable) :
    ∃ b' destroyed, b.resolveHazards t = .ok (b', destroyed) ∧
      b'.validate = .ok () ∧ b'.rows = b.rows ∧ b'.cols = b.cols ∧
      (∀ o, o ∈ destroyed ↔ ∃ x ∈ b.stackAt o.position, b.Perishes t o.position x o.cause ∧
        o = ⟨x.id, x.kind, o.position, o.cause⟩) ∧
      (destroyed.map (·.piece)).Nodup ∧
      (∀ p, (b'.stackAt p).Sublist (b.stackAt p) ∧
        ∀ x, x ∈ b'.stackAt p ↔ x ∈ b.stackAt p ∧ ∀ cause, ¬ b.Perishes t p x cause) ∧
      b'.destructions t = [] := by
  rw [validate_eq_ok_iff] at hb
  let survives : Piece → Bool := fun x => !((b.destructions t).map (·.piece)).contains x.id
  have hb' : (b.filterPieces survives).Valid := hb.filterPieces survives
  have hmem : ∀ p x, x ∈ (b.filterPieces survives).stackAt p ↔
      x ∈ b.stackAt p ∧ ∀ cause, ¬ b.Perishes t p x cause := by
    intro p x
    rw [stackAt_filterPieces hb.sized, List.mem_filter]
    refine and_congr_right fun hx => ?_
    rw [← hb.survives_iff hx, ← List.contains_iff_mem]
    simp [survives]
  refine ⟨_, _, hb.resolveHazards_eq t, validate_eq_ok_iff.mpr hb', rfl, rfl,
    fun o => hb.mem_destructions_iff_perishes, hb.nodup_destructions t, fun p => ⟨?_, hmem p⟩, ?_⟩
  · rw [stackAt_filterPieces hb.sized]
    exact List.filter_sublist
  -- a piece that perished now would have perished before
  · rw [List.eq_nil_iff_forall_not_mem]
    intro o ho
    obtain ⟨x, hx, hperishes, -⟩ := hb'.mem_destructions_iff_perishes.mp ho
    obtain ⟨-, hsurvives⟩ := (hmem _ x).mp hx
    have hsub : (b.filterPieces survives).peers t o.position x ⊆ b.peers t o.position x :=
      fun y hy => ⟨((hmem _ y).mp hy.1).1, hy.2⟩
    obtain ⟨cause, hbefore⟩ := hperishes.of_peers_subset hsub
    exact hsurvives cause hbefore

/-- Water with a rock in it and a keke above, a baba and a tile at a door, and a flag that is hot
and melts. -/
def floodedBoard : Board :=
  ⟨1, 3, #[
    [⟨.ofNat 1, .thing .water, ⟨0, 0⟩, .right⟩, ⟨.ofNat 2, .thing .rock, ⟨0, 0⟩, .left⟩,
      ⟨.ofNat 3, .thing .keke, ⟨0, 0⟩, .up⟩],
    [⟨.ofNat 4, .thing .door, ⟨0, 1⟩, .right⟩, ⟨.ofNat 5, .thing .baba, ⟨0, 1⟩, .down⟩,
      ⟨.ofNat 6, .tile "MELT", ⟨0, 1⟩, .right⟩],
    [⟨.ofNat 7, .thing .flag, ⟨0, 2⟩, .right⟩]]⟩

/-- Water sinks and is hot, doors and flags are hot, babas, flags and kekes melt, and kekes
float. -/
def floodingTable : CapabilityTable :=
  .build ⟨[⟨[.water], .is, .action .sink⟩, ⟨[.water, .door, .flag], .is, .action .hot⟩,
    ⟨[.baba, .flag, .keke], .is, .action .melt⟩, ⟨[.keke], .is, .action .float⟩]⟩ floodedBoard

/-- The rock sinks with the water, the baba and the flag melt, and the keke, the door and the tile
are left. -/
theorem resolveHazards_floodedBoard :
    floodedBoard.validate = .ok () ∧
      ∃ b' destroyed, floodedBoard.resolveHazards floodingTable = .ok (b', destroyed) ∧
        ⟨.ofNat 2, .thing .rock, ⟨0, 0⟩, .sink⟩ ∈ destroyed ∧
        destroyed.map (·.piece) = [.ofNat 1, .ofNat 2, .ofNat 5, .ofNat 7] ∧
        b'.pieces.map (·.id) = [.ofNat 3, .ofNat 4, .ofNat 6] ∧
        b'.destructions floodingTable = [] := by
  have hvalid : floodedBoard.validate = .ok () := by decide
  obtain ⟨b', destroyed, hok, -, -, -, hexact, -, -, hnone⟩ :=
    resolveHazards_exact hvalid floodingTable
  have hboard := (validate_eq_ok_iff.mp hvalid).resolveHazards_eq floodingTable
  obtain ⟨rfl, rfl⟩ := Prod.mk.inj (Except.ok.inj (hok.symm.trans hboard))
  refine ⟨hvalid, _, _, hok, (hexact _).mpr ?_, by decide, by decide, hnone⟩
  -- the water is on the level of the rock, and is another piece
  let water : Piece := ⟨.ofNat 1, .thing .water, ⟨0, 0⟩, .right⟩
  let rock : Piece := ⟨.ofNat 2, .thing .rock, ⟨0, 0⟩, .left⟩
  have hwater : water ∈ floodedBoard.peers floodingTable ⟨0, 0⟩ rock := ⟨by decide, by decide⟩
  have hrock : rock ∈ floodedBoard.peers floodingTable ⟨0, 0⟩ rock := ⟨by decide, rfl⟩
  exact ⟨rock, by decide, ⟨⟨water, hwater, by decide⟩, water, hwater, rock, hrock, by decide⟩, rfl⟩

end Board

end WordTiles
