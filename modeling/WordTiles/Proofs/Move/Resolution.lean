import WordTiles.Proofs.Move.Plan

/-!
# What a move does to the board

A plan is carried out for the board it was made for, so every piece it moves is there and has a
cell to come to. The move therefore never fails and is the shift of the pieces that the plan
moves (`Board.Valid.resolveMove_eq`). From that follow

* `Board.resolveMove_eq_simultaneous_shift`: what stands where afterwards, and which steps are
  reported;
* `Board.plan_attempts_and_movers`: which attempts are made, that an attempt succeeds exactly
  when its piece changes its cell, and which pieces move;
* `Board.resolveMove_arrivals_clear`: what a piece that has moved can meet in its new cell.
-/

set_option autoImplicit false

namespace WordTiles

/-- A plan commits a piece when the piece has an attempt that succeeds. -/
def MovePlan.Commits (plan : MovePlan) (id : PieceId) : Prop :=
  ∃ a ∈ plan.attempts, a.piece = id ∧ a.status = .committed

namespace Board

variable {b : Board} {t : CapabilityTable} {d : Direction} {p q : Position} {limit : Nat}
  {x y : Piece} {moving : PieceId → Bool}

def Holds (b : Board) (p : Position) (id : PieceId) : Prop := ∃ x ∈ b.stackAt p, x.id = id

/-! ## Where pieces are after a shift -/

namespace Valid

theorem moving_of_holds_step (hb : b.Valid) (hx : x ∈ b.stackAt p)
    (h : (b.shift d moving).Holds (p.step d) x.id) : moving x.id = true := by
  obtain ⟨y, hy, hid⟩ := h
  obtain ⟨-, ⟨hy, -⟩ | ⟨z, -, hz, rfl⟩⟩ := (mem_stackAt_shift hb.sized).mp hy
  · exact absurd (hb.cell_eq_of_id_eq hy hx hid) (Position.step_ne_self p d)
  · rw [← hid]
    exact hz

theorem not_moving_of_holds (hb : b.Valid) (hx : x ∈ b.stackAt p)
    (h : (b.shift d moving).Holds p x.id) : moving x.id = false := by
  obtain ⟨y, hy, hid⟩ := h
  obtain ⟨-, ⟨-, hy⟩ | ⟨z, hz, -, rfl⟩⟩ := (mem_stackAt_shift hb.sized).mp hy
  · rw [← hid]
    exact hy
  · exact absurd (hb.cell_eq_of_id_eq hz hx hid) (Position.step_ne_self p d.reverse)

theorem find?_shift (hb : b.Valid) (moving : PieceId → Bool) (hx : x ∈ b.pieces)
    (hin : moving x.id = true → b.InBounds (x.position.step d)) :
    ∃ y, (b.shift d moving).find? x.id = some y ∧
      y.position = if moving x.id then x.position.step d else x.position := by
  have hstack := hb.mem_stackAt_of_mem_pieces hx
  have hb' := hb.shift d moving
  cases hmoving : moving x.id with
  | true =>
      have hy : x.arrive (x.position.step d) d ∈
          (b.shift d moving).stackAt (x.position.step d) := by
        refine (mem_stackAt_shift hb.sized).mpr ⟨hin hmoving, .inr ⟨x, ?_, hmoving, rfl⟩⟩
        rw [Position.step_reverse_step]
        exact hstack
      exact ⟨x.arrive (x.position.step d) d, hb'.find?_eq hy, rfl⟩
  | false =>
      have hy := hb'.mem_stackAt_of_mem_pieces (hb.mem_pieces_shift (d := d) hx hmoving)
      exact ⟨x, hb'.find?_eq hy, rfl⟩

/-! ## Carrying out the plan of a board -/

/-- A mover of a plan stands at its place and has a cell to come to. -/
theorem on_of_mem_movers (hb : b.Valid) {m : Mover} (hm : m ∈ (b.plan t d limit).movers) :
    m.On b ∧ b.InBounds (m.position.step d) := by
  obtain ⟨x, hlayer, hid, hkind, hposition, hmoves⟩ := hb.of_mem_movers hm
  have hx : x ∈ b.pieces := (mem_pieces_iff hb.sized).mpr ⟨_, List.mem_of_getElem? hlayer⟩
  rw [← hposition]
  refine ⟨⟨x, ?_, hid, hkind⟩, (hb.clear_of_moves hx hmoves).1⟩
  rw [← hposition]
  exact hlayer

theorem commit_plan_eq (hb : b.Valid) (t : CapabilityTable) (d : Direction) (limit : Nat) :
    b.commit (b.plan t d limit) =
      .ok (b.shift d (b.plan t d limit).moves,
        (Mover.inOrder d (b.plan t d limit).movers).map (Mover.stepTo d)) :=
  hb.commit_eq rfl (fun _ hm => (hb.on_of_mem_movers hm).1)
    (fun _ hm => (hb.on_of_mem_movers hm).2) (Mover.nodup_distinct _)

/-- A move is the shift of the pieces that its plan moves. -/
theorem resolveMove_eq (hb : b.Valid) (t : CapabilityTable) (d : Direction)
    (limit : Option Nat) :
    b.resolveMove t d limit =
      .ok (b.shift d (b.plan t d (limit.getD b.defaultLimit)).moves,
        ⟨(b.plan t d (limit.getD b.defaultLimit)).attempts,
          (Mover.inOrder d (b.plan t d (limit.getD b.defaultLimit)).movers).map
            (Mover.stepTo d)⟩) := by
  rw [resolveMove, hb.commit_plan_eq]
  rfl

theorem steps_perm (hb : b.Valid) (t : CapabilityTable) (d : Direction) (limit : Nat) :
    ((Mover.inOrder d (b.plan t d limit).movers).map (Mover.stepTo d)).Perm
      ((b.pieces.filter fun x => (b.plan t d limit).moves x.id).map fun x =>
        ⟨x.id, x.kind, x.position, x.position.step d⟩) := by
  -- neither list names a piece twice, so they need the same members only
  apply (List.perm_ext_iff_of_nodup _ _).mpr
  · intro s
    simp only [List.mem_map, List.mem_filter, (Mover.inOrder_perm d _).mem_iff]
    constructor
    · rintro ⟨m, hm, rfl⟩
      obtain ⟨x, hlayer, hid, hkind, hposition, hmoves⟩ := hb.of_mem_movers hm
      have hx : x ∈ b.pieces := (mem_pieces_iff hb.sized).mpr ⟨_, List.mem_of_getElem? hlayer⟩
      refine ⟨x, ⟨hx, (hb.moves_plan_iff hx).mpr hmoves⟩, ?_⟩
      rw [hid, hkind, hposition, Mover.stepTo]
    · rintro ⟨x, ⟨hx, hmoves⟩, rfl⟩
      obtain ⟨m, hm, hid⟩ := List.any_eq_true.mp hmoves
      obtain ⟨y, hlayer, hyid, hkind, hposition, -⟩ := hb.of_mem_movers hm
      have hyx : y = x := hb.eq_of_id_eq (List.mem_of_getElem? hlayer)
        (hb.mem_stackAt_of_mem_pieces hx) (hyid.trans (eq_of_beq hid))
      refine ⟨m, hm, ?_⟩
      rw [Mover.stepTo, ← hyid, ← hkind, ← hposition, hyx]
  · exact (Mover.nodup_steps d (Mover.nodup_distinct _)).of_map
  · apply List.Nodup.of_map (f := Step.piece)
    rw [List.map_map]
    exact (List.filter_sublist.map _).nodup hb.ids_nodup

end Valid

/-! ## The order of the steps -/

/-- The pieces of a board as movers, each with its place, in reading order. -/
def standing (b : Board) : List Mover :=
  b.positions.flatMap fun p => (b.stackAt p).zipIdx.map fun e => Mover.ofPushed ⟨e.1, e.2⟩

theorem map_piece_standing (hb : b.Sized) : b.standing.map (·.piece) = b.pieces.map (·.id) := by
  rw [standing, pieces_eq_flatMap hb, List.map_flatMap, List.map_flatMap]
  congr 1
  funext p
  conv_rhs => rw [← List.zipIdx_map_fst 0 (b.stackAt p)]
  rw [List.map_map, List.map_map]
  rfl

namespace Valid

theorem mem_standing_iff (hb : b.Valid) {m : Mover} : m ∈ b.standing ↔ m.On b := by
  simp only [standing, List.mem_flatMap, List.mem_map, Prod.exists,
    List.mk_mem_zipIdx_iff_getElem?]
  constructor
  · rintro ⟨p, -, x, i, hlayer, rfl⟩
    have hposition := hb.position_of_mem (List.mem_of_getElem? hlayer)
    rw [← hposition] at hlayer
    exact ⟨x, hlayer, rfl, rfl⟩
  · rintro ⟨x, hlayer, hid, hkind⟩
    have hstack := List.mem_of_getElem? hlayer
    refine ⟨m.position, (mem_positions_iff hb.sized).mpr (inBounds_of_mem hstack), x, m.layer,
      hlayer, ?_⟩
    rw [Mover.ofPushed, hid, hkind, hb.position_of_mem hstack]

theorem movers_perm (hb : b.Valid) (t : CapabilityTable) (d : Direction) (limit : Nat) :
    (b.plan t d limit).movers.Perm
      (b.standing.filter fun m => (b.plan t d limit).moves m.piece) := by
  have hstanding : (b.standing.map (·.piece)).Nodup := by
    rw [map_piece_standing hb.sized]
    exact hb.ids_nodup
  apply (List.perm_ext_iff_of_nodup (Mover.nodup_distinct _).of_map
    (hstanding.of_map.filter _)).mpr
  intro m
  rw [List.mem_filter, hb.mem_standing_iff]
  constructor
  · intro hm
    exact ⟨(hb.on_of_mem_movers hm).1, List.any_eq_true.mpr ⟨m, hm, beq_self_eq_true m.piece⟩⟩
  -- the mover that the plan has for the piece is the one at its place
  · rintro ⟨hon, hmoves⟩
    obtain ⟨m', hm', hpiece⟩ := List.any_eq_true.mp hmoves
    rw [← (hb.on_of_mem_movers hm').1.eq_of_piece_eq hb hon (eq_of_beq hpiece)]
    exact hm'

/-- The order of the steps depends on which pieces move, and not on the chains that take them
along. -/
theorem inOrder_movers_eq (hb : b.Valid) (t : CapabilityTable) (d : Direction) (limit : Nat) :
    Mover.inOrder d (b.plan t d limit).movers =
      Mover.inOrder d (b.standing.filter fun m => (b.plan t d limit).moves m.piece) := by
  apply Mover.inOrder_eq_of_perm (hb.movers_perm t d limit)
  intro m hm m' hm' hposition hlayer
  have hon := hb.mem_standing_iff.mp (List.mem_filter.mp hm).1
  have hon' := hb.mem_standing_iff.mp (List.mem_filter.mp hm').1
  exact hon.eq_of_place hon' hposition hlayer

/-! ## Attempts -/

/-- The attempts are those of the controllable pieces, in reading order. -/
theorem attempts_plan (hb : b.Valid) (t : CapabilityTable) (d : Direction) (limit : Nat) :
    (b.plan t d limit).attempts.map (fun a => (a.piece, a.position)) =
      (b.pieces.filter fun x => (t.ofPiece x).controllable).map fun x => (x.id, x.position) := by
  rw [← map_piece_controlled hb.sized, List.map_map, plan, List.map_map]
  apply List.map_congr_left
  intro c hc
  have hlayer := ((mem_controlled_iff hb.sized).mp hc).1
  have hposition := hb.position_of_mem (List.mem_of_getElem? hlayer)
  simp only [Function.comp_apply, attempt_piece, attempt_position, hposition]

/-- An attempt is that of a controllable piece, and ends as its cell decides. -/
theorem of_mem_attempts (hb : b.Valid) {a : Attempt} (ha : a ∈ (b.plan t d limit).attempts) :
    ∃ x ∈ b.pieces, (t.ofPiece x).controllable = true ∧ x.id = a.piece ∧
      x.position = a.position ∧
      a.status = b.verdict t d limit x.position := by
  obtain ⟨c, hc, rfl⟩ := List.mem_map.mp ha
  obtain ⟨hlayer, hcontrol⟩ := (mem_controlled_iff hb.sized).mp hc
  have hstack := List.mem_of_getElem? hlayer
  have hposition := hb.position_of_mem hstack
  refine ⟨c.2.piece, (mem_pieces_iff hb.sized).mpr ⟨_, hstack⟩, hcontrol,
    (attempt_piece c).symm, hposition.trans (attempt_position c).symm, ?_⟩
  rw [hposition]
  exact hb.attempt_status_eq hc

/-- The attempt of a controllable piece succeeds exactly when the piece can step. -/
theorem commits_plan_iff (hb : b.Valid) (hx : x ∈ b.pieces)
    (hcontrol : (t.ofPiece x).controllable = true) :
    (b.plan t d limit).Commits x.id ↔ b.verdict t d limit x.position = .committed := by
  have hstack := hb.mem_stackAt_of_mem_pieces hx
  constructor
  · rintro ⟨a, ha, hpiece, hstatus⟩
    obtain ⟨y, hy, -, hid, -, hverdict⟩ := hb.of_mem_attempts ha
    have hyx : y = x := hb.eq_of_id_eq (hb.mem_stackAt_of_mem_pieces hy) hstack
      (hid.trans hpiece)
    rw [← hyx]
    exact hverdict.symm.trans hstatus
  · intro hstep
    obtain ⟨i, hi⟩ := List.mem_iff_getElem?.mp hstack
    have hc : (x.position, (⟨x, i⟩ : Pushed)) ∈ b.controlled t :=
      (mem_controlled_iff hb.sized).mpr ⟨hi, hcontrol⟩
    exact ⟨_, List.mem_map.mpr ⟨_, hc, rfl⟩, attempt_piece _,
      (hb.attempt_status_eq hc).trans hstep⟩

/-- A controllable piece moves exactly when it can step, whoever else might carry it along. -/
theorem moves_iff_verdict (hb : b.Valid) (hx : x ∈ b.pieces)
    (hcontrol : (t.ofPiece x).controllable = true) :
    b.Moves t d limit x ↔ b.verdict t d limit x.position = .committed :=
  ⟨hb.verdict_of_moves hx, fun hstep => .inl ⟨hcontrol, hstep⟩⟩

theorem nodup_attempts (hb : b.Valid) (t : CapabilityTable) (d : Direction) (limit : Nat) :
    ((b.plan t d limit).attempts.map (·.piece)).Nodup := by
  have hpieces : (b.plan t d limit).attempts.map (·.piece) =
      (b.pieces.filter fun x => (t.ofPiece x).controllable).map (·.id) := by
    have h := congrArg (List.map Prod.fst) (hb.attempts_plan t d limit)
    rw [List.map_map, List.map_map] at h
    exact h
  rw [hpieces]
  exact (List.filter_sublist.map _).nodup hb.ids_nodup

theorem committed_iff_moves (hb : b.Valid) {a : Attempt}
    (ha : a ∈ (b.plan t d limit).attempts) :
    a.status = .committed ↔ (b.plan t d limit).moves a.piece = true := by
  obtain ⟨x, hx, hcontrol, hid, -, hstatus⟩ := hb.of_mem_attempts ha
  rw [← hid, hb.moves_plan_iff hx, hb.moves_iff_verdict hx hcontrol, hstatus]

/-- An attempt succeeds exactly when its piece is found in another cell after the move. -/
theorem committed_iff_position_ne (hb : b.Valid) {a : Attempt}
    (ha : a ∈ (b.plan t d limit).attempts) :
    ∃ x, (b.shift d (b.plan t d limit).moves).find? a.piece = some x ∧
      (a.status = .committed ↔ x.position ≠ a.position) := by
  obtain ⟨x, hx, -, hid, hposition, -⟩ := hb.of_mem_attempts ha
  obtain ⟨y, hfind, hy⟩ := hb.find?_shift (d := d) (b.plan t d limit).moves hx fun h =>
    (hb.clear_of_moves hx ((hb.moves_plan_iff hx).mp h)).1
  rw [hid] at hfind hy
  refine ⟨y, hfind, ?_⟩
  rw [hb.committed_iff_moves ha, hy, hposition]
  split
  next h => exact iff_of_true h (Position.step_ne_self a.position d)
  next h => exact iff_of_false h (not_not.mpr rfl)

/-- The pieces that move, by the attempts of the plan. -/
theorem moves_plan_iff_commits (hb : b.Valid) (hx : x ∈ b.pieces) :
    (b.plan t d limit).moves x.id = true ↔
      ((t.ofPiece x).controllable = true ∧ (b.plan t d limit).Commits x.id) ∨
        ((t.ofPiece x).pushable = true ∧ ∃ k, 0 < k ∧
          ∃ c ∈ b.stackAt (x.position.advance d.reverse k),
            (t.ofPiece c).controllable = true ∧ (b.plan t d limit).Commits c.id ∧
            ∀ j, 0 < j → j < k → t.Loaded (b.stackAt (x.position.advance d.reverse j))) := by
  rw [hb.moves_plan_iff hx, Moves]
  refine or_congr (and_congr_right fun hcontrol => (hb.commits_plan_iff hx hcontrol).symm)
    (and_congr_right fun _ => exists_congr fun k => and_congr_right fun _ =>
      exists_congr fun c => and_congr_right fun hc => and_congr_right fun hcontrol =>
        and_congr_left fun _ => ?_)
  have hcmem : c ∈ b.pieces := (mem_pieces_iff hb.sized).mpr ⟨_, hc⟩
  rw [hb.commits_plan_iff hcmem hcontrol, hb.position_of_mem hc]

/-! ## Arrivals -/

/-- What stands in the next cell of a piece that moves does not block. -/
theorem blocking_eq_false_of_arrival (hb : b.Valid) (hx : x ∈ b.stackAt p)
    (hmoves : (b.plan t d limit).moves x.id = true) (hy : y ∈ b.stackAt (p.step d)) :
    (t.ofPiece y).blocking = false := by
  have hxmem : x ∈ b.pieces := (mem_pieces_iff hb.sized).mpr ⟨p, hx⟩
  rw [← hb.position_of_mem hx] at hy
  exact (hb.clear_of_moves hxmem ((hb.moves_plan_iff hxmem).mp hmoves)).2 y hy

/-- What stands in the next cell of a piece that moves, and stays, cannot be pushed. -/
theorem pushable_eq_false_of_arrival (hb : b.Valid) (hx : x ∈ b.stackAt p)
    (hmoves : (b.plan t d limit).moves x.id = true) (hy : y ∈ b.stackAt (p.step d))
    (hstill : (b.plan t d limit).moves y.id = false) : (t.ofPiece y).pushable = false := by
  have hxmem : x ∈ b.pieces := (mem_pieces_iff hb.sized).mpr ⟨p, hx⟩
  have hymem : y ∈ b.pieces := (mem_pieces_iff hb.sized).mpr ⟨_, hy⟩
  rw [← hb.position_of_mem hx] at hy
  by_contra hpush
  rw [Bool.not_eq_false] at hpush
  have hymoves := hb.moves_of_pushable hxmem ((hb.moves_plan_iff hxmem).mp hmoves) hy hpush
  rw [(hb.moves_plan_iff hymem).mpr hymoves] at hstill
  cases hstill

end Valid

/-! ## The whole move

The board that the results are tried on has two rows. In the upper one, two controllable pieces
push one rock, and the rear one pushes what the front one stands on; in the lower one, a
controllable piece is stopped by a wall behind a rock. -/

/-- Two rows of pushing, one of which is stopped. -/
def pushingRows : Board :=
  ⟨2, 4, #[
    [⟨.ofNat 1, .thing .baba, ⟨0, 0⟩, .down⟩],
    [⟨.ofNat 2, .thing .rock, ⟨0, 1⟩, .up⟩, ⟨.ofNat 3, .thing .baba, ⟨0, 1⟩, .right⟩],
    [⟨.ofNat 4, .thing .rock, ⟨0, 2⟩, .right⟩],
    [⟨.ofNat 5, .thing .flag, ⟨0, 3⟩, .right⟩],
    [⟨.ofNat 6, .thing .baba, ⟨1, 0⟩, .right⟩],
    [⟨.ofNat 7, .thing .rock, ⟨1, 1⟩, .right⟩],
    [⟨.ofNat 8, .thing .wall, ⟨1, 2⟩, .right⟩],
    []]⟩

/-- Babas are controlled, rocks can be pushed, and walls block. -/
def pushingTable : CapabilityTable :=
  .build ⟨[⟨[.baba], .is, .action .you⟩, ⟨[.rock], .is, .action .push⟩,
    ⟨[.wall], .is, .action .stop⟩]⟩ pushingRows

/-- **A move is one simultaneous shift.** On a valid board it never fails. Every cell keeps the
pieces that the plan does not move, in their old order, and gets on top of them those that it
moves from the cell behind, in their old order, turned in the direction of the move. The steps
reported are one for each piece moved. -/
theorem resolveMove_eq_simultaneous_shift {b : Board} (hb : b.validate = .ok ())
    (t : CapabilityTable) (d : Direction) (limit : Option Nat) :
    let moving := (b.plan t d (limit.getD b.defaultLimit)).moves
    ∃ b' report, b.resolveMove t d limit = .ok (b', report) ∧
      b'.validate = .ok () ∧ b'.rows = b.rows ∧ b'.cols = b.cols ∧
      (∀ q, b.InBounds q → b'.stackAt q =
        (b.stackAt q).filter (fun x => !moving x.id) ++
          ((b.stackAt (q.step d.reverse)).filter fun x => moving x.id).map
            fun x => { x with position := q, facing := d }) ∧
      (∀ id, moving id = true → ∃ x ∈ b.pieces, x.id = id) ∧
      (report.steps.map (·.piece)).Nodup ∧
      report.steps.Perm ((b.pieces.filter fun x => moving x.id).map fun x =>
        ⟨x.id, x.kind, x.position, x.position.step d⟩) := by
  intro moving
  rw [validate_eq_ok_iff] at hb
  refine ⟨_, _, hb.resolveMove_eq t d limit, validate_eq_ok_iff.mpr (hb.shift d moving), rfl, rfl,
    fun q hq => stackAt_shift hb.sized hq, ?_, Mover.nodup_steps d (Mover.nodup_distinct _),
    hb.steps_perm t d _⟩
  intro id hid
  obtain ⟨m, hm, hpiece⟩ := List.any_eq_true.mp hid
  obtain ⟨x, hlayer, hxid, -⟩ := hb.of_mem_movers hm
  exact ⟨x, (mem_pieces_iff hb.sized).mpr ⟨_, List.mem_of_getElem? hlayer⟩,
    hxid.trans (eq_of_beq hpiece)⟩

/-- Both babas of the upper row and both rocks go one cell on, and keep their order. -/
theorem resolveMove_pushingRows :
    pushingRows.validate = .ok () ∧
      ∃ b' report, pushingRows.resolveMove pushingTable .right none = .ok (b', report) ∧
        b'.stackAt ⟨0, 2⟩ = [⟨.ofNat 2, .thing .rock, ⟨0, 2⟩, .right⟩,
          ⟨.ofNat 3, .thing .baba, ⟨0, 2⟩, .right⟩] ∧
        b'.stackAt ⟨0, 3⟩ = [⟨.ofNat 5, .thing .flag, ⟨0, 3⟩, .right⟩,
          ⟨.ofNat 4, .thing .rock, ⟨0, 3⟩, .right⟩] ∧
        report.steps.Perm [⟨.ofNat 1, .thing .baba, ⟨0, 0⟩, ⟨0, 1⟩⟩,
          ⟨.ofNat 2, .thing .rock, ⟨0, 1⟩, ⟨0, 2⟩⟩, ⟨.ofNat 3, .thing .baba, ⟨0, 1⟩, ⟨0, 2⟩⟩,
          ⟨.ofNat 4, .thing .rock, ⟨0, 2⟩, ⟨0, 3⟩⟩] := by
  have hvalid : pushingRows.validate = .ok () := by decide
  obtain ⟨b', report, hok, -, -, -, hstack, -, -, hsteps⟩ :=
    resolveMove_eq_simultaneous_shift hvalid pushingTable .right none
  refine ⟨hvalid, b', report, hok, ?_, ?_, ?_⟩
  · rw [hstack ⟨0, 2⟩ (by decide)]
    decide
  · rw [hstack ⟨0, 3⟩ (by decide)]
    decide
  · refine hsteps.trans (.of_eq ?_)
    decide

/-- **Which attempts are made, and which pieces move.** Every controllable piece makes one
attempt, in reading order. It succeeds exactly when the piece changes its cell, so a piece that
is refused is not carried along by another one. The pieces that move are those with a
successful attempt, and the pushable ones that have one behind them with a pushable piece in
every cell between. -/
theorem plan_attempts_and_movers {b : Board} (hb : b.validate = .ok ()) (t : CapabilityTable)
    (d : Direction) (limit : Nat) :
    let plan := b.plan t d limit
    plan.attempts.map (fun a => (a.piece, a.position)) =
        (b.pieces.filter fun x => (t.ofPiece x).controllable).map (fun x => (x.id, x.position)) ∧
      (plan.attempts.map (·.piece)).Nodup ∧
      (∃ b' steps, b.commit plan = .ok (b', steps) ∧
        ∀ a ∈ plan.attempts, ∃ x, b'.find? a.piece = some x ∧
          (a.status = .committed ↔ x.position ≠ a.position) ∧
          (a.status = .committed ↔ plan.moves a.piece = true)) ∧
      ∀ x ∈ b.pieces, plan.moves x.id = true ↔
        ((t.ofPiece x).controllable = true ∧ plan.Commits x.id) ∨
          ((t.ofPiece x).pushable = true ∧ ∃ k, 0 < k ∧
            ∃ c ∈ b.stackAt (x.position.advance d.reverse k),
              (t.ofPiece c).controllable = true ∧ plan.Commits c.id ∧
              ∀ j, 0 < j → j < k → ∃ y ∈ b.stackAt (x.position.advance d.reverse j),
                (t.ofPiece y).pushable = true) := by
  intro plan
  rw [validate_eq_ok_iff] at hb
  refine ⟨hb.attempts_plan t d limit, hb.nodup_attempts t d limit,
    ⟨_, _, hb.commit_plan_eq t d limit, ?_⟩, fun x hx => hb.moves_plan_iff_commits hx⟩
  intro a ha
  obtain ⟨x, hfind, hposition⟩ := hb.committed_iff_position_ne ha
  exact ⟨x, hfind, hposition, hb.committed_iff_moves ha⟩

/-- Three babas try, the one before the wall is refused and stays, and the farther rock of the
upper row moves, two cells before the rear baba. -/
theorem plan_pushingRows :
    pushingRows.validate = .ok () ∧
      (pushingRows.plan pushingTable .right 6).attempts.map (fun a => (a.piece, a.position)) =
        [(.ofNat 1, ⟨0, 0⟩), (.ofNat 3, ⟨0, 1⟩), (.ofNat 6, ⟨1, 0⟩)] ∧
      (∃ b' steps, pushingRows.commit (pushingRows.plan pushingTable .right 6) = .ok (b', steps) ∧
        ∃ x, b'.find? (.ofNat 6) = some x ∧ x.position = ⟨1, 0⟩) ∧
      (pushingRows.plan pushingTable .right 6).moves (.ofNat 4) = true := by
  have hvalid : pushingRows.validate = .ok () := by decide
  obtain ⟨hattempts, -, ⟨b', steps, hok, hcells⟩, hmoves⟩ :=
    plan_attempts_and_movers hvalid pushingTable .right 6
  refine ⟨hvalid, hattempts.trans (by decide), ⟨b', steps, hok, ?_⟩, ?_⟩
  · obtain ⟨x, hx, hstatus, -⟩ :=
      hcells ⟨.ofNat 6, ⟨1, 0⟩, .refused .blocked⟩ (by decide)
    exact ⟨x, hx, not_not.mp fun hne => absurd (hstatus.mpr hne) (by decide)⟩
  · refine (hmoves ⟨.ofNat 4, .thing .rock, ⟨0, 2⟩, .right⟩ (by decide)).mpr (.inr ⟨by decide, 2,
      by decide, ⟨.ofNat 1, .thing .baba, ⟨0, 0⟩, .down⟩, by decide, by decide,
      ⟨⟨.ofNat 1, ⟨0, 0⟩, .committed⟩, by decide, rfl, rfl⟩, ?_⟩)
    intro j hj hj2
    obtain rfl : j = 1 := by omega
    exact ⟨⟨.ofNat 2, .thing .rock, ⟨0, 1⟩, .up⟩, by decide, by decide⟩

/-- **A piece that has moved meets nothing that should have stopped it.** No piece of the cell
it came to was blocking, and the pieces that were there and stayed were not pushable. So after
the move it shares its cell with a blocking piece only if both came from the same cell, and
never with a pushable piece that was there before. -/
theorem resolveMove_arrivals_clear {b : Board} (hb : b.validate = .ok ()) (t : CapabilityTable)
    (d : Direction) (limit : Option Nat) :
    ∃ b' report, b.resolveMove t d limit = .ok (b', report) ∧
      ∀ p id, b.Holds p id → b'.Holds (p.step d) id →
        (∀ y ∈ b.stackAt (p.step d), (t.ofPiece y).blocking = false ∧
          (b'.Holds (p.step d) y.id → (t.ofPiece y).pushable = false)) ∧
        ∀ y ∈ b'.stackAt (p.step d),
          ((t.ofPiece y).blocking = true → b.Holds p y.id) ∧
          ((t.ofPiece y).pushable = true → ¬ b.Holds (p.step d) y.id) := by
  rw [validate_eq_ok_iff] at hb
  refine ⟨_, _, hb.resolveMove_eq t d limit, ?_⟩
  rintro p id ⟨x, hx, rfl⟩ harrived
  have hmoves := hb.moving_of_holds_step hx harrived
  constructor
  · intro y hy
    exact ⟨hb.blocking_eq_false_of_arrival hx hmoves hy, fun hholds =>
      hb.pushable_eq_false_of_arrival hx hmoves hy (hb.not_moving_of_holds hy hholds)⟩
  · intro y hy
    obtain ⟨-, ⟨hy, hstill⟩ | ⟨z, hz, -, rfl⟩⟩ := (mem_stackAt_shift hb.sized).mp hy
    -- the piece has been there before
    · constructor
      · intro hblocking
        rw [hb.blocking_eq_false_of_arrival hx hmoves hy] at hblocking
        cases hblocking
      · intro hpushable
        rw [hb.pushable_eq_false_of_arrival hx hmoves hy hstill] at hpushable
        cases hpushable
    -- the piece has come from the cell that the mover has left
    · rw [Position.step_reverse_step] at hz
      refine ⟨fun _ => ⟨z, hz, rfl⟩, ?_⟩
      rintro - ⟨w, hw, hid⟩
      exact Position.step_ne_self p d (hb.cell_eq_of_id_eq hw hz hid)

/-- The farther rock of the upper row comes to the flag, which neither blocks nor can be
pushed. -/
theorem arrivals_pushingRows :
    pushingRows.validate = .ok () ∧
      ∃ b' report, pushingRows.resolveMove pushingTable .right none = .ok (b', report) ∧
        pushingRows.Holds ⟨0, 2⟩ (.ofNat 4) ∧ b'.Holds ⟨0, 3⟩ (.ofNat 4) ∧
        (pushingTable.ofKind (.thing .flag)).blocking = false ∧
        (pushingTable.ofKind (.thing .flag)).pushable = false := by
  have hvalid : pushingRows.validate = .ok () := by decide
  obtain ⟨b', report, hok, hclear⟩ := resolveMove_arrivals_clear hvalid pushingTable .right none
  have hshift := (validate_eq_ok_iff.mp hvalid).resolveMove_eq pushingTable .right none
  have hboard : b' = pushingRows.shift .right
      (pushingRows.plan pushingTable .right pushingRows.defaultLimit).moves :=
    congrArg Prod.fst (Except.ok.inj (hok.symm.trans hshift))
  have hbefore : pushingRows.Holds ⟨0, 2⟩ (.ofNat 4) := by unfold Holds; decide
  have hafter : b'.Holds ⟨0, 3⟩ (.ofNat 4) := by rw [hboard]; unfold Holds; decide
  have hflag : b'.Holds ⟨0, 3⟩ (.ofNat 5) := by rw [hboard]; unfold Holds; decide
  have hmet := (hclear ⟨0, 2⟩ (.ofNat 4) hbefore hafter).1
    ⟨.ofNat 5, .thing .flag, ⟨0, 3⟩, .right⟩ (by decide)
  exact ⟨hvalid, b', report, hok, hbefore, hafter, hmet.1, hmet.2 hflag⟩

end Board

end WordTiles
