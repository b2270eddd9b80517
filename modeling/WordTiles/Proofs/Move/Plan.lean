import WordTiles.Proofs.Move.Chain
import WordTiles.Proofs.Move.Shift

/-!
# Which pieces a plan moves

A plan is put together from the chains of all controllable pieces, which overlap and are
judged one by one. Said of the board alone, a piece moves when it is controllable and can step,
or when it is pushable and some controllable piece behind it can step and has only loaded cells
between itself and the piece (`Board.Moves`, `Board.Valid.moves_plan_iff`).

Two facts make the judgements agree. Every piece that moves can step from where it stands, on
its own account (`Board.Valid.verdict_of_moves`), so a controllable piece that is refused is not
carried along either. And what stands in its way and can be pushed moves too
(`Board.Valid.moves_of_pushable`).
-/

set_option autoImplicit false

namespace WordTiles

variable {b : Board} {t : CapabilityTable} {d : Direction} {p : Position} {limit : Nat}
  {x y : Piece} {m : Mover}

/-! ## Movers without repetition -/

namespace Mover

theorem mem_of_mem_distinct {ms : List Mover} (h : m ∈ distinct ms) : m ∈ ms := by
  induction ms with
  | nil => exact h
  | cons m' rest ih =>
      rw [distinct_cons, List.mem_cons, List.mem_filter] at h
      rcases h with rfl | ⟨h, -⟩
      · exact List.mem_cons_self
      · exact List.mem_cons_of_mem m' (ih h)

/-- No identity is lost. -/
theorem exists_mem_distinct {ms : List Mover} (h : m ∈ ms) :
    ∃ m' ∈ distinct ms, m'.piece = m.piece := by
  induction ms with
  | nil => exact absurd h List.not_mem_nil
  | cons first rest ih =>
      rw [distinct_cons]
      by_cases hfirst : m.piece = first.piece
      · exact ⟨first, List.mem_cons_self, hfirst.symm⟩
      · rcases List.mem_cons.mp h with rfl | hrest
        · exact absurd rfl hfirst
        · obtain ⟨m', hm', hpiece⟩ := ih hrest
          refine ⟨m', List.mem_cons_of_mem first (List.mem_filter.mpr ⟨hm', ?_⟩), hpiece⟩
          rw [hpiece]
          exact decide_eq_true hfirst

/-- No identity is left twice. -/
theorem nodup_distinct (ms : List Mover) : ((distinct ms).map (·.piece)).Nodup := by
  induction ms with
  | nil => exact List.nodup_nil
  | cons first rest ih =>
      rw [distinct_cons, List.map_cons, List.nodup_cons]
      constructor
      · intro h
        obtain ⟨m, hm, hpiece⟩ := List.mem_map.mp h
        exact of_decide_eq_true (List.mem_filter.mp hm).2 hpiece
      · exact (List.filter_sublist.map _).nodup ih

end Mover

namespace Board

/-! ## Attempts -/

theorem mem_controlled_iff (hb : b.Sized) {c : Position × Pushed} :
    c ∈ b.controlled t ↔ (b.stackAt c.1)[c.2.layer]? = some c.2.piece ∧
      (t.ofPiece c.2.piece).controllable = true := by
  obtain ⟨p, x, i⟩ := c
  simp only [controlled, List.mem_flatMap, List.mem_map, List.mem_filter, Prod.exists,
    Prod.mk.injEq, Pushed.mk.injEq, List.mk_mem_zipIdx_iff_getElem?]
  constructor
  · rintro ⟨p', -, x', i', h, rfl, rfl, rfl⟩
    exact h
  · intro h
    have hp := inBounds_of_mem (List.mem_of_getElem? h.1)
    exact ⟨p, (mem_positions_iff hb).mpr hp, x, i, h, rfl, rfl, rfl⟩

/-- The chains of controllable pieces go over the cells that lie ahead on integers. -/
theorem Valid.pushChain_eq_of_mem (hb : b.Valid) {c : Position × Pushed} (hc : c ∈ b.controlled t)
    (limit : Nat) : b.pushChain t d limit c.1 = b.chainAlong t (·.step d) limit c.1 :=
  hb.pushChain_eq
    (inBounds_of_mem (List.mem_of_getElem? ((mem_controlled_iff hb.sized).mp hc).1))

/-- All limits from the greater dimension of the board on give one plan. -/
theorem Valid.plan_of_le (hb : b.Valid) (h : max b.rows b.cols ≤ limit) :
    b.plan t d limit = b.plan t d (max b.rows b.cols) := by
  have hchain : ∀ c ∈ b.controlled t,
      b.pushChain t d limit c.1 = b.pushChain t d (max b.rows b.cols) c.1 := by
    intro c hc
    have hlayer := ((mem_controlled_iff hb.sized).mp hc).1
    rw [hb.pushChain_eq_of_mem hc, hb.pushChain_eq_of_mem hc]
    exact chainAlong_of_le (inBounds_of_mem (List.mem_of_getElem? hlayer)) h
  have hattempts : (b.controlled t).map (b.attempt t d limit) =
      (b.controlled t).map (b.attempt t d (max b.rows b.cols)) := by
    apply List.map_congr_left
    intro c hc
    rw [attempt, hchain c hc, attempt]
  have hmovers : (b.controlled t).flatMap (b.moversOf t d limit) =
      (b.controlled t).flatMap (b.moversOf t d (max b.rows b.cols)) := by
    apply List.flatMap_congr
    intro c hc
    rw [moversOf, hchain c hc, moversOf]
  rw [plan, hattempts, hmovers, plan]

/-- The controllable pieces are tried in reading order, each once. -/
theorem map_piece_controlled (hb : b.Sized) (t : CapabilityTable) :
    (b.controlled t).map (·.2.piece) = b.pieces.filter fun x => (t.ofPiece x).controllable := by
  rw [controlled, pieces_eq_flatMap hb, List.map_flatMap, List.filter_flatMap]
  congr 1
  funext p
  conv_rhs => rw [← List.zipIdx_map_fst 0 (b.stackAt p), List.filter_map]
  rw [List.map_map]
  rfl

theorem attempt_piece (c : Position × Pushed) :
    (b.attempt t d limit c).piece = c.2.piece.id := by
  rw [attempt]
  split <;> rfl

theorem attempt_position (c : Position × Pushed) : (b.attempt t d limit c).position = c.1 := by
  rw [attempt]
  split <;> rfl

/-! ## How attempts end -/

/-- How an attempt to step from a position ends, told on integers. -/
def verdict (b : Board) (t : CapabilityTable) (d : Direction) (limit : Nat) (p : Position) :
    AttemptStatus :=
  match b.chainAlong t (·.step d) limit p with
  | .ok _ => .committed
  | .error reason => .refused reason

/-- The verdict looks at the next cell, and passes over a loaded cell to the one behind it. -/
theorem verdict_eq (b : Board) (t : CapabilityTable) (d : Direction) (limit : Nat)
    (p : Position) :
    b.verdict t d limit p =
      if ¬ b.InBounds (p.step d) then .refused .edge
      else if t.blocks (b.stackAt (p.step d)) then .refused .blocked
      else if (t.pushables (b.stackAt (p.step d))).isEmpty then .committed
      else
        match limit with
        | 0 => .refused .tooLong
        | limit + 1 => b.verdict t d limit (p.step d) := by
  rw [verdict, chainAlong.eq_def]
  dsimp only
  split_ifs
  · rfl
  · rfl
  -- the next cell is loaded
  · cases limit with
    | zero => rfl
    | succ limit =>
        dsimp only
        rw [verdict]
        cases b.chainAlong t (·.step d) limit (p.step d) <;> rfl
  · rfl

theorem verdict_eq_committed_iff :
    b.verdict t d limit p = .committed ↔
      ∃ pushed, b.chainAlong t (·.step d) limit p = .ok pushed := by
  rw [verdict]
  cases b.chainAlong t (·.step d) limit p <;> simp

theorem Valid.attempt_status_eq (hb : b.Valid) {c : Position × Pushed} (hc : c ∈ b.controlled t) :
    (b.attempt t d limit c).status = b.verdict t d limit c.1 := by
  rw [attempt, hb.pushChain_eq_of_mem hc, verdict]
  cases b.chainAlong t (·.step d) limit c.1 <;> rfl

/-- Every controllable piece makes one attempt, in reading order, which ends as its cell
decides. -/
theorem Valid.attempts_plan_eq (hb : b.Valid) (t : CapabilityTable) (d : Direction)
    (limit : Nat) :
    (b.plan t d limit).attempts =
      (b.pieces.filter fun x => (t.ofPiece x).controllable).map fun x =>
        ⟨x.id, x.position, b.verdict t d limit x.position⟩ := by
  rw [← map_piece_controlled hb.sized, List.map_map, plan]
  apply List.map_congr_left
  intro c hc
  have hlayer := ((mem_controlled_iff hb.sized).mp hc).1
  have hposition := hb.position_of_mem (List.mem_of_getElem? hlayer)
  rw [Function.comp_apply, hposition, verdict, attempt, hb.pushChain_eq_of_mem hc]
  cases b.chainAlong t (·.step d) limit c.1 <;> rfl

/-! ## Which pieces move -/

/-- A piece that moves: it is controllable and can step, or it is pushable and some
controllable piece behind it can step and has loaded cells up to it. -/
def Moves (b : Board) (t : CapabilityTable) (d : Direction) (limit : Nat) (x : Piece) : Prop :=
  ((t.ofPiece x).controllable = true ∧ b.verdict t d limit x.position = .committed) ∨
    ((t.ofPiece x).pushable = true ∧ ∃ k, 0 < k ∧
      ∃ c ∈ b.stackAt (x.position.advance d.reverse k), (t.ofPiece c).controllable = true ∧
        b.verdict t d limit (x.position.advance d.reverse k) = .committed ∧
        ∀ j, 0 < j → j < k → t.Loaded (b.stackAt (x.position.advance d.reverse j)))

theorem mem_movers_iff {ms : List (Position × Pushed)} :
    m ∈ ms.flatMap (b.moversOf t d limit) ↔
      ∃ c ∈ ms, ∃ pushed, b.pushChain t d limit c.1 = .ok pushed ∧
        ∃ e, (e = c.2 ∨ e ∈ pushed) ∧ Mover.ofPushed e = m := by
  rw [List.mem_flatMap]
  refine exists_congr fun c => and_congr_right fun _ => ?_
  rw [moversOf]
  cases b.pushChain t d limit c.1 with
  | error e => simp
  | ok pushed =>
      simp only [List.mem_map, List.mem_append, List.mem_reverse, List.mem_singleton,
        Except.ok.injEq, exists_eq_left']
      exact exists_congr fun e => and_congr_left fun _ => or_comm

namespace Valid

/-- What a chain takes along is the piece that starts it and pieces that move with it. -/
theorem moves_of_mem (hb : b.Valid) {c : Position × Pushed} {pushed : List Pushed} {e : Pushed}
    (hc : c ∈ b.controlled t) (hpushed : b.pushChain t d limit c.1 = .ok pushed)
    (he : e = c.2 ∨ e ∈ pushed) :
    (b.stackAt e.piece.position)[e.layer]? = some e.piece ∧ b.Moves t d limit e.piece := by
  obtain ⟨hlayer, hcontrol⟩ := (mem_controlled_iff hb.sized).mp hc
  rw [hb.pushChain_eq_of_mem hc] at hpushed
  have hstep := verdict_eq_committed_iff.mpr ⟨pushed, hpushed⟩
  rcases he with rfl | he
  · have hposition := hb.position_of_mem (List.mem_of_getElem? hlayer)
    rw [hposition]
    exact ⟨hlayer, .inl ⟨hcontrol, by rw [hposition]; exact hstep⟩⟩
  -- counted from the pushed piece, the cells of the chain come in the other order
  · obtain ⟨k, hk, hmem, hbetween⟩ := (mem_chainAlong_iff hpushed).mp he
    obtain ⟨helayer, hpush⟩ := CapabilityTable.mem_pushables_iff.mp hmem
    have hposition := hb.position_of_mem (List.mem_of_getElem? helayer)
    have hback : e.piece.position.advance d.reverse k = c.1 := by
      rw [hposition, Position.advance_advance_reverse _ _ (Nat.le_refl k), Nat.sub_self,
        Position.advance_zero]
    refine ⟨by rw [hposition]; exact helayer, .inr ⟨hpush, k, hk, c.2.piece, ?_, hcontrol, ?_, ?_⟩⟩
    · rw [hback]
      exact List.mem_of_getElem? hlayer
    · rw [hback]
      exact hstep
    · intro j hj hjk
      rw [hposition, Position.advance_advance_reverse _ _ (by omega)]
      exact hbetween (k - j) (by omega) (by omega)

/-- Every mover of a plan stands at its place and is a piece that moves. -/
theorem of_mem_movers (hb : b.Valid) (hm : m ∈ (b.plan t d limit).movers) :
    ∃ x, (b.stackAt x.position)[m.layer]? = some x ∧ x.id = m.piece ∧ x.kind = m.kind ∧
      x.position = m.position ∧ b.Moves t d limit x := by
  obtain ⟨c, hc, pushed, hpushed, e, he, rfl⟩ :=
    mem_movers_iff.mp (Mover.mem_of_mem_distinct hm)
  obtain ⟨hlayer, hmoves⟩ := hb.moves_of_mem hc hpushed he
  exact ⟨e.piece, hlayer, rfl, rfl, rfl, hmoves⟩

/-- The chain of some controllable piece takes along every piece that moves. -/
theorem exists_mover_of_moves (hb : b.Valid) (hx : x ∈ b.pieces) (h : b.Moves t d limit x) :
    ∃ m ∈ (b.controlled t).flatMap (b.moversOf t d limit), m.piece = x.id := by
  have hstack := hb.mem_stackAt_of_mem_pieces hx
  obtain ⟨i, hi⟩ := List.mem_iff_getElem?.mp hstack
  rcases h with ⟨hcontrol, hstep⟩ | ⟨hpush, k, hk, c, hc, hcontrol, hstep, hbetween⟩
  · obtain ⟨pushed, hpushed⟩ := verdict_eq_committed_iff.mp hstep
    have hctrl : (x.position, (⟨x, i⟩ : Pushed)) ∈ b.controlled t :=
      (mem_controlled_iff hb.sized).mpr ⟨hi, hcontrol⟩
    rw [← hb.pushChain_eq_of_mem hctrl] at hpushed
    exact ⟨_, mem_movers_iff.mpr ⟨_, hctrl, pushed, hpushed, ⟨x, i⟩, .inl rfl, rfl⟩, rfl⟩
  · obtain ⟨pushed, hpushed⟩ := verdict_eq_committed_iff.mp hstep
    obtain ⟨n, hn⟩ := List.mem_iff_getElem?.mp hc
    have hctrl : (x.position.advance d.reverse k, (⟨c, n⟩ : Pushed)) ∈ b.controlled t :=
      (mem_controlled_iff hb.sized).mpr ⟨hn, hcontrol⟩
    have hmem : (⟨x, i⟩ : Pushed) ∈ pushed := by
      refine (mem_chainAlong_iff hpushed).mpr ⟨k, hk, ?_, ?_⟩
      · rw [Position.advance_reverse_advance _ _ (Nat.le_refl k), Nat.sub_self,
          Position.advance_zero]
        exact CapabilityTable.mem_pushables_iff.mpr ⟨hi, hpush⟩
      · intro j hj hjk
        rw [Position.advance_reverse_advance _ _ (by omega)]
        exact hbetween (k - j) (by omega) (by omega)
    rw [← hb.pushChain_eq_of_mem hctrl] at hpushed
    exact ⟨_, mem_movers_iff.mpr ⟨_, hctrl, pushed, hpushed, ⟨x, i⟩, .inr hmem, rfl⟩, rfl⟩

/-- The plan moves the pieces that move. -/
theorem moves_plan_iff (hb : b.Valid) (hx : x ∈ b.pieces) :
    (b.plan t d limit).moves x.id = true ↔ b.Moves t d limit x := by
  rw [MovePlan.moves, List.any_eq_true]
  constructor
  -- the mover names a piece that moves, and by its identity that is this one
  · rintro ⟨m, hm, hid⟩
    obtain ⟨y, hlayer, hyid, -, -, hmoves⟩ := hb.of_mem_movers hm
    have hyx : y = x := hb.eq_of_id_eq (List.mem_of_getElem? hlayer)
      (hb.mem_stackAt_of_mem_pieces hx) (hyid.trans (eq_of_beq hid))
    rw [← hyx]
    exact hmoves
  · intro h
    obtain ⟨m, hm, hid⟩ := hb.exists_mover_of_moves hx h
    obtain ⟨m', hm', hid'⟩ := Mover.exists_mem_distinct hm
    exact ⟨m', hm', by rw [hid', hid]; exact beq_self_eq_true x.id⟩

/-! ## The judgements agree -/

/-- A piece that moves can step on its own account: the chain that takes it along goes on from
its cell. -/
theorem verdict_of_moves (hb : b.Valid) (hx : x ∈ b.pieces) (h : b.Moves t d limit x) :
    b.verdict t d limit x.position = .committed := by
  rcases h with ⟨-, hstep⟩ | ⟨hpush, k, hk, c, -, -, hstep, hbetween⟩
  · exact hstep
  -- the piece stands `k` cells before the piece that pushes it, which can step
  · obtain ⟨pushed, hpushed⟩ := verdict_eq_committed_iff.mp hstep
    have hfront : ∀ j, j ≤ k → (x.position.advance d.reverse k).advance d j =
        x.position.advance d.reverse (k - j) := fun j hj =>
      Position.advance_reverse_advance x.position d hj
    obtain ⟨rest, hrest⟩ := chainAlong_advance (k := k) hpushed (by
      intro j hj hjk
      rw [hfront j hjk]
      rcases Nat.eq_or_lt_of_le hjk with rfl | hlt
      · rw [Nat.sub_self, Position.advance_zero]
        exact ⟨x, hb.mem_stackAt_of_mem_pieces hx, hpush⟩
      · exact hbetween (k - j) (by omega) (by omega))
    rw [hfront k (Nat.le_refl k), Nat.sub_self, Position.advance_zero] at hrest
    exact verdict_eq_committed_iff.mpr ⟨rest, hrest⟩

/-- A piece that moves comes to a cell of the board without a blocking piece. -/
theorem clear_of_moves (hb : b.Valid) (hx : x ∈ b.pieces) (h : b.Moves t d limit x) :
    b.InBounds (x.position.step d) ∧
      ∀ y ∈ b.stackAt (x.position.step d), (t.ofPiece y).blocking = false := by
  obtain ⟨pushed, hpushed⟩ := verdict_eq_committed_iff.mp (hb.verdict_of_moves hx h)
  obtain ⟨hin, hblocks, -⟩ := chainAlong_cases hpushed
  exact ⟨hin, CapabilityTable.blocks_eq_false_iff.mp hblocks⟩

/-- What can be pushed where a moving piece comes to moves too. -/
theorem moves_of_pushable (hb : b.Valid) (hx : x ∈ b.pieces) (h : b.Moves t d limit x)
    (hy : y ∈ b.stackAt (x.position.step d)) (hpush : (t.ofPiece y).pushable = true) :
    b.Moves t d limit y := by
  have hposition : y.position = x.position.step d := hb.position_of_mem hy
  have hback : ∀ j, y.position.advance d.reverse (j + 1) = x.position.advance d.reverse j := by
    intro j
    rw [hposition, ← Position.advance_step, Position.step_reverse_step]
  rcases h with ⟨hcontrol, hstep⟩ | ⟨hxpush, k, hk, c, hc, hcontrol, hstep, hbetween⟩
  · refine .inr ⟨hpush, 1, Nat.one_pos, x, ?_, hcontrol, ?_, fun j _ _ => by omega⟩
    · rw [hback, Position.advance_zero]
      exact hb.mem_stackAt_of_mem_pieces hx
    · rw [hback, Position.advance_zero]
      exact hstep
  -- the cell of the piece is one more loaded cell on the way
  · refine .inr ⟨hpush, k + 1, by omega, c, by rw [hback]; exact hc, hcontrol,
      by rw [hback]; exact hstep, ?_⟩
    intro j hj hjk
    obtain ⟨i, rfl⟩ : ∃ i, j = i + 1 := ⟨j - 1, by omega⟩
    rw [hback]
    rcases Nat.eq_zero_or_pos i with rfl | hi
    · rw [Position.advance_zero]
      exact ⟨x, hb.mem_stackAt_of_mem_pieces hx, hxpush⟩
    · exact hbetween i hi (by omega)

end Valid

end Board

end WordTiles
