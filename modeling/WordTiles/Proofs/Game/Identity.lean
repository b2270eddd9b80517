import WordTiles.Proofs.Game.Run

/-!
# The pieces of a run

No tick makes a piece. What stands on the board after a tick stood there before it, as the same
tile or as a thing still, in the same cell or one step on in the direction of the input
(`Piece.Follows`). And every piece that a tick reports on stands on the board before it
(`Game.has_of_names`). So a piece that is gone is never seen or heard of again, and the one
event that tells how it was destroyed is in the tick in which it went.

The main statement is `Game.run_conserves_pieces`.
-/

set_option autoImplicit false

namespace WordTiles

variable {b : Board} {g : Game} {x y : Piece} {id : PieceId} {input : Input}

/-! ## Pieces over a tick -/

/-- What a tick can make of a piece: a thing stays a thing and a tile the same tile, and it keeps
its cell and the way it faces, or takes one step in the direction of the input and faces it. -/
structure Piece.Follows (input : Input) (x y : Piece) : Prop where
  id_eq : y.id = x.id
  tile_iff : ∀ w, y.kind = .tile w ↔ x.kind = .tile w
  step : (y.position = x.position ∧ y.facing = x.facing) ∨
    ∃ d, input = .move d ∧ y.position = x.position.step d ∧ y.facing = d

/-- A board comes from another one by a tick: no identity occurs twice on it, and each of its
pieces has come from a piece of the other. -/
structure Board.Follows (input : Input) (b b' : Board) : Prop where
  nodup_ids : (b'.pieces.map (·.id)).Nodup
  comes_from : ∀ y ∈ b'.pieces, ∃ x ∈ b.pieces, x.Follows input y

def Board.Has (b : Board) (id : PieceId) : Prop := ∃ x ∈ b.pieces, x.id = id

theorem Piece.Follows.refl (input : Input) (x : Piece) : x.Follows input x :=
  ⟨rfl, fun _ => Iff.rfl, .inl ⟨rfl, rfl⟩⟩

theorem Piece.tile_recast_iff (rs : RuleSet) (x : Piece) (w : String) :
    (x.recast rs).kind = .tile w ↔ x.kind = .tile w := by
  obtain ⟨id, kind, position, facing⟩ := x
  cases kind <;> simp [recast, Kind.recast]

namespace Board

/-- After a shift a piece is one that stayed, or one that has come a step on. -/
theorem Valid.exists_of_mem_shift (hb : b.Valid) {d : Direction} {moving : PieceId → Bool}
    (hy : y ∈ (b.shift d moving).pieces) :
    y ∈ b.pieces ∨ ∃ x ∈ b.pieces, y = x.arrive (x.position.step d) d := by
  obtain ⟨q, hq⟩ := (mem_pieces_iff (hb.shift d moving).sized).mp hy
  obtain ⟨-, ⟨hstay, -⟩ | ⟨x, hx, -, rfl⟩⟩ := (mem_stackAt_shift hb.sized).mp hq
  · exact .inl ((mem_pieces_iff hb.sized).mpr ⟨q, hstay⟩)
  · refine .inr ⟨x, (mem_pieces_iff hb.sized).mpr ⟨_, hx⟩, ?_⟩
    rw [hb.position_of_mem hx, Position.step_step_reverse]

theorem Valid.has_shift_plan (hb : b.Valid) (t : CapabilityTable) (d : Direction) (limit : Nat)
    (h : b.Has id) : (b.shift d (b.plan t d limit).moves).Has id := by
  obtain ⟨x, hx, rfl⟩ := h
  obtain ⟨y, hy, -⟩ := hb.find?_shift (d := d) (b.plan t d limit).moves hx fun hmoves =>
    (hb.clear_of_moves hx ((hb.moves_plan_iff hx).mp hmoves)).1
  exact ⟨y, mem_pieces_of_find? hy, id_eq_of_find? hy⟩

end Board

namespace Game

theorem mem_changed_iff (hb : g.board.Valid) :
    y ∈ g.changed.pieces ↔ ∃ x ∈ g.board.pieces, x.recast g.board.read.rules = y :=
  Board.mem_pieces_mapPieces hb.sized

theorem has_changed_iff (hb : g.board.Valid) : g.changed.Has id ↔ g.board.Has id := by
  constructor
  · rintro ⟨y, hy, rfl⟩
    obtain ⟨x, hx, rfl⟩ := (mem_changed_iff hb).mp hy
    exact ⟨x, hx, rfl⟩
  · rintro ⟨x, hx, rfl⟩
    exact ⟨_, (mem_changed_iff hb).mpr ⟨x, hx, rfl⟩, rfl⟩

theorem exists_of_mem_shifted (hb : g.board.Valid) (hy : y ∈ (g.shifted input).pieces) :
    ∃ x ∈ g.board.pieces, x.Follows input y := by
  have hrecast : ∀ z ∈ g.changed.pieces, ∃ x ∈ g.board.pieces,
      x.id = z.id ∧ (∀ w, z.kind = .tile w ↔ x.kind = .tile w) ∧ z.position = x.position ∧
        z.facing = x.facing := by
    intro z hz
    obtain ⟨x, hx, rfl⟩ := (mem_changed_iff hb).mp hz
    exact ⟨x, hx, rfl, x.tile_recast_iff g.board.read.rules, rfl, rfl⟩
  cases input with
  | move d =>
      rcases (valid_changed hb).exists_of_mem_shift hy with hstay | ⟨z, hz, rfl⟩
      · obtain ⟨x, hx, hid, htile, hposition, hfacing⟩ := hrecast y hstay
        exact ⟨x, hx, hid.symm, htile, .inl ⟨hposition, hfacing⟩⟩
      · obtain ⟨x, hx, hid, htile, hposition, -⟩ := hrecast z hz
        refine ⟨x, hx, hid.symm, htile, .inr ⟨d, rfl, ?_, rfl⟩⟩
        rw [← hposition]
        rfl
  | wait =>
      obtain ⟨x, hx, hid, htile, hposition, hfacing⟩ := hrecast y hy
      exact ⟨x, hx, hid.symm, htile, .inl ⟨hposition, hfacing⟩⟩

theorem has_shifted_iff (hb : g.board.Valid) (input : Input) :
    (g.shifted input).Has id ↔ g.board.Has id := by
  constructor
  · rintro ⟨y, hy, rfl⟩
    obtain ⟨x, hx, hfollows⟩ := exists_of_mem_shifted hb hy
    exact ⟨x, hx, hfollows.id_eq.symm⟩
  · intro h
    have hchanged := (has_changed_iff hb).mpr h
    cases input with
    | move d => exact (valid_changed hb).has_shift_plan g.tickTable d _ hchanged
    | wait => exact hchanged

theorem mem_survived_iff (hb : g.board.Valid) :
    y ∈ (g.survived input).pieces ↔
      y ∈ (g.shifted input).pieces ∧ y.id ∉ (g.destroyed input).map (·.piece) := by
  rw [survived, Board.mem_pieces_filterPieces (valid_shifted hb input).sized]
  simp

/-- The hazards of a tick take away what they destroy and nothing else. -/
theorem has_survived_iff (hb : g.board.Valid) :
    (g.survived input).Has id ↔ g.board.Has id ∧ id ∉ (g.destroyed input).map (·.piece) := by
  rw [← has_shifted_iff hb input]
  constructor
  · rintro ⟨y, hy, rfl⟩
    obtain ⟨hshifted, hsafe⟩ := (mem_survived_iff hb).mp hy
    exact ⟨⟨y, hshifted, rfl⟩, hsafe⟩
  · rintro ⟨⟨y, hy, rfl⟩, hsafe⟩
    exact ⟨y, (mem_survived_iff hb).mpr ⟨hy, hsafe⟩, rfl⟩

theorem follows_survived (hb : g.board.Valid) (input : Input) :
    g.board.Follows input (g.survived input) where
  nodup_ids := (valid_survived hb input).ids_nodup
  comes_from _ hy := exists_of_mem_shifted hb ((mem_survived_iff hb).mp hy).1

end Game

/-! ## What a tick reports on -/

namespace Event

def piece? : Event → Option PieceId
  | .transformed piece .. => some piece
  | .moved piece .. => some piece
  | .moveRejected piece .. => some piece
  | .destroyed piece .. => some piece
  | .ruleRejected .. => none
  | .outcomeReached _ => none

def destroys (id : PieceId) : Event → Bool
  | .destroyed piece .. => piece == id
  | _ => false

theorem piece?_of_destroys {e : Event} (h : e.destroys id = true) : e.piece? = some id := by
  cases e with
  | destroyed piece kind position cause => rw [piece?, eq_of_beq h]
  | _ => cases h

end Event

/-- A report names a piece in an attempt or an event. -/
def TickReport.Names (report : TickReport) (id : PieceId) : Prop :=
  (∃ a ∈ report.attempts, a.piece = id) ∨ ∃ e ∈ report.events, e.piece? = some id

namespace Game

theorem has_of_mem_attempts (hb : g.board.Valid) {a : Attempt}
    (ha : a ∈ (g.movePlan input).attempts) : g.board.Has a.piece := by
  cases input with
  | move d =>
      obtain ⟨x, hx, -, hid, -⟩ := (valid_changed hb).of_mem_attempts ha
      exact (has_changed_iff hb).mp ⟨x, hx, hid⟩
  | wait => cases ha

theorem has_of_mem_steps (hb : g.board.Valid) {s : Step} (hs : s ∈ g.steps input) :
    g.board.Has s.piece := by
  cases input with
  | move d =>
      obtain ⟨m, hm, rfl⟩ := List.mem_map.mp hs
      obtain ⟨⟨x, hx, hid, -⟩, -⟩ :=
        (valid_changed hb).on_of_mem_movers ((Mover.inOrder_perm d _).mem_iff.mp hm)
      have hmem := (Board.mem_pieces_iff (valid_changed hb).sized).mpr
        ⟨_, List.mem_of_getElem? hx⟩
      exact (has_changed_iff hb).mp ⟨x, hmem, hid⟩
  | wait => cases hs

theorem has_of_mem_destroyed (hb : g.board.Valid) {o : Destruction}
    (ho : o ∈ g.destroyed input) : g.board.Has o.piece := by
  rw [destroyed] at ho
  split at ho
  · obtain ⟨x, hx, hid, -⟩ := (valid_shifted hb input).exists_of_mem_destructions ho
    exact (has_shifted_iff hb input).mp ⟨x, hx, hid⟩
  · cases ho

/-- The events of a tick name pieces that stand on the board before it. -/
theorem has_of_mem_tickEvents (hb : g.board.Valid) {e : Event} (he : e ∈ g.tickEvents input)
    (hpiece : e.piece? = some id) : g.board.Has id := by
  simp only [tickEvents, List.mem_append, List.mem_map, List.mem_filterMap] at he
  obtain ((((⟨r, -, rfl⟩ | ⟨c, hc, rfl⟩) | ⟨s, hs, rfl⟩) | ⟨a, ha, hevent⟩) | ⟨o, ho, rfl⟩) |
    houtcome := he
  · cases hpiece
  · cases hpiece
    obtain ⟨x, hx, hof⟩ := List.mem_filterMap.mp hc
    exact ⟨x, hx, (Transformation.of_ofPiece?_eq_some hof).1.symm⟩
  · cases hpiece
    exact has_of_mem_steps hb hs
  · obtain ⟨reason, rfl⟩ := Event.eq_of_ofAttempt? hevent
    cases hpiece
    exact has_of_mem_attempts hb ha
  · cases hpiece
    exact has_of_mem_destroyed hb ho
  · rw [Event.eq_of_mem_ofOutcome? houtcome] at hpiece
    cases hpiece

theorem has_of_names (hb : g.board.Valid) (h : (g.playReport input).Names id) :
    g.board.Has id := by
  obtain ⟨a, ha, rfl⟩ | ⟨e, he, hpiece⟩ := h
  · exact has_of_mem_attempts hb ha
  · rw [playReport] at he
    dsimp only at he
    split at he
    · exact has_of_mem_tickEvents hb he hpiece
    · cases he

/-! ## What a tick destroys -/

theorem nodup_destroyed (hb : g.board.Valid) (input : Input) :
    ((g.destroyed input).map (·.piece)).Nodup := by
  rw [destroyed]
  split
  · exact (valid_shifted hb input).nodup_destructions g.tickTable
  · exact List.nodup_nil

/-- The only events of a tick that tell of a destruction are those of its hazards. -/
theorem countP_destroys_tickEvents (g : Game) (input : Input) (id : PieceId) :
    (g.tickEvents input).countP (Event.destroys id) =
      ((g.destroyed input).map (·.piece)).count id := by
  have hrejected : (g.board.read.rejected.map Event.ofRejectedRun).countP
      (Event.destroys id) = 0 := by
    apply Event.countP_eq_zero
    simp [Event.ofRejectedRun, Event.destroys]
  have htransformed : ((g.board.transformations g.board.read.rules).map
      Event.ofTransformation).countP (Event.destroys id) = 0 := by
    apply Event.countP_eq_zero
    simp [Event.ofTransformation, Event.destroys]
  have hmoved : ((g.steps input).map Event.ofStep).countP (Event.destroys id) = 0 := by
    apply Event.countP_eq_zero
    simp [Event.ofStep, Event.destroys]
  have hattempts : ((g.movePlan input).attempts.filterMap Event.ofAttempt?).countP
      (Event.destroys id) = 0 := by
    apply Event.countP_eq_zero
    intro e he
    obtain ⟨a, -, ha⟩ := List.mem_filterMap.mp he
    obtain ⟨reason, rfl⟩ := Event.eq_of_ofAttempt? ha
    rfl
  have houtcome : (Event.ofOutcome? (g.played input).outcome).toList.countP
      (Event.destroys id) = 0 := by
    apply Event.countP_eq_zero
    intro e he
    rw [Event.eq_of_mem_ofOutcome? he]
    rfl
  have hdestroyed : ((g.destroyed input).map Event.ofDestruction).countP (Event.destroys id) =
      ((g.destroyed input).map (·.piece)).count id := by
    rw [List.count, List.countP_map, List.countP_map]
    rfl
  simp only [tickEvents, List.countP_append, hrejected, htransformed, hmoved, hattempts, houtcome,
    hdestroyed, Nat.zero_add, Nat.add_zero]

/-! ## One tick -/

/-- What a tick does to the pieces and says of them. -/
structure Conserves (g : Game) (input : Input) (next : Game) (report : TickReport) : Prop where
  valid : next.board.Valid
  config_eq : next.config = g.config
  follows : g.board.Follows input next.board
  has_of_names : ∀ id, report.Names id → g.board.Has id
  spared : ∀ id, next.board.Has id → report.events.countP (Event.destroys id) = 0
  destroyed : g.config.recordEvents = true → ∀ id, g.board.Has id → ¬ next.board.Has id →
    report.events.countP (Event.destroys id) = 1

theorem conserves_idle (hb : g.board.Valid) (input : Input) :
    g.Conserves input g g.idleReport where
  valid := hb
  config_eq := rfl
  follows := ⟨hb.ids_nodup, fun y hy => ⟨y, hy, .refl input y⟩⟩
  has_of_names := by
    rintro id (⟨a, ha, -⟩ | ⟨e, he, -⟩)
    · cases ha
    · cases he
  spared _ _ := rfl
  destroyed := fun _ _ hhas hgone => absurd hhas hgone

theorem conserves_play (hb : g.board.Valid) (input : Input) :
    g.Conserves input (g.played input) (g.playReport input) where
  valid := valid_survived hb input
  config_eq := rfl
  follows := follows_survived hb input
  has_of_names _ := Game.has_of_names hb
  spared := by
    intro id hhas
    obtain ⟨-, hspared⟩ := (has_survived_iff hb).mp hhas
    rw [playReport]
    dsimp only
    split
    · rw [countP_destroys_tickEvents, List.count_eq_zero]
      exact hspared
    · rfl
  destroyed := by
    intro hrecord id hhas hgone
    have hmem : id ∈ (g.destroyed input).map (·.piece) := by
      by_contra hspared
      exact hgone ((has_survived_iff hb).mpr ⟨hhas, hspared⟩)
    rw [playReport, if_pos hrecord, countP_destroys_tickEvents]
    exact List.count_eq_one_of_mem (nodup_destroyed hb input) hmem

theorem tick_conserves (hb : g.board.Valid) (input : Input) :
    ∃ next report, g.tick input = .ok (next, report) ∧ g.Conserves input next report := by
  rw [tick_eq hb]
  split
  · exact ⟨g, g.idleReport, rfl, conserves_idle hb input⟩
  · exact ⟨g.played input, g.playReport input, rfl, conserves_play hb input⟩

theorem Conserves.not_has {next : Game} {report : TickReport} (h : g.Conserves input next report)
    (hgone : ¬ g.board.Has id) : ¬ next.board.Has id := by
  rintro ⟨y, hy, rfl⟩
  obtain ⟨x, hx, hfollows⟩ := h.follows.comes_from y hy
  exact hgone ⟨x, hx, hfollows.id_eq.symm⟩

/-! ## All ticks -/

/-- A piece that is gone is never seen or heard of again. -/
theorem run_without (hb : g.board.Valid) (hgone : ¬ g.board.Has id) {inputs : List Input}
    {ticks : List (Game × TickReport)} (hrun : g.run inputs = .ok ticks) :
    ∀ tick ∈ ticks, ¬ tick.1.board.Has id ∧ ¬ tick.2.Names id := by
  have hstep : ∀ (g : Game) (input : Input), g.board.Valid ∧ ¬ g.board.Has id →
      ∃ next report, g.tick input = .ok (next, report) ∧
        (next.board.Valid ∧ ¬ next.board.Has id) ∧ ¬ next.board.Has id ∧ ¬ report.Names id := by
    rintro g input ⟨hb, hgone⟩
    obtain ⟨next, report, htick, hconserves⟩ := tick_conserves hb input
    have hnext := hconserves.not_has hgone
    exact ⟨next, report, htick, ⟨hconserves.valid, hnext⟩, hnext,
      fun hnames => hgone (hconserves.has_of_names id hnames)⟩
  obtain ⟨ticks', hrun', -, hticks⟩ := run_invariant
    (Q := fun tick => ¬ tick.1.board.Has id ∧ ¬ tick.2.Names id) hstep ⟨hb, hgone⟩ inputs
  rw [hrun] at hrun'
  cases hrun'
  exact hticks

/-- After a piece is gone, no event tells of its destruction. -/
theorem countP_destroys_run (hb : g.board.Valid) (hgone : ¬ g.board.Has id) {inputs : List Input}
    {ticks : List (Game × TickReport)} (hrun : g.run inputs = .ok ticks) :
    (ticks.flatMap (·.2.events)).countP (Event.destroys id) = 0 := by
  rw [List.countP_eq_zero]
  intro e he hdestroys
  obtain ⟨tick, htick, he⟩ := List.mem_flatMap.mp he
  exact (run_without hb hgone hrun tick htick).2
    (.inr ⟨e, he, Event.piece?_of_destroys hdestroys⟩)

/-- A piece that is on some board of a run was on the first one. -/
theorem has_of_run (hb : g.board.Valid) {inputs : List Input} {ticks : List (Game × TickReport)}
    (hrun : g.run inputs = .ok ticks) {i : Nat} {later : Game}
    (hlater : (g :: ticks.map Prod.fst)[i]? = some later) (h : later.board.Has id) :
    g.board.Has id := by
  by_contra hgone
  rcases List.mem_cons.mp (List.mem_of_getElem? hlater) with rfl | hmem
  · exact hgone h
  · obtain ⟨tick, htick, rfl⟩ := List.mem_map.mp hmem
    exact (run_without hb hgone hrun tick htick).1 h

/-- **Pieces are never made, doubled or brought back.** Whatever was played before and however
many inputs follow, a tick leaves no piece on the board but those that stood there before it,
each once, as the same tile or as a thing still, in its cell or one step on in the direction of
the input and turned that way. A piece that goes in some tick is on no later board and in no
later attempt or event, and if events are recorded then in the whole run exactly one of them
tells that it was destroyed. -/
theorem run_conserves_pieces {g : Game} (hg : Reachable g) (inputs : List Input) :
    ∃ ticks, g.run inputs = .ok ticks ∧ ticks.length = inputs.length ∧
      ∀ i input before tick, inputs[i]? = some input →
        (g :: ticks.map Prod.fst)[i]? = some before → ticks[i]? = some tick →
        before.board.Follows input tick.1.board ∧
          ∀ id, before.board.Has id → ¬ tick.1.board.Has id →
            (∀ later ∈ ticks.drop (i + 1), ¬ later.1.board.Has id ∧ ¬ later.2.Names id) ∧
            (g.config.recordEvents = true →
              (ticks.flatMap (·.2.events)).countP (Event.destroys id) = 1) := by
  induction inputs generalizing g with
  | nil => exact ⟨[], rfl, rfl, fun i input before tick hinput => by simp at hinput⟩
  | cons first rest ih =>
      obtain ⟨next, report, htick, hfirst⟩ := tick_conserves hg.board_valid first
      obtain ⟨ticks, hrun, hlength, hticks⟩ := ih (hg.tick htick)
      have hcons : g.run (first :: rest) = .ok ((next, report) :: ticks) := by
        rw [run_cons htick, hrun]
        rfl
      refine ⟨(next, report) :: ticks, hcons, by simp [hlength], ?_⟩
      intro i input before tick hinput hbefore htick
      cases i with
      -- the piece goes in the first tick, and the rest of the run is without it
      | zero =>
          cases hinput
          cases hbefore
          cases htick
          refine ⟨hfirst.follows, fun id hhas hgone => ⟨?_, fun hrecord => ?_⟩⟩
          · exact run_without hfirst.valid hgone hrun
          · rw [List.flatMap_cons, List.countP_append, hfirst.destroyed hrecord id hhas hgone,
              countP_destroys_run hfirst.valid hgone hrun]
      -- the piece goes later, so the first tick has spared it
      | succ i =>
          simp only [List.getElem?_cons_succ, List.map_cons] at hinput hbefore htick
          obtain ⟨hfollows, hrest⟩ := hticks i input before tick hinput hbefore htick
          refine ⟨hfollows, fun id hhas hgone => ⟨?_, fun hrecord => ?_⟩⟩
          · rw [List.drop_succ_cons]
            exact (hrest id hhas hgone).1
          · have hspared : next.board.Has id := has_of_run hfirst.valid hrun hbefore hhas
            rw [← hfirst.config_eq] at hrecord
            rw [List.flatMap_cons, List.countP_append, hfirst.spared id hspared,
              (hrest id hhas hgone).2 hrecord]

/-- Three rules, and below them a baba before a rock before water. -/
def drowningBoard : Board :=
  ⟨4, 3, #[
    [⟨.ofNat 1, .tile "BABA", ⟨0, 0⟩, .right⟩], [⟨.ofNat 2, .tile "IS", ⟨0, 1⟩, .right⟩],
    [⟨.ofNat 3, .tile "YOU", ⟨0, 2⟩, .right⟩],
    [⟨.ofNat 4, .tile "ROCK", ⟨1, 0⟩, .right⟩], [⟨.ofNat 5, .tile "IS", ⟨1, 1⟩, .right⟩],
    [⟨.ofNat 6, .tile "PUSH", ⟨1, 2⟩, .right⟩],
    [⟨.ofNat 7, .tile "WATER", ⟨2, 0⟩, .right⟩], [⟨.ofNat 8, .tile "IS", ⟨2, 1⟩, .right⟩],
    [⟨.ofNat 9, .tile "SINK", ⟨2, 2⟩, .right⟩],
    [⟨.ofNat 10, .thing .baba, ⟨3, 0⟩, .up⟩], [⟨.ofNat 11, .thing .rock, ⟨3, 1⟩, .left⟩],
    [⟨.ofNat 12, .thing .water, ⟨3, 2⟩, .right⟩]]⟩

/-- The rock is pushed into the water and sinks in the first of three ticks. -/
theorem run_conserves_drowningBoard :
    drowningBoard.validate = .ok () ∧
      ∃ g tick ticks, ofBoard drowningBoard {} = .ok g ∧ g.config.recordEvents = true ∧
        g.run [.move .right, .move .up, .wait] = .ok ticks ∧ ticks[0]? = some tick ∧
        g.board.Has (.ofNat 11) ∧ ¬ tick.1.board.Has (.ofNat 11) ∧
        (∀ later ∈ ticks.drop 1, ¬ later.1.board.Has (.ofNat 11) ∧ ¬ later.2.Names (.ofNat 11)) ∧
        (ticks.flatMap (·.2.events)).countP (Event.destroys (.ofNat 11)) = 1 := by
  have hvalid : drowningBoard.validate = .ok () := by decide
  have hstart := ofBoard_eq_ok hvalid {}
  have hg : Reachable (opening drowningBoard {}) := .start (.ofBoard hstart)
  obtain ⟨ticks, hrun, -, hticks⟩ := run_conserves_pieces hg [.move .right, .move .up, .wait]
  have hfirst : (opening drowningBoard {}).tick (.move .right) =
      .ok ((opening drowningBoard {}).played (.move .right), _) := tick_eq hg.board_valid _
  obtain ⟨later, -, rfl⟩ := exists_of_run_cons hfirst hrun
  have hhas : drowningBoard.Has (.ofNat 11) := by unfold Board.Has; decide
  have hgone : ¬ ((opening drowningBoard {}).played (.move .right)).board.Has (.ofNat 11) := by
    unfold Board.Has
    decide
  obtain ⟨hlater, hcount⟩ := (hticks 0 _ _ _ rfl rfl rfl).2 (.ofNat 11) hhas hgone
  exact ⟨hvalid, _, _, _, hstart, rfl, hrun, rfl, hhas, hgone, hlater, hcount rfl⟩

end Game

end WordTiles
