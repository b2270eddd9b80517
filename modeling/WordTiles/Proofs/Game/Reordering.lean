import WordTiles.Proofs.Game.Run
import WordTiles.Proofs.Move.Reordering

/-!
# Games on reordered stacks

The order of a stack is only how a cell is shown, apart from the order of its tiles among
themselves, of which the topmost is read. Two games whose boards are reorderings of each other
stay so in every phase of a tick, and what is said of them is the same (`Game.Alike`). The main
statement is `Game.run_reordered`, which compares two runs tick by tick.
-/

set_option autoImplicit false

namespace WordTiles

/-- Reports that differ at most in the events and in the order of the attempts. -/
structure TickReport.Alike (r r' : TickReport) : Prop where
  turn_eq : r.turn = r'.turn
  outcome_eq : r.outcome = r'.outcome
  rules_eq : r.rules = r'.rules
  attempts_perm : r.attempts.Perm r'.attempts

namespace Game

/-- Games that differ at most in the order of the stacks, apart from the order of tiles. -/
structure Alike (g g' : Game) : Prop where
  board : g.board.Reordered g'.board
  config_eq : g.config = g'.config
  turn_eq : g.turn = g'.turn
  outcome_eq : g.outcome = g'.outcome
  rules_eq : g.rules = g'.rules
  capabilities_eq : g.capabilities = g'.capabilities

namespace Alike

variable {g g' : Game}

/-! ## The phases of a tick -/

theorem changed (h : g.Alike g') (hb : g.board.Valid) (hb' : g'.board.Valid) :
    g.changed.Reordered g'.changed := by
  rw [Game.changed, h.board.read_eq hb.sized hb'.sized, Game.changed]
  apply h.board.mapPieces hb.sized hb'.sized
  rintro ⟨id, kind, position, facing⟩
  cases kind <;> rfl

theorem tickTable_eq (h : g.Alike g') (hb : g.board.Valid) (hb' : g'.board.Valid) :
    g.tickTable = g'.tickTable := by
  rw [tickTable, h.board.read_eq hb.sized hb'.sized, tickTable]
  exact (h.changed hb hb').build_eq (valid_changed hb).sized (valid_changed hb').sized _

theorem limit_eq (h : g.Alike g') :
    g.config.pushLimit.getD g.changed.defaultLimit =
      g'.config.pushLimit.getD g'.changed.defaultLimit :=
  limit_congr h.config_eq (by rw [h.board.rows_eq, h.board.cols_eq])

theorem attempts_perm (h : g.Alike g') (hb : g.board.Valid) (hb' : g'.board.Valid)
    (input : Input) : (g.movePlan input).attempts.Perm (g'.movePlan input).attempts := by
  cases input with
  | move d =>
      rw [movePlan, movePlan, h.tickTable_eq hb hb', h.limit_eq]
      exact (h.changed hb hb').attempts_perm (valid_changed hb) (valid_changed hb') _ d _
  | wait => exact List.Perm.refl _

theorem shifted (h : g.Alike g') (hb : g.board.Valid) (hb' : g'.board.Valid) (input : Input) :
    (g.shifted input).Reordered (g'.shifted input) := by
  have hchanged := h.changed hb hb'
  cases input with
  | move d =>
      rw [Game.shifted, Game.shifted, movePlan, movePlan, h.tickTable_eq hb hb', h.limit_eq]
      apply hchanged.shift (valid_changed hb).sized (valid_changed hb').sized
      intro x hx
      exact hchanged.moves_plan_eq (valid_changed hb) (valid_changed hb') _ d _ hx
  | wait => exact hchanged

theorem survived (h : g.Alike g') (hb : g.board.Valid) (hb' : g'.board.Valid) (input : Input) :
    (g.survived input).Reordered (g'.survived input) := by
  have hshifted := h.shifted hb hb' input
  have hvalid := valid_shifted hb input
  have hvalid' := valid_shifted hb' input
  apply hshifted.filterPieces hvalid.sized hvalid'.sized
  intro x hx
  have hdestroyed := hshifted.destroyed_iff hvalid hvalid' g'.tickTable hx
  exact spared_congr h.config_eq (h.tickTable_eq hb hb') hdestroyed

/-! ## One tick -/

theorem ofPlayed {b b' : Board} (h : b.Reordered b') (hb : b.Sized) (hb' : b'.Sized)
    (config : Config) (turn : Nat) :
    (Game.ofPlayed b config turn).Alike (Game.ofPlayed b' config turn) := by
  have hread := h.read_eq hb hb'
  obtain ⟨htable, houtcome⟩ := ofPlayed_congr hread (h.build_eq hb hb') (h.outcome_eq hb hb')
  exact ⟨h, rfl, rfl, houtcome, congrArg Reading.rules hread, htable⟩

theorem opening {b b' : Board} (h : b.Reordered b') (hb : b.Sized) (hb' : b'.Sized)
    (config : Config) : (Game.opening b config).Alike (Game.opening b' config) :=
  { ofPlayed h hb hb' config 0 with outcome_eq := rfl }

theorem played (h : g.Alike g') (hb : g.board.Valid) (hb' : g'.board.Valid) (input : Input) :
    (g.played input).Alike (g'.played input) := by
  rw [Game.played, Game.played, h.config_eq, h.turn_eq]
  exact ofPlayed (h.survived hb hb' input) (valid_survived hb input).sized
    (valid_survived hb' input).sized _ _

/-- A tick keeps games alike, and reports the same of both. -/
theorem tick (h : g.Alike g') (hb : g.board.Valid) (hb' : g'.board.Valid) (input : Input) :
    ∃ next next' report report', g.tick input = .ok (next, report) ∧
      g'.tick input = .ok (next', report') ∧ next.Alike next' ∧ report.Alike report' ∧
      next.board.Valid ∧ next'.board.Valid := by
  rw [tick_eq hb, tick_eq hb', h.outcome_eq]
  split
  · exact ⟨g, g', g.idleReport, g'.idleReport, rfl, rfl, h,
      ⟨h.turn_eq, h.outcome_eq, h.rules_eq, List.Perm.refl _⟩, hb, hb'⟩
  · have hplayed := h.played hb hb' input
    exact ⟨g.played input, g'.played input, g.playReport input, g'.playReport input, rfl, rfl,
      hplayed,
      ⟨hplayed.turn_eq, hplayed.outcome_eq, hplayed.rules_eq, h.attempts_perm hb hb' input⟩,
      valid_survived hb input, valid_survived hb' input⟩

/-! ## All ticks -/

theorem run (h : g.Alike g') (hb : g.board.Valid) (hb' : g'.board.Valid) (inputs : List Input) :
    ∃ ticks ticks', g.run inputs = .ok ticks ∧ g'.run inputs = .ok ticks' ∧
      ticks.length = inputs.length ∧
      List.Forall₂ (fun tick tick' => tick.1.Alike tick'.1 ∧ tick.2.Alike tick'.2)
        ticks ticks' := by
  apply run_related (R := fun g g' => g.Alike g' ∧ g.board.Valid ∧ g'.board.Valid) ?_ ⟨h, hb, hb'⟩
  rintro g g' input ⟨h, hb, hb'⟩
  obtain ⟨next, next', report, report', htick, htick', hnext, hreport, hb, hb'⟩ :=
    h.tick hb hb' input
  exact ⟨(next, report), (next', report'), htick, htick', ⟨hnext, hb, hb'⟩, hnext, hreport⟩

end Alike

/-- **The order of a stack does not matter, but for its tiles.** Take two boards that can be
played on, of one size, with the same pieces in every cell and the tiles of each cell in the
same order among themselves. Games on them with the same settings and the same inputs agree
after every tick on the turn, the outcome, the rules, the capabilities and the attempts, and
their boards differ again only in the order of stacks and not in that of tiles. -/
theorem run_reordered {b b' : Board} (hb : b.validate = .ok ()) (hb' : b'.validate = .ok ())
    (hreordered : b.Reordered b') (config : Config) (inputs : List Input) :
    ∃ g g' ticks ticks', ofBoard b config = .ok g ∧ ofBoard b' config = .ok g' ∧
      g.run inputs = .ok ticks ∧ g'.run inputs = .ok ticks' ∧ ticks.length = inputs.length ∧
      List.Forall₂ (fun tick tick' => tick.1.Alike tick'.1 ∧ tick.2.Alike tick'.2)
        ticks ticks' := by
  have hvalid := Board.validate_eq_ok_iff.mp hb
  have hvalid' := Board.validate_eq_ok_iff.mp hb'
  have hopening := Alike.opening hreordered hvalid.sized hvalid'.sized config
  obtain ⟨ticks, ticks', hrun⟩ := hopening.run hvalid hvalid' inputs
  exact ⟨opening b config, opening b' config, ticks, ticks', ofBoard_eq_ok hb config,
    ofBoard_eq_ok hb' config, hrun⟩

/-- A row that says `BABA IS YOU`, and below it a cell with a stack of pieces in it. -/
def crowdedBoard (crowd : Stack) : Board :=
  ⟨2, 3, #[
    [⟨.ofNat 1, .tile "BABA", ⟨0, 0⟩, .right⟩], [⟨.ofNat 2, .tile "IS", ⟨0, 1⟩, .right⟩],
    [⟨.ofNat 3, .tile "YOU", ⟨0, 2⟩, .right⟩], crowd, [], []]⟩

/-- A baba below two tiles, and a rock above them. -/
def babaBelow : Stack :=
  [⟨.ofNat 4, .thing .baba, ⟨1, 0⟩, .up⟩, ⟨.ofNat 5, .tile "ROCK", ⟨1, 0⟩, .right⟩,
    ⟨.ofNat 6, .tile "IS", ⟨1, 0⟩, .right⟩, ⟨.ofNat 7, .thing .rock, ⟨1, 0⟩, .left⟩]

/-- The same pieces, with the rock at the bottom and the baba between the tiles. -/
def babaBetween : Stack :=
  [⟨.ofNat 7, .thing .rock, ⟨1, 0⟩, .left⟩, ⟨.ofNat 5, .tile "ROCK", ⟨1, 0⟩, .right⟩,
    ⟨.ofNat 4, .thing .baba, ⟨1, 0⟩, .up⟩, ⟨.ofNat 6, .tile "IS", ⟨1, 0⟩, .right⟩]

/-- Wherever in its stack the baba stands, three inputs do the same. With the first of them it steps
out of the stack, and the pieces that it leaves behind keep the orders they had. -/
theorem run_reordered_crowdedBoard :
    crowdedBoard babaBelow ≠ crowdedBoard babaBetween ∧
      (crowdedBoard babaBelow).validate = .ok () ∧ (crowdedBoard babaBetween).validate = .ok () ∧
      (crowdedBoard babaBelow).Reordered (crowdedBoard babaBetween) ∧
      ∃ g g' tick tick' ticks ticks', ofBoard (crowdedBoard babaBelow) {} = .ok g ∧
        ofBoard (crowdedBoard babaBetween) {} = .ok g' ∧
        g.run [.move .right, .wait, .move .up] = .ok ticks ∧
        g'.run [.move .right, .wait, .move .up] = .ok ticks' ∧ ticks.length = 3 ∧
        List.Forall₂ (fun tick tick' => tick.1.Alike tick'.1 ∧ tick.2.Alike tick'.2)
          ticks ticks' ∧
        ticks[0]? = some tick ∧ ticks'[0]? = some tick' ∧
        tick.1.board.stackAt ⟨1, 1⟩ = [⟨.ofNat 4, .thing .baba, ⟨1, 1⟩, .right⟩] ∧
        tick'.1.board.stackAt ⟨1, 1⟩ = [⟨.ofNat 4, .thing .baba, ⟨1, 1⟩, .right⟩] ∧
        (tick.1.board.stackAt ⟨1, 0⟩).map (·.id) = [.ofNat 5, .ofNat 6, .ofNat 7] ∧
        (tick'.1.board.stackAt ⟨1, 0⟩).map (·.id) = [.ofNat 7, .ofNat 5, .ofNat 6] := by
  have hvalid : (crowdedBoard babaBelow).validate = .ok () := by decide
  have hvalid' : (crowdedBoard babaBetween).validate = .ok () := by decide
  have hb := Board.validate_eq_ok_iff.mp hvalid
  have hb' := Board.validate_eq_ok_iff.mp hvalid'
  have hreordered : (crowdedBoard babaBelow).Reordered (crowdedBoard babaBetween) :=
    .of_positions hb.sized rfl rfl (by decide)
  obtain ⟨g, g', ticks, ticks', hg, hg', hrun, hrun', hlength, halike⟩ :=
    run_reordered hvalid hvalid' hreordered {} [.move .right, .wait, .move .up]
  cases (ofBoard_eq_ok hvalid {}).symm.trans hg
  cases (ofBoard_eq_ok hvalid' {}).symm.trans hg'
  obtain ⟨_, -, rfl⟩ := exists_of_run_cons (tick_opening hb {} (.move .right)) hrun
  obtain ⟨_, -, rfl⟩ := exists_of_run_cons (tick_opening hb' {} (.move .right)) hrun'
  exact ⟨by decide, hvalid, hvalid', hreordered, _, _, _, _, _, _, hg, hg', hrun, hrun', hlength,
    halike, rfl, rfl, by decide, by decide, by decide, by decide⟩

end Game

end WordTiles
