import WordTiles.Proofs.Game.Run

/-!
# What the settings change

Of its settings, a game is played by the limit on push chains and by whether there are hazards.
A limit that no line of the board can reach is as good as none, and whether events are recorded
is seen in the reports only. So two games with the same hazards and such limits are played alike
(`Game.Agrees`). The main statement is `Game.run_settings`.
-/

set_option autoImplicit false

namespace WordTiles

/-- No push chain on the board is stopped by the limit of the settings: there is no limit, or it is
not below the greater dimension of the board. -/
def Config.Unlimited (config : Config) (b : Board) : Prop :=
  ∀ limit, config.pushLimit = some limit → max b.rows b.cols ≤ limit

/-- The limit that then holds is not below the greater dimension. -/
theorem Config.Unlimited.le_getD {config : Config} {b : Board} (h : config.Unlimited b) :
    max b.rows b.cols ≤ config.pushLimit.getD b.defaultLimit := by
  cases hlimit : config.pushLimit with
  | none =>
      rw [Option.getD_none, Board.defaultLimit]
      omega
  | some limit => exact h limit hlimit

theorem Config.Unlimited.of_size {config : Config} {b b' : Board} (h : config.Unlimited b)
    (hrows : b'.rows = b.rows) (hcols : b'.cols = b.cols) : config.Unlimited b' := by
  rw [Unlimited, hrows, hcols]
  exact h

/-- Reports that differ at most in the events. -/
structure TickReport.Agrees (r r' : TickReport) : Prop where
  turn_eq : r.turn = r'.turn
  outcome_eq : r.outcome = r'.outcome
  rules_eq : r.rules = r'.rules
  attempts_eq : r.attempts = r'.attempts

namespace Game

/-- Games that differ at most in their settings. -/
structure Agrees (g g' : Game) : Prop where
  board_eq : g.board = g'.board
  turn_eq : g.turn = g'.turn
  outcome_eq : g.outcome = g'.outcome
  rules_eq : g.rules = g'.rules
  capabilities_eq : g.capabilities = g'.capabilities

/-- Settings that have the same hazards, and limits that no push chain on the board reaches. -/
structure SameSettings (g g' : Game) : Prop where
  hazards_eq : g.config.hazards = g'.config.hazards
  unlimited : g.config.Unlimited g.board
  unlimited' : g'.config.Unlimited g'.board

namespace Agrees

variable {g g' : Game}

theorem changed_eq (h : g.Agrees g') : g.changed = g'.changed := by
  rw [changed, h.board_eq, changed]

theorem tickTable_eq (h : g.Agrees g') : g.tickTable = g'.tickTable := by
  rw [tickTable, h.changed_eq, h.board_eq, tickTable]

/-- Both limits give the plan that the greater dimension of the board gives. -/
theorem movePlan_eq (h : g.Agrees g') (hsame : g.SameSettings g') (hb : g.board.Valid)
    (input : Input) : g.movePlan input = g'.movePlan input := by
  have hvalid : g.changed.Valid := valid_changed hb
  have hvalid' : g'.changed.Valid := h.changed_eq ▸ hvalid
  have hlimit : g.config.Unlimited g.changed := hsame.unlimited
  have hlimit' : g'.config.Unlimited g'.changed := hsame.unlimited'
  cases input with
  | move d =>
      rw [movePlan, hvalid.plan_of_le hlimit.le_getD, h.tickTable_eq, h.changed_eq,
        movePlan, hvalid'.plan_of_le hlimit'.le_getD]
  | wait => rfl

theorem steps_eq (h : g.Agrees g') (hsame : g.SameSettings g') (hb : g.board.Valid)
    (input : Input) : g.steps input = g'.steps input := by
  cases input with
  | move d => rw [steps, h.movePlan_eq hsame hb, steps]
  | wait => rfl

theorem shifted_eq (h : g.Agrees g') (hsame : g.SameSettings g') (hb : g.board.Valid)
    (input : Input) : g.shifted input = g'.shifted input := by
  cases input with
  | move d => rw [shifted, h.movePlan_eq hsame hb, h.changed_eq, shifted]
  | wait => exact h.changed_eq

theorem destroyed_eq (h : g.Agrees g') (hsame : g.SameSettings g') (hb : g.board.Valid)
    (input : Input) : g.destroyed input = g'.destroyed input := by
  rw [destroyed, h.shifted_eq hsame hb, h.tickTable_eq, hsame.hazards_eq, destroyed]

theorem survived_eq (h : g.Agrees g') (hsame : g.SameSettings g') (hb : g.board.Valid)
    (input : Input) : g.survived input = g'.survived input := by
  rw [survived, h.shifted_eq hsame hb, h.destroyed_eq hsame hb, survived]

theorem played (h : g.Agrees g') (hsame : g.SameSettings g') (hb : g.board.Valid)
    (input : Input) : (g.played input).Agrees (g'.played input) := by
  rw [Game.played, Game.played, h.survived_eq hsame hb, h.turn_eq]
  exact ⟨rfl, rfl, rfl, rfl, rfl⟩

theorem tickEvents_eq (h : g.Agrees g') (hsame : g.SameSettings g') (hb : g.board.Valid)
    (input : Input) : g.tickEvents input = g'.tickEvents input := by
  rw [tickEvents, h.board_eq, h.steps_eq hsame hb, h.movePlan_eq hsame hb,
    h.destroyed_eq hsame hb, (h.played hsame hb input).outcome_eq, tickEvents]

theorem sameSettings_played (hsame : g.SameSettings g') (input : Input) :
    (g.played input).SameSettings (g'.played input) where
  hazards_eq := hsame.hazards_eq
  unlimited := hsame.unlimited.of_size (rows_survived g input) (cols_survived g input)
  unlimited' := hsame.unlimited'.of_size (rows_survived g' input) (cols_survived g' input)

/-- What the ticks of two such games have in common. -/
theorem tick (h : g.Agrees g') (hsame : g.SameSettings g') (hb : g.board.Valid) (input : Input) :
    ∃ next next' report report', g.tick input = .ok (next, report) ∧
      g'.tick input = .ok (next', report') ∧ next.Agrees next' ∧ next.SameSettings next' ∧
      next.board.Valid ∧ next.config = g.config ∧ next'.config = g'.config ∧
      report.Agrees report' ∧
      (g.config.recordEvents = g'.config.recordEvents → report.events = report'.events) := by
  have hb' : g'.board.Valid := h.board_eq ▸ hb
  rw [tick_eq hb, tick_eq hb', h.outcome_eq]
  split
  · exact ⟨g, g', g.idleReport, g'.idleReport, rfl, rfl, h, hsame, hb, rfl, rfl,
      ⟨h.turn_eq, h.outcome_eq, h.rules_eq, rfl⟩, fun _ => rfl⟩
  · have hplayed := h.played hsame hb input
    refine ⟨g.played input, g'.played input, g.playReport input, g'.playReport input, rfl, rfl,
      hplayed, sameSettings_played hsame input, valid_survived hb input, rfl, rfl,
      ⟨hplayed.turn_eq, hplayed.outcome_eq, hplayed.rules_eq, ?_⟩, fun hrecord => ?_⟩
    · exact congrArg MovePlan.attempts (h.movePlan_eq hsame hb input)
    · rw [playReport, hrecord, h.tickEvents_eq hsame hb, playReport]

/-- What the runs of two such games have in common. -/
theorem run (h : g.Agrees g') (hsame : g.SameSettings g') (hb : g.board.Valid)
    (inputs : List Input) :
    ∃ ticks ticks', g.run inputs = .ok ticks ∧ g'.run inputs = .ok ticks' ∧
      ticks.length = inputs.length ∧
      List.Forall₂ (fun tick tick' => tick.1.Agrees tick'.1 ∧ tick.2.Agrees tick'.2 ∧
        (g.config.recordEvents = g'.config.recordEvents → tick.2.events = tick'.2.events))
        ticks ticks' := by
  apply run_related (R := fun k k' => k.Agrees k' ∧ k.SameSettings k' ∧ k.board.Valid ∧
    k.config = g.config ∧ k'.config = g'.config) ?_ ⟨h, hsame, hb, rfl, rfl⟩
  rintro k k' input ⟨h, hsame, hb, hconfig, hconfig'⟩
  obtain ⟨next, next', report, report', htick, htick', hnext, hnextSame, hnextValid, hkeep, hkeep',
    hreport, hevents⟩ := h.tick hsame hb input
  rw [hconfig] at hkeep
  rw [hconfig'] at hkeep'
  rw [hconfig, hconfig'] at hevents
  exact ⟨(next, report), (next', report'), htick, htick',
    ⟨hnext, hnextSame, hnextValid, hkeep, hkeep'⟩, hnext, hreport, hevents⟩

end Agrees

/-- A game that does not record reports no event, however long it is played. -/
theorem run_without_record {g : Game} (hb : g.board.Valid)
    (hrecord : g.config.recordEvents = false) (inputs : List Input) :
    ∃ ticks, g.run inputs = .ok ticks ∧ ticks.length = inputs.length ∧
      ∀ tick ∈ ticks, tick.2.events = [] := by
  apply run_invariant (P := fun g => g.board.Valid ∧ g.config.recordEvents = false) ?_ ⟨hb, hrecord⟩
  rintro g input ⟨hb, hrecord⟩
  rw [tick_eq hb]
  split
  · exact ⟨g, g.idleReport, rfl, ⟨hb, hrecord⟩, rfl⟩
  · refine ⟨g.played input, g.playReport input, rfl, ⟨valid_survived hb input, hrecord⟩, ?_⟩
    show (if g.config.recordEvents then g.tickEvents input else []) = []
    rw [hrecord]
    rfl

/-- **Settings interfere only as they say.** Take two settings that agree on whether there are
hazards, each of which has no limit on push chains or one that is not below the greater dimension
of the board. Games with them on the same board and with the same inputs agree after every tick on
the board, the turn, the outcome, the rules, the capabilities and the attempts, whether they
record or not, and on the events if both record. And whatever else is set, a game that does not
record never reports an event. -/
theorem run_settings {b : Board} (hb : b.validate = .ok ()) (inputs : List Input) :
    (∀ c c' : Config, c.hazards = c'.hazards → c.Unlimited b → c'.Unlimited b →
      ∃ g g' ticks ticks', ofBoard b c = .ok g ∧ ofBoard b c' = .ok g' ∧
        g.run inputs = .ok ticks ∧ g'.run inputs = .ok ticks' ∧ ticks.length = inputs.length ∧
        List.Forall₂ (fun tick tick' => tick.1.Agrees tick'.1 ∧ tick.2.Agrees tick'.2 ∧
          (c.recordEvents = true → c'.recordEvents = true → tick.2.events = tick'.2.events))
          ticks ticks') ∧
      ∀ c : Config, c.recordEvents = false →
        ∃ g ticks, ofBoard b c = .ok g ∧ g.run inputs = .ok ticks ∧
          ticks.length = inputs.length ∧ ∀ tick ∈ ticks, tick.2.events = [] := by
  have hvalid := Board.validate_eq_ok_iff.mp hb
  constructor
  · intro c c' hhazards hlimit hlimit'
    have hagrees : (opening b c).Agrees (opening b c') := ⟨rfl, rfl, rfl, rfl, rfl⟩
    have hsame : (opening b c).SameSettings (opening b c') := ⟨hhazards, hlimit, hlimit'⟩
    obtain ⟨ticks, ticks', hrun, hrun', hlength, hticks⟩ := hagrees.run hsame hvalid inputs
    refine ⟨opening b c, opening b c', ticks, ticks', ofBoard_eq_ok hb c, ofBoard_eq_ok hb c', hrun,
      hrun', hlength, hticks.imp ?_⟩
    rintro tick tick' ⟨hgames, hreports, hevents⟩
    exact ⟨hgames, hreports, fun hrecord hrecord' => hevents (hrecord.trans hrecord'.symm)⟩
  · intro c hrecord
    obtain ⟨ticks, hrun⟩ := run_without_record (g := opening b c) hvalid hrecord inputs
    exact ⟨opening b c, ticks, ofBoard_eq_ok hb c, hrun⟩

/-- A row with a baba before the tiles of its rule, and one empty cell behind them. -/
def oneRowBoard : Board :=
  ⟨1, 5, #[[⟨.ofNat 1, .thing .baba, ⟨0, 0⟩, .right⟩], [⟨.ofNat 2, .tile "BABA", ⟨0, 1⟩, .right⟩],
    [⟨.ofNat 3, .tile "IS", ⟨0, 2⟩, .right⟩], [⟨.ofNat 4, .tile "YOU", ⟨0, 3⟩, .right⟩], []]⟩

/-- The baba pushes its rule to the edge and no farther, whether chains of five cells are the limit
and nothing is recorded or nothing is set. -/
theorem run_settings_oneRowBoard :
    oneRowBoard.validate = .ok () ∧ Config.default.Unlimited oneRowBoard ∧
      Config.Unlimited ⟨some 5, true, false⟩ oneRowBoard ∧
      (∃ g g' tick later ticks', ofBoard oneRowBoard .default = .ok g ∧
        ofBoard oneRowBoard ⟨some 5, true, false⟩ = .ok g' ∧
        g.run [.move .right, .move .right] = .ok [tick, later] ∧
        g'.run [.move .right, .move .right] = .ok ticks' ∧
        List.Forall₂ (fun tick tick' => tick.1.Agrees tick'.1 ∧ tick.2.Agrees tick'.2)
          [tick, later] ticks' ∧
        tick.1.board.pieces.map (·.position) = [⟨0, 1⟩, ⟨0, 2⟩, ⟨0, 3⟩, ⟨0, 4⟩] ∧
        later.1.board.pieces.map (·.position) = [⟨0, 1⟩, ⟨0, 2⟩, ⟨0, 3⟩, ⟨0, 4⟩] ∧
        later.2.attempts = [⟨.ofNat 1, ⟨0, 1⟩, .refused .edge⟩]) ∧
      ∃ g ticks, ofBoard oneRowBoard ⟨some 5, true, false⟩ = .ok g ∧
        g.run [.move .right, .move .right] = .ok ticks ∧ ∀ tick ∈ ticks, tick.2.events = [] := by
  have hvalid : oneRowBoard.validate = .ok () := by decide
  have hlimit : Config.default.Unlimited oneRowBoard := by
    intro limit h
    cases h
  have hlimit' : Config.Unlimited ⟨some 5, true, false⟩ oneRowBoard := by
    intro limit h
    cases h
    decide
  obtain ⟨hsame, hsilent⟩ := run_settings hvalid [.move .right, .move .right]
  obtain ⟨g, g', ticks, ticks', hg, hg', hrun, hrun', -, hticks⟩ :=
    hsame .default ⟨some 5, true, false⟩ rfl hlimit hlimit'
  obtain ⟨k, silent, hk, hsilentRun, -, hevents⟩ := hsilent ⟨some 5, true, false⟩ rfl
  have hreachable : Reachable g := .start (.ofBoard hg)
  cases (ofBoard_eq_ok hvalid .default).symm.trans hg
  have hfirst := tick_eq hreachable.board_valid (.move .right)
  have hsecond := tick_eq (hreachable.tick hfirst).board_valid (.move .right)
  obtain ⟨_, hlater, rfl⟩ := exists_of_run_cons hfirst hrun
  obtain ⟨_, hnil, rfl⟩ := exists_of_run_cons hsecond hlater
  cases hnil
  exact ⟨hvalid, hlimit, hlimit',
    ⟨_, g', _, _, ticks', hg, hg', hrun, hrun', hticks.imp fun _ _ h => ⟨h.1, h.2.1⟩,
      by decide, by decide, by decide⟩, k, silent, hk, hsilentRun, hevents⟩

end Game

end WordTiles
