import WordTiles.Proofs.Game.Run
import WordTiles.Proofs.Move.Renaming

/-!
# Games under other names

All that is done to a piece is asked for by its identity, and a move turns the piece. None of it
feeds back into play: games on boards that differ in identities and facings only are played alike,
event by event, under the new names (`Game.Renamed`). A piece that has moved faces the way it went
on both boards; so less and less is left of the facings in which the boards differ.

The main statement is `Game.run_renamed`.
-/

set_option autoImplicit false

namespace WordTiles

variable {f : PieceId → PieceId} {moved moved' : PieceId → Prop}

/-- The event of the renamed piece. -/
def Event.rename (f : PieceId → PieceId) : Event → Event
  | .ruleRejected origin direction words reason => .ruleRejected origin direction words reason
  | .transformed piece position source target => .transformed (f piece) position source target
  | .moved piece kind source target => .moved (f piece) kind source target
  | .moveRejected piece position reason => .moveRejected (f piece) position reason
  | .destroyed piece kind position cause => .destroyed (f piece) kind position cause
  | .outcomeReached outcome => .outcomeReached outcome

/-- The report of the renamed pieces. -/
def TickReport.rename (f : PieceId → PieceId) (r : TickReport) : TickReport :=
  { r with attempts := r.attempts.map (·.rename f), events := r.events.map (·.rename f) }

/-- The piece `id` stands in one cell of the first board and in another cell of the second. -/
def Board.Moved (b b' : Board) (id : PieceId) : Prop :=
  ∃ p q, b.Holds p id ∧ b'.Holds q id ∧ p ≠ q

theorem Event.ofAttempt?_rename (f : PieceId → PieceId) (a : Attempt) :
    ofAttempt? (a.rename f) = (ofAttempt? a).map (·.rename f) := by
  obtain ⟨piece, position, status⟩ := a
  cases status <;> rfl

namespace Game

/-- The second game is the first one with its pieces renamed. Those that have moved face the same
way. -/
structure Renamed (f : PieceId → PieceId) (moved : PieceId → Prop) (g g' : Game) : Prop where
  board : g.board.Renamed f moved g'.board
  config_eq : g'.config = g.config
  turn_eq : g'.turn = g.turn
  outcome_eq : g'.outcome = g.outcome
  rules_eq : g'.rules = g.rules
  capabilities_eq : g'.capabilities = g.capabilities

/-- The pieces that some tick of a run has moved. -/
def HasMoved (g : Game) (ticks : List (Game × TickReport)) (id : PieceId) : Prop :=
  ∃ t ∈ g.transitions ticks, t.1.board.Moved t.2.1.board id

variable {g g' : Game} {id : PieceId}

theorem hasMoved_cons_iff {tick : Game × TickReport} {ticks : List (Game × TickReport)} :
    g.HasMoved (tick :: ticks) id ↔ g.board.Moved tick.1.board id ∨ tick.1.HasMoved ticks id := by
  have hcons : g.transitions (tick :: ticks) = (g, tick) :: tick.1.transitions ticks := rfl
  simp only [HasMoved, hcons, List.mem_cons, exists_eq_or_imp]

/-- What is found in another cell after a tick, its plan has moved. -/
theorem moves_of_moved (hb : g.board.Valid) {input : Input}
    (h : g.board.Moved (g.survived input) id) : (g.movePlan input).moves id = true := by
  obtain ⟨p, q, hbefore, hafter, hne⟩ := h
  obtain ⟨x, hx, rfl⟩ := (holds_changed_iff hb).mpr hbefore
  obtain ⟨y, hy, hid⟩ := ((holds_survived_iff hb).mp hafter).1
  have hvalid := valid_changed hb
  cases input with
  | move d =>
      obtain ⟨-, ⟨hstay, -⟩ | ⟨z, -, hmoving, rfl⟩⟩ := (Board.mem_stackAt_shift hvalid.sized).mp hy
      · exact absurd (hvalid.cell_eq_of_id_eq hx hstay hid.symm) hne
      · rw [← hid]
        exact hmoving
  | wait => exact absurd (hvalid.cell_eq_of_id_eq hx hy hid.symm) hne

namespace Renamed

theorem mono (h : g.Renamed f moved g') (hmoved : ∀ id, moved' id → moved id) :
    g.Renamed f moved' g' :=
  { h with board := h.board.mono hmoved }

/-! ## The phases of a tick -/

theorem changed (h : g.Renamed f moved g') (hb : g.board.Valid) (hb' : g'.board.Valid) :
    g.changed.Renamed f moved g'.changed := by
  rw [Game.changed, Game.changed, h.board.read_eq hb.sized hb'.sized]
  exact h.board.mapPieces_recast hb.sized hb'.sized _

theorem tickTable_eq (h : g.Renamed f moved g') (hb : g.board.Valid) (hb' : g'.board.Valid) :
    g'.tickTable = g.tickTable := by
  rw [tickTable, h.board.read_eq hb.sized hb'.sized]
  exact (h.changed hb hb').build_eq (valid_changed hb).sized (valid_changed hb').sized _

theorem limit_eq (h : g.Renamed f moved g') :
    g'.config.pushLimit.getD g'.changed.defaultLimit =
      g.config.pushLimit.getD g.changed.defaultLimit :=
  limit_congr h.config_eq (by rw [h.board.rows_eq, h.board.cols_eq])

theorem attempts_eq (h : g.Renamed f moved g') (hb : g.board.Valid) (hb' : g'.board.Valid)
    (input : Input) :
    (g'.movePlan input).attempts = (g.movePlan input).attempts.map (·.rename f) := by
  cases input with
  | move d =>
      rw [movePlan, movePlan, h.tickTable_eq hb hb', h.limit_eq]
      exact (h.changed hb hb').attempts_eq (valid_changed hb) (valid_changed hb') _ d _
  | wait => rfl

theorem steps_eq (h : g.Renamed f moved g') (hb : g.board.Valid) (hb' : g'.board.Valid)
    (input : Input) : g'.steps input = (g.steps input).map (·.rename f) := by
  cases input with
  | move d =>
      rw [steps, steps, movePlan, movePlan, h.tickTable_eq hb hb', h.limit_eq]
      exact (h.changed hb hb').steps_eq (valid_changed hb) (valid_changed hb') _ d _
  | wait => rfl

theorem shifted (h : g.Renamed f moved g') (hb : g.board.Valid) (hb' : g'.board.Valid)
    (input : Input) :
    (g.shifted input).Renamed f (fun id => moved id ∨ (g.movePlan input).moves id = true)
      (g'.shifted input) := by
  have hchanged := h.changed hb hb'
  have hvalid := valid_changed hb
  have hvalid' := valid_changed hb'
  cases input with
  | move d =>
      rw [Game.shifted, Game.shifted, movePlan, movePlan, h.tickTable_eq hb hb', h.limit_eq]
      apply hchanged.shift hvalid.sized hvalid'.sized
      intro x hx y hy hxy
      exact hchanged.moves_plan_eq hvalid hvalid' _ d _ hx hy hxy
  -- nothing is moved by waiting
  | wait =>
      apply hchanged.mono
      rintro id (hm | hm)
      · exact hm
      · cases hm

theorem destroyed_eq (h : g.Renamed f moved g') (hb : g.board.Valid) (hb' : g'.board.Valid)
    (input : Input) : g'.destroyed input = (g.destroyed input).map (·.rename f) := by
  rw [destroyed, destroyed, h.config_eq, h.tickTable_eq hb hb']
  split
  · exact (h.shifted hb hb' input).destructions_eq (valid_shifted hb input).sized
      (valid_shifted hb' input).sized _
  · rfl

/-- After a tick the pieces that have moved before face the same way, and those that it has
moved. -/
theorem survived (h : g.Renamed f moved g') (hb : g.board.Valid) (hb' : g'.board.Valid)
    (input : Input) :
    (g.survived input).Renamed f (fun id => moved id ∨ g.board.Moved (g.survived input) id)
      (g'.survived input) := by
  have hshifted := h.shifted hb hb' input
  have hvalid := valid_shifted hb input
  have hvalid' := valid_shifted hb' input
  have hsurvived : (g.survived input).Renamed f
      (fun id => moved id ∨ (g.movePlan input).moves id = true) (g'.survived input) := by
    apply hshifted.filterPieces hvalid.sized hvalid'.sized
    intro x hx y hy hxy
    have hdestroyed := hshifted.resembles.destroyed_iff hvalid hvalid' g.tickTable hx hy
      hxy.kind_eq hxy.position_eq
    exact spared_congr h.config_eq (h.tickTable_eq hb hb') hdestroyed
  apply hsurvived.mono
  rintro id (hm | hm)
  · exact .inl hm
  · exact .inr (moves_of_moved hb hm)

/-! ## One tick -/

theorem ofPlayed {b b' : Board} (h : b.Renamed f moved b') (hb : b.Sized) (hb' : b'.Sized)
    (config : Config) (turn : Nat) :
    (Game.ofPlayed b config turn).Renamed f moved (Game.ofPlayed b' config turn) := by
  have hread := h.read_eq hb hb'
  obtain ⟨htable, houtcome⟩ := ofPlayed_congr hread (h.build_eq hb hb') (h.outcome_eq hb hb')
  exact ⟨h, rfl, rfl, houtcome, congrArg Reading.rules hread, htable⟩

theorem opening {b b' : Board} (h : b.Renamed f moved b') (hb : b.Sized) (hb' : b'.Sized)
    (config : Config) : (Game.opening b config).Renamed f moved (Game.opening b' config) :=
  { ofPlayed h hb hb' config 0 with outcome_eq := rfl }

theorem played (h : g.Renamed f moved g') (hb : g.board.Valid) (hb' : g'.board.Valid)
    (input : Input) :
    (g.played input).Renamed f (fun id => moved id ∨ g.board.Moved (g.played input).board id)
      (g'.played input) := by
  have hplayed := ofPlayed (h.survived hb hb' input) (valid_survived hb input).sized
    (valid_survived hb' input).sized g.config (g.turn + 1)
  have hsame : g'.played input = Game.ofPlayed (g'.survived input) g.config (g.turn + 1) := by
    rw [Game.played, h.config_eq, h.turn_eq]
  rw [hsame]
  exact hplayed

theorem tickEvents_eq (h : g.Renamed f moved g') (hb : g.board.Valid) (hb' : g'.board.Valid)
    (input : Input) : g'.tickEvents input = (g.tickEvents input).map (·.rename f) := by
  have hattempt : Event.ofAttempt? ∘ (·.rename f) =
      fun a => (Event.ofAttempt? a).map (·.rename f) :=
    funext (Event.ofAttempt?_rename f)
  have houtcome : ∀ o, (Event.ofOutcome? o).toList.map (·.rename f) =
      (Event.ofOutcome? o).toList := fun o => by cases o <;> rfl
  rw [tickEvents, h.board.read_eq hb.sized hb'.sized,
    h.board.transformations_eq hb.sized hb'.sized, h.steps_eq hb hb', h.attempts_eq hb hb',
    h.destroyed_eq hb hb', (h.played hb hb' input).outcome_eq, tickEvents]
  simp only [List.map_append, List.map_map, List.filterMap_map, List.map_filterMap, hattempt,
    houtcome]
  rfl

theorem playReport_eq (h : g.Renamed f moved g') (hb : g.board.Valid) (hb' : g'.board.Valid)
    (input : Input) : g'.playReport input = (g.playReport input).rename f := by
  have hplayed := h.played hb hb' input
  have hevents : (if g'.config.recordEvents then g'.tickEvents input else []) =
      (if g.config.recordEvents then g.tickEvents input else []).map (·.rename f) := by
    rw [h.config_eq, h.tickEvents_eq hb hb']
    split <;> rfl
  rw [playReport, hplayed.turn_eq, hplayed.outcome_eq, hplayed.rules_eq, h.attempts_eq hb hb',
    hevents]
  rfl

/-- A tick keeps a game a renaming of the other, and reports the same under the new names. -/
theorem tick (h : g.Renamed f moved g') (hb : g.board.Valid) (hb' : g'.board.Valid)
    (input : Input) :
    ∃ next next' report report', g.tick input = .ok (next, report) ∧
      g'.tick input = .ok (next', report') ∧
      next.Renamed f (fun id => moved id ∨ g.board.Moved next.board id) next' ∧
      report' = report.rename f ∧ next.board.Valid ∧ next'.board.Valid := by
  rw [tick_eq hb, tick_eq hb', h.outcome_eq]
  split
  · have hidle : g'.idleReport = g.idleReport.rename f := by
      rw [idleReport, h.turn_eq, h.outcome_eq, h.rules_eq]
      rfl
    refine ⟨g, g', g.idleReport, g'.idleReport, rfl, rfl, h.mono ?_, hidle, hb, hb'⟩
    -- nothing has moved
    rintro id (hm | ⟨p, q, ⟨x, hx, rfl⟩, ⟨y, hy, hid⟩, hne⟩)
    · exact hm
    · exact absurd (hb.cell_eq_of_id_eq hx hy hid.symm) hne
  · exact ⟨g.played input, g'.played input, g.playReport input, g'.playReport input, rfl, rfl,
      h.played hb hb' input, h.playReport_eq hb hb' input, valid_survived hb input,
      valid_survived hb' input⟩

/-! ## All ticks -/

/-- What a tick keeps, a run keeps; and in each of its ticks some more pieces may have moved. -/
theorem run (h : g.Renamed f moved g') (hb : g.board.Valid) (hb' : g'.board.Valid)
    (inputs : List Input) :
    ∃ ticks ticks', g.run inputs = .ok ticks ∧ g'.run inputs = .ok ticks' ∧
      ticks.length = inputs.length ∧ ticks'.length = inputs.length ∧
      ∀ (i : Nat) (tick tick' : Game × TickReport),
        ticks[i]? = some tick → ticks'[i]? = some tick' →
        tick.1.Renamed f (fun id => moved id ∨ g.HasMoved (ticks.take (i + 1)) id) tick'.1 ∧
          tick'.2 = tick.2.rename f := by
  induction inputs generalizing g g' moved with
  | nil => exact ⟨[], [], rfl, rfl, rfl, rfl, fun i tick tick' h => by simp at h⟩
  | cons input rest ih =>
      obtain ⟨next, next', report, report', htick, htick', hnext, hreport, hb, hb'⟩ :=
        h.tick hb hb' input
      obtain ⟨later, later', hrun, hrun', hlength, hlength', hlater⟩ := ih hnext hb hb'
      refine ⟨(next, report) :: later, (next', report') :: later', ?_, ?_, by simp [hlength],
        by simp [hlength'], ?_⟩
      · rw [run_cons htick, hrun]
        rfl
      · rw [run_cons htick', hrun']
        rfl
      intro i tick tick' hi hi'
      cases i with
      | zero =>
          obtain rfl : (next, report) = tick := by simpa using hi
          obtain rfl : (next', report') = tick' := by simpa using hi'
          refine ⟨hnext.mono ?_, hreport⟩
          rintro id (hm | hm)
          · exact .inl hm
          · rw [List.take_succ_cons, hasMoved_cons_iff] at hm
            rcases hm with hm | ⟨t, ht, -⟩
            · exact .inr hm
            · simp [transitions] at ht
      | succ i =>
          obtain ⟨hgames, hreports⟩ := hlater i tick tick' (by simpa using hi) (by simpa using hi')
          refine ⟨hgames.mono ?_, hreports⟩
          rintro id (hm | hm)
          · exact .inl (.inl hm)
          · rw [List.take_succ_cons, hasMoved_cons_iff] at hm
            rcases hm with hm | hm
            · exact .inl (.inr hm)
            · exact .inr hm

end Renamed

/-- **Identities and facings never influence play.** Take two boards that can be played on, of one
size and with the same kinds of pieces in the same places of their stacks, where the identities
are renamed by a function and the pieces face any way. (As no identity stands twice on either
board, the function takes no two of them to one.) Games on them with the same settings and the
same inputs agree after every tick on the turn, the outcome, the rules and the capabilities, and
report the same attempts and events in the same order under the new names; and their boards are
renamings of each other again, on which all pieces that have moved since the start face the same
way. -/
theorem run_renamed {b b' : Board} (hb : b.validate = .ok ()) (hb' : b'.validate = .ok ())
    {f : PieceId → PieceId} (hrenamed : b.Renamed f (fun _ => False) b') (config : Config)
    (inputs : List Input) :
    ∃ g g' ticks ticks', ofBoard b config = .ok g ∧ ofBoard b' config = .ok g' ∧
      g.run inputs = .ok ticks ∧ g'.run inputs = .ok ticks' ∧ ticks.length = inputs.length ∧
      ticks'.length = inputs.length ∧
      ∀ (i : Nat) (tick tick' : Game × TickReport),
        ticks[i]? = some tick → ticks'[i]? = some tick' →
        tick.1.Renamed f (g.HasMoved (ticks.take (i + 1))) tick'.1 ∧
          tick'.2 = tick.2.rename f := by
  have hvalid := Board.validate_eq_ok_iff.mp hb
  have hvalid' := Board.validate_eq_ok_iff.mp hb'
  have hopening := Renamed.opening hrenamed hvalid.sized hvalid'.sized config
  obtain ⟨ticks, ticks', hrun, hrun', hlength, hlength', hticks⟩ :=
    hopening.run hvalid hvalid' inputs
  refine ⟨opening b config, opening b' config, ticks, ticks', ofBoard_eq_ok hb config,
    ofBoard_eq_ok hb' config, hrun, hrun', hlength, hlength', fun i tick tick' hi hi' => ?_⟩
  obtain ⟨hgames, hreports⟩ := hticks i tick tick' hi hi'
  exact ⟨hgames.mono fun _ => .inr, hreports⟩

/-- The identity a hundred numbers on. -/
def hundredOn (id : PieceId) : PieceId := .ofNat (id.toNat + 100)

/-- The board of one rule with its pieces named a hundred numbers on, all of them facing up. -/
def renamedOneRuleBoard : Board :=
  oneRuleBoard.mapPieces fun x => { x with id := hundredOn x.id, facing := .up }

/-- Three inputs do the same on it under the new names. With the first of them the baba steps
rightward and faces the same way on both boards, while the flag faces as it did. The second one is
refused, as the baba would have to push its rule over the edge. -/
theorem run_renamed_oneRuleBoard :
    oneRuleBoard.validate = .ok () ∧ renamedOneRuleBoard.validate = .ok () ∧
      renamedOneRuleBoard ≠ oneRuleBoard ∧
      oneRuleBoard.Renamed hundredOn (fun _ => False) renamedOneRuleBoard ∧
      ∃ g g' tick tick' ticks ticks', ofBoard oneRuleBoard {} = .ok g ∧
        ofBoard renamedOneRuleBoard {} = .ok g' ∧
        g.run [.move .right, .move .up, .wait] = .ok ticks ∧
        g'.run [.move .right, .move .up, .wait] = .ok ticks' ∧ ticks.length = 3 ∧
        (∀ (i : Nat) (tick tick' : Game × TickReport),
          ticks[i]? = some tick → ticks'[i]? = some tick' →
          tick.1.Renamed hundredOn (g.HasMoved (ticks.take (i + 1))) tick'.1 ∧
            tick'.2 = tick.2.rename hundredOn) ∧
        ticks[1]? = some tick ∧ ticks'[1]? = some tick' ∧
        tick.1.board.find? (.ofNat 4) = some ⟨.ofNat 4, .thing .baba, ⟨1, 1⟩, .right⟩ ∧
        tick'.1.board.find? (.ofNat 104) = some ⟨.ofNat 104, .thing .baba, ⟨1, 1⟩, .right⟩ ∧
        tick.1.board.find? (.ofNat 5) = some ⟨.ofNat 5, .thing .flag, ⟨1, 2⟩, .right⟩ ∧
        tick'.1.board.find? (.ofNat 105) = some ⟨.ofNat 105, .thing .flag, ⟨1, 2⟩, .up⟩ ∧
        tick'.2.attempts = [⟨.ofNat 104, ⟨1, 1⟩, .refused .edge⟩] := by
  have hvalid : oneRuleBoard.validate = .ok () := by decide
  have hvalid' : renamedOneRuleBoard.validate = .ok () := by decide
  have hrenamed : oneRuleBoard.Renamed hundredOn (fun _ => False) renamedOneRuleBoard :=
    .of_mapPieces (Board.validate_eq_ok_iff.mp hvalid).sized (fun _ => rfl) (fun _ => rfl)
      fun _ => rfl
  obtain ⟨g, g', ticks, ticks', hg, hg', hrun, hrun', hlength, -, hticks⟩ :=
    run_renamed hvalid hvalid' hrenamed {} [.move .right, .move .up, .wait]
  have hreachable : Reachable g := .start (.ofBoard hg)
  have hreachable' : Reachable g' := .start (.ofBoard hg')
  cases (ofBoard_eq_ok hvalid {}).symm.trans hg
  cases (ofBoard_eq_ok hvalid' {}).symm.trans hg'
  -- the first two ticks of either game
  have hfirst := tick_eq hreachable.board_valid (.move .right)
  have hfirst' := tick_eq hreachable'.board_valid (.move .right)
  have hsecond := tick_eq (hreachable.tick hfirst).board_valid (.move .up)
  have hsecond' := tick_eq (hreachable'.tick hfirst').board_valid (.move .up)
  obtain ⟨_, hlater, rfl⟩ := exists_of_run_cons hfirst hrun
  obtain ⟨_, hlater', rfl⟩ := exists_of_run_cons hfirst' hrun'
  obtain ⟨_, -, rfl⟩ := exists_of_run_cons hsecond hlater
  obtain ⟨_, -, rfl⟩ := exists_of_run_cons hsecond' hlater'
  exact ⟨hvalid, hvalid', by decide, hrenamed, _, _, _, _, _, _, hg, hg', hrun, hrun', hlength,
    hticks, rfl, rfl, by decide, by decide, by decide, by decide, by decide⟩

end Game

end WordTiles
