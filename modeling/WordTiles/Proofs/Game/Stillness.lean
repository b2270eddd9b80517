import WordTiles.Proofs.Capability
import WordTiles.Proofs.Game.Run

/-!
# Games without rules

Where no rule can be read, no noun has a capability. Tiles can still be pushed, but nobody
pushes: no piece is controllable, so no move begins; nothing sinks or melts; and no cell
decides the game. So a tick leaves the board as it is, and as the board is read again after
the tick, there are no rules then either. The main statement is `Game.run_without_rules`.
-/

set_option autoImplicit false

namespace WordTiles

variable {t : CapabilityTable} {rs : RuleSet}

/-! ## Phases without rules -/

theorem Transformation.ofPiece?_of_no_rules (hrules : rs.rules = []) (x : Piece) :
    ofPiece? rs x = none := by
  have hbecomes : ∀ n, rs.becomes? n = none := by
    intro n
    simp [RuleSet.becomes?, RuleSet.transformations, hrules]
  rw [ofPiece?]
  cases x.kind with
  | thing n =>
      show (rs.becomes? n).map _ = none
      rw [hbecomes n]
      rfl
  | tile w => rfl

theorem Destruction.cause?_of_unpowered (ht : t.Unpowered) (level : Stack) (x : Piece) :
    cause? t level x = none := by
  have hsink : level.any (fun o => (t.ofPiece o).sinking) = false :=
    ht.any_has_eq_false level (a := .sink) (by decide)
  have hhot : level.any (fun o => (t.ofPiece o).hot) = false :=
    ht.any_has_eq_false level (a := .hot) (by decide)
  rw [cause?, hsink, hhot]
  rfl

theorem Outcome.ofCell_of_unpowered (ht : t.Unpowered) (s : Stack) : ofCell t s = .ongoing := by
  have hcontrol : s.any (fun x => (t.ofPiece x).controllable) = false :=
    ht.any_has_eq_false s (a := .you) (by decide)
  rw [ofCell, hcontrol]
  rfl

namespace Board

theorem controlled_of_unpowered (ht : t.Unpowered) (b : Board) : b.controlled t = [] := by
  rw [controlled, List.flatMap_eq_nil_iff]
  intro p _
  rw [List.map_eq_nil_iff, List.filter_eq_nil_iff]
  rintro ⟨x, i⟩ _
  have hcontrol : (t.ofPiece x).controllable = false :=
    ht.has_eq_false x (a := .you) (by decide)
  simp [hcontrol]

/-- Nobody tries to move, and nothing is moved. -/
theorem plan_of_unpowered (ht : t.Unpowered) (b : Board) (d : Direction) (limit : Nat) :
    b.plan t d limit = ⟨some d, [], []⟩ := by
  rw [plan, controlled_of_unpowered ht]
  rfl

theorem destructions_of_unpowered (ht : t.Unpowered) (b : Board) : b.destructions t = [] := by
  rw [destructions, List.flatMap_eq_nil_iff]
  intro p _
  rw [Destruction.ofCell, List.flatMap_eq_nil_iff]
  intro floating _
  rw [Destruction.ofLevel, List.filterMap_eq_nil_iff]
  intro x _
  rw [Destruction.cause?_of_unpowered ht]
  rfl

theorem outcome_of_unpowered (ht : t.Unpowered) (b : Board) : b.outcome t = .ongoing := by
  rw [outcome]
  induction b.cells.toList with
  | nil => rfl
  | cons s rest ih =>
      rw [List.map_cons, List.foldl_cons, Outcome.ofCell_of_unpowered ht]
      exact ih

end Board

namespace Game

variable {g : Game}

/-! ## A tick without rules -/

/-- What is left of a tick of a game whose board is `b`: nothing but the report of what cannot be
read. -/
structure Uneventful (b : Board) (next : Game) (report : TickReport) : Prop where
  board_eq : next.board = b
  rules_eq : next.rules = ⟨[]⟩
  inert : ∀ n, (next.capabilities.get n).isInert = true
  ongoing : next.outcome = .ongoing
  no_attempts : report.attempts = []
  reported_rules : report.rules = ⟨[]⟩
  reported_outcome : report.outcome = .ongoing
  only_rejected : ∀ e ∈ report.events, ∃ origin direction words reason,
    e = .ruleRejected origin direction words reason

section

variable (hrules : g.board.read.rules = ⟨[]⟩)
include hrules

theorem tickTable_unpowered : g.tickTable.Unpowered :=
  CapabilityTable.unpowered_build (congrArg RuleSet.rules hrules) g.changed

theorem transformations_of_no_rules : g.board.transformations g.board.read.rules = [] := by
  rw [Board.transformations, List.filterMap_eq_nil_iff]
  exact fun x _ => Transformation.ofPiece?_of_no_rules (congrArg RuleSet.rules hrules) x

theorem changed_of_no_rules (hb : g.board.Valid) : g.changed = g.board := by
  have hkept : ∀ x ∈ g.board.pieces, x.recast g.board.read.rules = x := fun x _ =>
    Transformation.recast_of_ofPiece?_eq_none
      (Transformation.ofPiece?_of_no_rules (congrArg RuleSet.rules hrules) x)
  rw [changed, Board.mapPieces_congr hb.sized hkept]
  exact Board.mapPieces_id hb.sized

/-- With an input that is a direction there is a plan, of nothing. -/
theorem movePlan_of_no_rules (d : Direction) : g.movePlan (.move d) = ⟨some d, [], []⟩ :=
  Board.plan_of_unpowered (tickTable_unpowered hrules) g.changed d _

theorem attempts_of_no_rules (input : Input) : (g.movePlan input).attempts = [] := by
  cases input with
  | move d => rw [movePlan_of_no_rules hrules]
  | wait => rfl

theorem steps_of_no_rules (input : Input) : g.steps input = [] := by
  cases input with
  | move d =>
      rw [steps, movePlan_of_no_rules hrules, Mover.inOrder, List.mergeSort_nil]
      rfl
  | wait => rfl

theorem shifted_of_no_rules (hb : g.board.Valid) (input : Input) : g.shifted input = g.board := by
  have hchanged := changed_of_no_rules hrules hb
  cases input with
  | move d =>
      rw [shifted, movePlan_of_no_rules hrules, hchanged]
      exact Board.shift_false hb.sized d
  | wait => exact hchanged

theorem destroyed_of_no_rules (input : Input) : g.destroyed input = [] := by
  rw [destroyed, Board.destructions_of_unpowered (tickTable_unpowered hrules), ite_self]

/-- A board without rules is the one that a tick leaves behind. -/
theorem survived_of_no_rules (hb : g.board.Valid) (input : Input) :
    g.survived input = g.board := by
  rw [survived, shifted_of_no_rules hrules hb, destroyed_of_no_rules hrules]
  exact Board.filterPieces_true hb.sized

/-- So it is read as it was. -/
theorem rules_played_of_no_rules (hb : g.board.Valid) (input : Input) :
    (g.played input).rules = ⟨[]⟩ := by
  show (g.survived input).read.rules = ⟨[]⟩
  rw [survived_of_no_rules hrules hb, hrules]

theorem tickEvents_of_no_rules (input : Input) (houtcome : (g.played input).outcome = .ongoing) :
    g.tickEvents input = g.board.read.rejected.map Event.ofRejectedRun := by
  rw [tickEvents, transformations_of_no_rules hrules, steps_of_no_rules hrules,
    attempts_of_no_rules hrules, destroyed_of_no_rules hrules, houtcome]
  simp [Event.ofOutcome?, Outcome.isFinal]

theorem uneventful_play (hb : g.board.Valid) (input : Input) :
    Uneventful g.board (g.played input) (g.playReport input) := by
  have hnext := rules_played_of_no_rules hrules hb input
  have hunpowered : (g.played input).capabilities.Unpowered :=
    CapabilityTable.unpowered_build (congrArg RuleSet.rules hnext) (g.survived input)
  have houtcome : (g.played input).outcome = .ongoing := Board.outcome_of_unpowered hunpowered _
  exact {
    board_eq := survived_of_no_rules hrules hb input
    rules_eq := hnext
    inert := fun n => Capabilities.isInert_iff.mpr (hunpowered n)
    ongoing := houtcome
    no_attempts := attempts_of_no_rules hrules input
    reported_rules := hnext
    reported_outcome := houtcome
    only_rejected := by
      intro e he
      rw [playReport] at he
      dsimp only at he
      split at he
      · rw [tickEvents_of_no_rules hrules input houtcome] at he
        obtain ⟨r, -, rfl⟩ := List.mem_map.mp he
        exact ⟨_, _, _, _, rfl⟩
      · cases he }

end

/-- The capabilities of a game without rules are those that no rule gives. -/
theorem Consistent.unpowered {rows cols : Nat} (hg : g.Consistent rows cols)
    (hrules : g.rules = ⟨[]⟩) : g.capabilities.Unpowered := by
  rw [hg.capabilities_eq]
  exact CapabilityTable.unpowered_build (congrArg RuleSet.rules hrules) g.board

/-- A tick without rules only reports what cannot be read, and leaves a game without rules. -/
theorem Reachable.tick_without_rules (hg : Reachable g) (hrules : g.rules = ⟨[]⟩)
    (input : Input) :
    ∃ next report, g.tick input = .ok (next, report) ∧ Uneventful g.board next report := by
  obtain ⟨rows, cols, hconsistent, hjudged⟩ := hg.consistent
  have hb := hconsistent.board_valid
  have hread : g.board.read.rules = ⟨[]⟩ := hconsistent.rules_eq.symm.trans hrules
  -- the game is not over, for an ending would have been judged on this board
  have hongoing : g.outcome.isFinal = false := by
    cases hfinal : g.outcome.isFinal with
    | false => rfl
    | true =>
        have houtcome := hjudged hfinal
        rw [Judged, Board.outcome_of_unpowered (hconsistent.unpowered hrules)] at houtcome
        rw [houtcome] at hfinal
        cases hfinal
  rw [tick_eq hb, hongoing]
  exact ⟨g.played input, g.playReport input, rfl, uneventful_play hread hb input⟩

/-! ## All ticks without rules -/

/-- **A board without rules is dead for ever.** Whatever was played before, if no rule can be
read then no noun has a capability, and however many inputs follow, each tick leaves the board
exactly as it was and reports no attempt, no rule, no end of the game, and no event but that
some text cannot be read. -/
theorem run_without_rules {g : Game} (hg : Reachable g) (hrules : g.rules = ⟨[]⟩)
    (inputs : List Input) :
    (∀ n, (g.capabilities.get n).isInert = true) ∧
      ∃ ticks, g.run inputs = .ok ticks ∧ ticks.length = inputs.length ∧
        ∀ tick ∈ ticks, Uneventful g.board tick.1 tick.2 := by
  obtain ⟨rows, cols, hconsistent, -⟩ := hg.consistent
  constructor
  · intro n
    exact Capabilities.isInert_iff.mpr (hconsistent.unpowered hrules n)
  -- the board stays this one, so there are still no rules on it
  · apply run_invariant (P := fun g' => Reachable g' ∧ g'.rules = ⟨[]⟩ ∧ g'.board = g.board)
      (Q := fun tick => Uneventful g.board tick.1 tick.2) ?_ ⟨hg, hrules, rfl⟩
    rintro g' input ⟨hg', hrules', hboard⟩
    obtain ⟨next, report, htick, hnext⟩ := hg'.tick_without_rules hrules' input
    rw [hboard] at hnext
    exact ⟨next, report, htick, ⟨hg'.tick htick, hnext.rules_eq, hnext.board_eq⟩, hnext⟩

/-- A row that says `BABA IS YOU`, and a baba below the middle word. -/
def brittleBoard : Board :=
  ⟨3, 3, #[[], [], [],
    [⟨.ofNat 1, .tile "BABA", ⟨1, 0⟩, .right⟩], [⟨.ofNat 2, .tile "IS", ⟨1, 1⟩, .right⟩],
    [⟨.ofNat 3, .tile "YOU", ⟨1, 2⟩, .right⟩],
    [], [⟨.ofNat 4, .thing .baba, ⟨2, 1⟩, .right⟩], []]⟩

/-- The baba pushes the verb out of the row, and then nothing happens any more. -/
theorem run_brittleBoard :
    brittleBoard.validate = .ok () ∧
      ∃ start report g ticks, ofBoard brittleBoard {} = .ok start ∧
        start.tick (.move .up) = .ok (g, report) ∧ Reachable g ∧ start.rules ≠ ⟨[]⟩ ∧
        g.rules = ⟨[]⟩ ∧ g.run [.move .down, .wait, .move .up] = .ok ticks ∧ ticks.length = 3 ∧
        ∀ tick ∈ ticks, tick.1.board.stackAt ⟨1, 1⟩ = [⟨.ofNat 4, .thing .baba, ⟨1, 1⟩, .up⟩] := by
  have hvalid : brittleBoard.validate = .ok () := by decide
  have hstart := ofBoard_eq_ok hvalid {}
  have hreachable : Reachable (opening brittleBoard {}) := .start (.ofBoard hstart)
  have htick := tick_eq hreachable.board_valid (.move .up)
  have hg := hreachable.tick htick
  obtain ⟨-, ticks, hrun, hlength, hticks⟩ :=
    run_without_rules hg (by decide) [.move .down, .wait, .move .up]
  refine ⟨hvalid, _, _, _, ticks, hstart, htick, hg, by decide, by decide, hrun, hlength, ?_⟩
  intro tick htick
  rw [(hticks tick htick).board_eq]
  decide

end Game

end WordTiles
