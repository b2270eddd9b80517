import WordTiles.Proofs.Game.Run

/-!
# The end of a game

A tick of a game that is over changes nothing and tells nothing, and a tick of a game that is
not over counts the turn, and tells of the end last if it brings the end (`Game.Advances`,
`tick_advances`). So over a run the outcomes are first undecided and then one and the same
(`outcomes_eq_of_advances`), and the end is told of once (`countP_endsGame_of_advances`).

The main statement is `Game.run_ends_once`.
-/

set_option autoImplicit false

namespace WordTiles

def Event.endsGame : Event → Bool
  | .outcomeReached _ => true
  | _ => false

theorem Outcome.eq_ongoing_of_isFinal {o : Outcome} (h : o.isFinal = false) : o = .ongoing := by
  cases o with
  | ongoing => rfl
  | win => cases h
  | loss => cases h

namespace Game

variable {g next : Game} {report : TickReport} {ticks : List (Game × TickReport)}

/-! ## One tick -/

/-- What a tick makes of a game and says of it, by how the game stands. -/
structure Advances (g next : Game) (report : TickReport) : Prop where
  config_eq : next.config = g.config
  turn_eq : next.turn = if g.outcome.isFinal then g.turn else g.turn + 1
  reported : report.turn = next.turn ∧ report.outcome = next.outcome ∧ report.rules = next.rules
  /-- A game that is over stays exactly as it is, and nothing is reported. -/
  still : g.outcome.isFinal = true → next = g ∧ report.attempts = [] ∧ report.events = []
  /-- The tick that ends the game tells so at its end, and not before. -/
  ends : g.config.recordEvents = true → g.outcome.isFinal = false → next.outcome.isFinal = true →
    ∃ es, report.events = es ++ [.outcomeReached next.outcome] ∧ ∀ e ∈ es, e.endsGame = false
  /-- While the game goes on, no end is told of. -/
  goes_on : next.outcome.isFinal = false → ∀ e ∈ report.events, e.endsGame = false

theorem advances_idle (h : g.outcome.isFinal = true) : g.Advances g g.idleReport where
  config_eq := rfl
  turn_eq := by rw [if_pos h]
  reported := ⟨rfl, rfl, rfl⟩
  still := fun _ => ⟨rfl, rfl, rfl⟩
  ends := by
    intro _ hongoing
    rw [h] at hongoing
    cases hongoing
  goes_on := fun _ e he => absurd he List.not_mem_nil

/-- Before its outcome, a tick does not tell of an end. -/
theorem exists_tickEvents_eq (g : Game) (input : Input) :
    ∃ es, g.tickEvents input = es ++ (Event.ofOutcome? (g.played input).outcome).toList ∧
      ∀ e ∈ es, e.endsGame = false := by
  refine ⟨_, rfl, ?_⟩
  intro e he
  simp only [List.mem_append, List.mem_map, List.mem_filterMap] at he
  rcases he with (((⟨x, -, rfl⟩ | ⟨x, -, rfl⟩) | ⟨x, -, rfl⟩) | ⟨a, -, ha⟩) | ⟨x, -, rfl⟩
  · rfl
  · rfl
  · rfl
  · obtain ⟨reason, rfl⟩ := Event.eq_of_ofAttempt? ha
    rfl
  · rfl

theorem advances_play (h : g.outcome.isFinal = false) (input : Input) :
    g.Advances (g.played input) (g.playReport input) := by
  obtain ⟨es, hevents, hes⟩ := g.exists_tickEvents_eq input
  refine ⟨rfl, by rw [h]; rfl, ⟨rfl, rfl, rfl⟩, ?_, ?_, ?_⟩
  · intro hfinal
    rw [h] at hfinal
    cases hfinal
  · intro hrecord _ hfinal
    rw [Event.ofOutcome?, if_pos hfinal] at hevents
    exact ⟨es, by rw [playReport, if_pos hrecord, hevents]; rfl, hes⟩
  · intro hongoing e he
    have hnone : Event.ofOutcome? (g.played input).outcome = none := by
      rw [Event.ofOutcome?, hongoing]
      rfl
    rw [hnone, Option.toList_none, List.append_nil] at hevents
    rw [playReport] at he
    split at he
    · exact hes e (hevents ▸ he)
    · cases he

theorem tick_advances (hb : g.board.Valid) (input : Input) :
    ∃ next report, g.tick input = .ok (next, report) ∧ g.Advances next report := by
  rw [tick_eq hb]
  cases hfinal : g.outcome.isFinal with
  | true => exact ⟨_, _, rfl, advances_idle hfinal⟩
  | false => exact ⟨_, _, rfl, advances_play hfinal input⟩

/-! ## All ticks -/

/-- After the end every tick gives the same game, and nothing is told of. -/
theorem eq_of_advances (h : ∀ t ∈ g.transitions ticks, t.1.Advances t.2.1 t.2.2)
    (hfinal : g.outcome.isFinal = true) :
    ∀ tick ∈ ticks, tick.2.outcome = g.outcome ∧ tick.2.events = [] := by
  induction ticks generalizing g with
  | nil => exact fun tick htick => absurd htick List.not_mem_nil
  | cons tick rest ih =>
      obtain ⟨hfirst, hrest⟩ := List.forall_mem_cons.mp h
      obtain ⟨hnext, -, hevents⟩ := hfirst.still hfinal
      refine List.forall_mem_cons.mpr ⟨⟨?_, hevents⟩, ?_⟩
      · exact hfirst.reported.2.1.trans (congrArg Game.outcome hnext)
      · have hsame : tick.1 = g := hnext
        rw [← hsame] at hfinal ⊢
        exact ih hrest hfinal

/-- The outcomes are undecided for some ticks, and then one final outcome for the others. -/
theorem outcomes_eq_of_advances (h : ∀ t ∈ g.transitions ticks, t.1.Advances t.2.1 t.2.2) :
    ∃ n m o, o.isFinal = true ∧
      ticks.map (·.2.outcome) = List.replicate n .ongoing ++ List.replicate m o := by
  induction ticks generalizing g with
  | nil => exact ⟨0, 0, .win, rfl, rfl⟩
  | cons tick rest ih =>
      obtain ⟨hfirst, hrest⟩ := List.forall_mem_cons.mp h
      have houtcome : tick.2.outcome = tick.1.outcome := hfirst.reported.2.1
      rw [List.map_cons, houtcome]
      cases hfinal : tick.1.outcome.isFinal with
      | true =>
          refine ⟨0, rest.length + 1, tick.1.outcome, hfinal, ?_⟩
          have hlater : rest.map (·.2.outcome) = List.replicate rest.length tick.1.outcome :=
            List.map_eq_replicate_iff.mpr fun t ht => (eq_of_advances hrest hfinal t ht).1
          rw [hlater]
          rfl
      | false =>
          obtain ⟨n, m, o, ho, houtcomes⟩ := ih hrest
          refine ⟨n + 1, m, o, ho, ?_⟩
          rw [houtcomes, Outcome.eq_ongoing_of_isFinal hfinal]
          rfl

/-- The end of a game that is not over yet is told of once if it comes, and otherwise never. -/
theorem countP_endsGame_of_advances
    (h : ∀ t ∈ g.transitions ticks, t.1.Advances t.2.1 t.2.2)
    (hrecord : g.config.recordEvents = true) (hongoing : g.outcome.isFinal = false) :
    (ticks.flatMap (·.2.events)).countP Event.endsGame =
      if ticks.any (·.2.outcome.isFinal) then 1 else 0 := by
  induction ticks generalizing g with
  | nil => rfl
  | cons tick rest ih =>
      obtain ⟨hfirst, hrest⟩ := List.forall_mem_cons.mp h
      have houtcome : tick.2.outcome = tick.1.outcome := hfirst.reported.2.1
      have hconfig : tick.1.config = g.config := hfirst.config_eq
      rw [List.flatMap_cons, List.countP_append, List.any_cons, houtcome]
      cases hfinal : tick.1.outcome.isFinal with
      -- this is the tick that ends the game: it tells so once, and the others tell nothing
      | true =>
          obtain ⟨es, hevents, hes⟩ := hfirst.ends hrecord hongoing hfinal
          have hlater : rest.flatMap (·.2.events) = [] :=
            List.flatMap_eq_nil_iff.mpr fun t ht => (eq_of_advances hrest hfinal t ht).2
          rw [hevents, hlater, List.countP_append, Event.countP_eq_zero hes]
          rfl
      | false =>
          rw [Event.countP_eq_zero (hfirst.goes_on hfinal), Nat.zero_add, Bool.false_or]
          exact ih hrest (hconfig ▸ hrecord) hfinal

/-- **A game ends once, and then it is over.** Whatever a game is started on and whatever the
inputs, no tick is refused. Each tick of a game that is not over counts one turn; each tick of one
that is over leaves the game exactly as it is, reports its turn, outcome and rules, and no attempt
and no event. So the outcomes are undecided for some ticks, and one win or loss for all others. If
events are recorded, the end is told of exactly once if it comes, with its outcome, by the last
event of the tick that brings it; and otherwise never. -/
theorem run_ends_once {rows cols : Nat} {g : Game} (hg : Started rows cols g)
    (inputs : List Input) :
    ∃ ticks, g.run inputs = .ok ticks ∧ ticks.length = inputs.length ∧
      (∀ t ∈ g.transitions ticks, t.1.Advances t.2.1 t.2.2) ∧
      (∃ n m o, o.isFinal = true ∧
        ticks.map (·.2.outcome) = List.replicate n .ongoing ++ List.replicate m o) ∧
      (g.config.recordEvents = true →
        (ticks.flatMap (·.2.events)).countP Event.endsGame =
          if ticks.any (·.2.outcome.isFinal) then 1 else 0) := by
  have hongoing : g.outcome.isFinal = false := by rw [hg.consistent.2]; rfl
  obtain ⟨ticks, hrun, hlength, hadvances⟩ :=
    run_transitions (P := Reachable) (R := Advances) (fun g' input hg' => by
      obtain ⟨next, report, htick, hadvance⟩ := tick_advances hg'.board_valid input
      exact ⟨next, report, htick, hg'.tick htick, hadvance⟩) (.start hg) inputs
  exact ⟨ticks, hrun, hlength, hadvances, outcomes_eq_of_advances hadvances,
    fun hrecord => countP_endsGame_of_advances hadvances hrecord hongoing⟩

/-- Two rows that say `BABA IS YOU` and `FLAG IS WIN`, and below them a baba and a flag. -/
def nearFlagBoard : Board :=
  ⟨3, 3, #[[⟨.ofNat 1, .tile "BABA", ⟨0, 0⟩, .right⟩], [⟨.ofNat 2, .tile "IS", ⟨0, 1⟩, .right⟩],
    [⟨.ofNat 3, .tile "YOU", ⟨0, 2⟩, .right⟩],
    [⟨.ofNat 4, .tile "FLAG", ⟨1, 0⟩, .right⟩], [⟨.ofNat 5, .tile "IS", ⟨1, 1⟩, .right⟩],
    [⟨.ofNat 6, .tile "WIN", ⟨1, 2⟩, .right⟩],
    [⟨.ofNat 7, .thing .baba, ⟨2, 0⟩, .right⟩], [], [⟨.ofNat 8, .thing .flag, ⟨2, 2⟩, .right⟩]]⟩

/-- The second step wins; the third input changes nothing, and the win is told of once. -/
theorem run_ends_nearFlagBoard :
    nearFlagBoard.validate = .ok () ∧
      ∃ g ticks, ofBoard nearFlagBoard {} = .ok g ∧
        g.run [.move .right, .move .right, .move .up] = .ok ticks ∧
        ticks.map (·.2.outcome) = [.ongoing, .win, .win] ∧ ticks.map (·.2.turn) = [1, 2, 2] ∧
        (ticks.flatMap (·.2.events)).countP Event.endsGame = 1 := by
  have hvalid : nearFlagBoard.validate = .ok () := by decide
  have hstart := ofBoard_eq_ok hvalid {}
  obtain ⟨ticks, hrun, -, -, -, hends⟩ :=
    run_ends_once (.ofBoard hstart) [.move .right, .move .right, .move .up]
  have hcount := hends rfl
  -- the game after each of the first two ticks, of which the second is over
  have hreachable : Reachable (opening nearFlagBoard {}) := .start (.ofBoard hstart)
  have hfirst := tick_eq hreachable.board_valid (.move .right)
  have hreachable' := hreachable.tick hfirst
  have hsecond := tick_eq hreachable'.board_valid (.move .right)
  have hthird := tick_eq (hreachable'.tick hsecond).board_valid (.move .up)
  obtain ⟨_, hrun', rfl⟩ := exists_of_run_cons hfirst hrun
  obtain ⟨_, hrun'', rfl⟩ := exists_of_run_cons hsecond hrun'
  obtain ⟨_, hnil, rfl⟩ := exists_of_run_cons hthird hrun''
  cases hnil
  refine ⟨hvalid, _, _, hstart, hrun, by decide, by decide, ?_⟩
  rw [hcount]
  decide

end Game

end WordTiles
