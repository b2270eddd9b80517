import WordTiles.Proofs.Game.Phases
import WordTiles.Proofs.Level

/-!
# Runs of a game

A game starts on a valid board, and each phase of a tick is carried out on the board that the
phase before it leaves. All of these boards are valid and of one size, so no phase ever names a
piece that is not there or a cell off the board, and no tick is refused. What a game says of
its board (the rules, the capabilities, and after the first tick the outcome) is what can be
read from the board (`Game.Consistent`, `Game.Judged`).

The main statement is `Game.run_succeeds`, for runs of any length.
-/

set_option autoImplicit false

namespace WordTiles

namespace Game

variable {g next : Game} {config : Config} {rows cols : Nat}

/-! ## What holds of a game -/

/-- A game that has just been built, on a board or on the board of a level, with its numbers of
rows and columns. -/
inductive Started : (rows cols : Nat) → Game → Prop
  | ofBoard {b : Board} {config : Config} {g : Game} (h : ofBoard b config = .ok g) :
      Started b.rows b.cols g
  | ofLevel {l : Level} {fresh : Nat → PieceId} {config : Config} {g : Game}
      (h : ofLevel l fresh config = .ok g) : Started l.rows l.cols g

/-- The board can be played on and has this many rows and columns, and the rules and
capabilities are those that can be read from it. -/
structure Consistent (g : Game) (rows cols : Nat) : Prop where
  valid : g.board.validate = .ok ()
  rows_eq : g.board.rows = rows
  cols_eq : g.board.cols = cols
  rules_eq : g.rules = g.board.read.rules
  capabilities_eq : g.capabilities = CapabilityTable.build g.rules g.board

theorem Consistent.board_valid (hg : g.Consistent rows cols) : g.board.Valid :=
  Board.validate_eq_ok_iff.mp hg.valid

/-- The outcome is the one that the board decides. -/
def Judged (g : Game) : Prop := g.outcome = g.board.outcome g.capabilities

/-- The game that starts on a board. -/
def opening (b : Board) (config : Config) : Game :=
  ⟨b, config, 0, .ongoing, b.read.rules, CapabilityTable.build b.read.rules b⟩

theorem ofBoard_eq_ok {b : Board} (hvalid : b.validate = .ok ()) (config : Config) :
    ofBoard b config = .ok (opening b config) := by
  rw [ofBoard, hvalid]
  rfl

/-- The first tick is played: a game that has just started is not over. -/
theorem tick_opening {b : Board} (hb : b.Valid) (config : Config) (input : Input) :
    (opening b config).tick input =
      .ok ((opening b config).played input, (opening b config).playReport input) :=
  tick_eq (g := opening b config) hb input

theorem consistent_of_ofBoard {b : Board} (h : ofBoard b config = .ok g) :
    g.Consistent b.rows b.cols ∧ g.outcome = .ongoing := by
  rw [ofBoard] at h
  cases hvalid : b.validate with
  | error fault =>
      rw [hvalid] at h
      cases h
  | ok =>
      rw [hvalid] at h
      cases h
      exact ⟨⟨hvalid, rfl, rfl, rfl, rfl⟩, rfl⟩

/-- A game starts consistent and undecided. -/
theorem Started.consistent (h : Started rows cols g) :
    g.Consistent rows cols ∧ g.outcome = .ongoing := by
  cases h with
  | ofBoard h => exact consistent_of_ofBoard h
  | @ofLevel l fresh config _ h =>
      rw [Game.ofLevel] at h
      cases hload : l.load fresh with
      | error e =>
          rw [hload] at h
          cases h
      | ok b =>
          rw [hload] at h
          obtain ⟨hrows, hcols⟩ := Level.size_of_load hload
          rw [← hrows, ← hcols]
          exact consistent_of_ofBoard h

/-! ## One tick -/

/-- Playing a consistent game on is never refused, and gives a consistent game whose outcome is
that of its board. -/
theorem Consistent.play_ok (hg : g.Consistent rows cols) (input : Input) :
    ∃ next report, g.play input = .ok (next, report) ∧ next.Consistent rows cols ∧
      next.Judged := by
  have hb : g.board.Valid := hg.board_valid
  refine ⟨_, _, play_eq hb input, ⟨Board.validate_eq_ok_iff.mpr (valid_survived hb input), ?_, ?_,
    rfl, rfl⟩, rfl⟩
  · exact (rows_survived g input).trans hg.rows_eq
  · exact (cols_survived g input).trans hg.cols_eq

/-- A tick of a consistent game, judged if it is over, is never refused and gives a consistent
and judged game. -/
theorem Consistent.tick_ok (hg : g.Consistent rows cols)
    (hjudged : g.outcome.isFinal = true → g.Judged) (input : Input) :
    ∃ next report, g.tick input = .ok (next, report) ∧ next.Consistent rows cols ∧
      next.Judged := by
  rw [tick]
  split
  next hfinal => exact ⟨g, g.idleReport, rfl, hg, hjudged hfinal⟩
  · exact hg.play_ok input

/-! ## All ticks -/

/-- A game that was started and has been played for some ticks. -/
inductive Reachable : Game → Prop
  | start {rows cols : Nat} {g : Game} (h : Started rows cols g) : Reachable g
  | tick {g next : Game} {input : Input} {report : TickReport} (hg : Reachable g)
      (h : g.tick input = .ok (next, report)) : Reachable next

/-- Whatever has been played, the game is consistent, and judged if it is over. -/
theorem Reachable.consistent (hg : Reachable g) :
    ∃ rows cols, g.Consistent rows cols ∧ (g.outcome.isFinal = true → g.Judged) := by
  induction hg with
  | @start rows cols g h =>
      obtain ⟨hconsistent, hongoing⟩ := h.consistent
      refine ⟨rows, cols, hconsistent, fun hfinal => ?_⟩
      rw [hongoing] at hfinal
      cases hfinal
  | @tick g next input report _ h ih =>
      obtain ⟨rows, cols, hconsistent, hjudged⟩ := ih
      obtain ⟨next', report', htick, hnext, hnextJudged⟩ := hconsistent.tick_ok hjudged input
      obtain ⟨rfl, rfl⟩ : next' = next ∧ report' = report := by
        simpa using htick.symm.trans h
      exact ⟨rows, cols, hnext, fun _ => hnextJudged⟩

theorem Reachable.board_valid (hg : Reachable g) : g.board.Valid := by
  obtain ⟨rows, cols, hconsistent, -⟩ := hg.consistent
  exact hconsistent.board_valid

theorem run_cons {input : Input} {report : TickReport} (h : g.tick input = .ok (next, report))
    (rest : List Input) :
    g.run (input :: rest) = (next.run rest).map ((next, report) :: ·) := by
  rw [run, h]
  show (next.run rest >>= _) = _
  cases next.run rest <;> rfl

theorem exists_of_run_cons {input : Input} {report : TickReport} {rest : List Input}
    {ticks : List (Game × TickReport)} (h : g.tick input = .ok (next, report))
    (hrun : g.run (input :: rest) = .ok ticks) :
    ∃ later, next.run rest = .ok later ∧ ticks = (next, report) :: later := by
  rw [run_cons h] at hrun
  cases hlater : next.run rest with
  | error e =>
      rw [hlater] at hrun
      cases hrun
  | ok later =>
      rw [hlater] at hrun
      exact ⟨later, rfl, (Except.ok.inj hrun).symm⟩

/-- Each tick of a run, with the game that it started from. -/
def transitions (g : Game) (ticks : List (Game × TickReport)) : List (Game × Game × TickReport) :=
  (g :: ticks.map Prod.fst).zip ticks

theorem map_snd_transitions (g : Game) (ticks : List (Game × TickReport)) :
    (g.transitions ticks).map Prod.snd = ticks :=
  List.map_snd_zip (by simp)

/-- What one tick keeps and does, all ticks of a run do: if every tick of a game with a property
succeeds, gives a game with the property and is related to the game it started from, then every
run of such a game succeeds, and each of its ticks is so related. -/
theorem run_transitions {P : Game → Prop} {R : Game → Game → TickReport → Prop}
    (hstep : ∀ g input, P g →
      ∃ next report, g.tick input = .ok (next, report) ∧ P next ∧ R g next report)
    (hg : P g) (inputs : List Input) :
    ∃ ticks, g.run inputs = .ok ticks ∧ ticks.length = inputs.length ∧
      ∀ t ∈ g.transitions ticks, R t.1 t.2.1 t.2.2 := by
  induction inputs generalizing g with
  | nil => exact ⟨[], rfl, rfl, fun t ht => absurd ht (by simp [transitions])⟩
  | cons input rest ih =>
      obtain ⟨next, report, htick, hnext, hresult⟩ := hstep g input hg
      obtain ⟨ticks, hrun, hlength, hticks⟩ := ih hnext
      refine ⟨(next, report) :: ticks, ?_, by rw [List.length_cons, hlength, List.length_cons],
        List.forall_mem_cons.mpr ⟨hresult, hticks⟩⟩
      rw [run_cons htick, hrun]
      rfl

/-- What one tick keeps, a run keeps: if every tick of a game with a property succeeds, gives a
game with the property and has a result of some kind, then every run of such a game succeeds and
has results of this kind only. -/
theorem run_invariant {P : Game → Prop} {Q : Game × TickReport → Prop}
    (hstep : ∀ g input, P g →
      ∃ next report, g.tick input = .ok (next, report) ∧ P next ∧ Q (next, report))
    (hg : P g) (inputs : List Input) :
    ∃ ticks, g.run inputs = .ok ticks ∧ ticks.length = inputs.length ∧ ∀ tick ∈ ticks, Q tick := by
  obtain ⟨ticks, hrun, hlength, hticks⟩ :=
    run_transitions (R := fun _ next report => Q (next, report)) hstep hg inputs
  refine ⟨ticks, hrun, hlength, fun tick htick => ?_⟩
  rw [← map_snd_transitions g ticks] at htick
  obtain ⟨t, ht, rfl⟩ := List.mem_map.mp htick
  exact hticks t ht

/-- What a tick of two games with the same input keeps, two runs with the same inputs keep: if the
ticks of related games succeed, give related games and have related results, then all runs of such
games succeed and have related results tick by tick. -/
theorem run_related {g' : Game} {R : Game → Game → Prop}
    {Q : Game × TickReport → Game × TickReport → Prop}
    (hstep : ∀ g g' input, R g g' →
      ∃ tick tick', g.tick input = .ok tick ∧ g'.tick input = .ok tick' ∧ R tick.1 tick'.1 ∧
        Q tick tick')
    (hg : R g g') (inputs : List Input) :
    ∃ ticks ticks', g.run inputs = .ok ticks ∧ g'.run inputs = .ok ticks' ∧
      ticks.length = inputs.length ∧ List.Forall₂ Q ticks ticks' := by
  induction inputs generalizing g g' with
  | nil => exact ⟨[], [], rfl, rfl, rfl, .nil⟩
  | cons input rest ih =>
      obtain ⟨tick, tick', htick, htick', hnext, hresult⟩ := hstep g g' input hg
      obtain ⟨ticks, ticks', hrun, hrun', hlength, hticks⟩ := ih hnext
      refine ⟨tick :: ticks, tick' :: ticks', ?_, ?_, by simp [hlength], .cons hresult hticks⟩
      · rw [run_cons htick, hrun]
        rfl
      · rw [run_cons htick', hrun']
        rfl

/-- The run lemma behind `run_succeeds`, for a game that has perhaps been played on before. -/
theorem Consistent.run_ok (hg : g.Consistent rows cols)
    (hjudged : g.outcome.isFinal = true → g.Judged) (inputs : List Input) :
    ∃ ticks, g.run inputs = .ok ticks ∧ ticks.length = inputs.length ∧
      ∀ tick ∈ ticks, tick.1.Consistent rows cols ∧ tick.1.Judged := by
  apply run_invariant (P := fun g => g.Consistent rows cols ∧ (g.outcome.isFinal = true → g.Judged))
    ?_ ⟨hg, hjudged⟩
  rintro g input ⟨hconsistent, hjudged⟩
  obtain ⟨next, report, htick, hnext, hnextJudged⟩ := hconsistent.tick_ok hjudged input
  exact ⟨next, report, htick, ⟨hnext, fun _ => hnextJudged⟩, hnext, hnextJudged⟩

/-- **No tick of a game is ever refused.** A game that was built on a board or a level gives a
new game for every input, however many there are. Before the first tick and after each one its
board can be played on and has the size it started with, the rules are those that can be read
from the board, and the capabilities are those that these rules give on it; after each tick the
outcome is the one that the board decides. -/
theorem run_succeeds {rows cols : Nat} {g : Game} (hg : Started rows cols g)
    (inputs : List Input) :
    g.Consistent rows cols ∧ ∃ ticks, g.run inputs = .ok ticks ∧ ticks.length = inputs.length ∧
      ∀ tick ∈ ticks, tick.1.Consistent rows cols ∧
        tick.1.outcome = tick.1.board.outcome tick.1.capabilities := by
  obtain ⟨hconsistent, hongoing⟩ := hg.consistent
  refine ⟨hconsistent, hconsistent.run_ok ?_ inputs⟩
  intro hfinal
  rw [hongoing] at hfinal
  cases hfinal

/-- Two rows: the first says `BABA IS YOU`, and in the second stand a baba and a flag. -/
def oneRuleBoard : Board :=
  ⟨2, 3, #[[⟨.ofNat 1, .tile "BABA", ⟨0, 0⟩, .right⟩], [⟨.ofNat 2, .tile "IS", ⟨0, 1⟩, .right⟩],
    [⟨.ofNat 3, .tile "YOU", ⟨0, 2⟩, .right⟩], [⟨.ofNat 4, .thing .baba, ⟨1, 0⟩, .right⟩], [],
    [⟨.ofNat 5, .thing .flag, ⟨1, 2⟩, .right⟩]]⟩

/-- A game on these rows has their one rule, and none of three inputs is refused. -/
theorem run_oneRuleBoard :
    oneRuleBoard.validate = .ok () ∧
      ∃ g ticks, ofBoard oneRuleBoard {} = .ok g ∧
        g.run [.move .up, .move .right, .wait] = .ok ticks ∧ ticks.length = 3 ∧
        g.rules = ⟨[⟨[.baba], .is, .action .you⟩]⟩ ∧
        ∀ tick ∈ ticks, tick.1.board.validate = .ok () ∧ tick.1.board.cols = 3 := by
  have hvalid : oneRuleBoard.validate = .ok () := by decide
  have hrules : oneRuleBoard.read.rules = ⟨[⟨[.baba], .is, .action .you⟩]⟩ := by decide
  have hstart : ofBoard oneRuleBoard {} = .ok ⟨oneRuleBoard, {}, 0, .ongoing,
      oneRuleBoard.read.rules, CapabilityTable.build oneRuleBoard.read.rules oneRuleBoard⟩ := by
    rw [ofBoard, hvalid]
  obtain ⟨-, ticks, hrun, hlength, hticks⟩ :=
    run_succeeds (.ofBoard hstart) [.move .up, .move .right, .wait]
  exact ⟨hvalid, _, ticks, hstart, hrun, hlength, hrules, fun tick htick =>
    ⟨(hticks tick htick).1.valid, (hticks tick htick).1.cols_eq⟩⟩

end Game

end WordTiles
