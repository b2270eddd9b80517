import WordTiles.Game
import WordTiles.Proofs.Hazard
import WordTiles.Proofs.Move.Resolution
import WordTiles.Proofs.Transformation

/-!
# The phases of a tick

On a valid board no phase of a tick is refused, and each is one change of the whole board. The
boards between the phases, and what is reported of each, have a name here:

* `Game.changed`, on which things have changed as the rules say;
* `Game.shifted`, on which pieces have moved;
* `Game.survived`, from which the hazards have taken what they destroy.

The main statement is `Game.play_eq`: what a tick of a game that is not over gives, said by
these boards. What a tick does to a game is read off it, and no other proof opens the phases.
-/

set_option autoImplicit false

namespace WordTiles

/-- A log that records has all events, in the order in which they were added. -/
theorem EventLog.events_record (log : EventLog) (es : List Event) :
    (log.record es).events = log.events ++ if log.recording then es else [] := by
  rw [record]
  split <;> simp

theorem EventLog.recording_record (log : EventLog) (es : List Event) :
    (log.record es).recording = log.recording := by
  rw [record]
  split <;> rfl

namespace Event

variable {a : Attempt} {o : Outcome} {e : Event}

theorem eq_of_ofAttempt? (h : ofAttempt? a = some e) :
    ∃ reason, e = .moveRejected a.piece a.position reason := by
  rw [ofAttempt?] at h
  split at h
  · cases h
  next reason _ =>
    cases h
    exact ⟨reason, rfl⟩

theorem countP_eq_zero {es : List Event} {p : Event → Bool} (h : ∀ e ∈ es, p e = false) :
    es.countP p = 0 := by
  rw [List.countP_eq_zero]
  intro e he
  rw [h e he]
  exact Bool.false_ne_true

theorem eq_of_mem_ofOutcome? (h : e ∈ (ofOutcome? o).toList) : e = .outcomeReached o := by
  rw [ofOutcome?] at h
  split at h
  · exact List.mem_singleton.mp h
  · cases h

end Event

namespace Game

variable {g : Game}

/-! ## Boards between the phases -/

/-- The board on which things have changed as the rules say. -/
def changed (g : Game) : Board := g.board.mapPieces (·.recast g.board.read.rules)

/-- The capabilities that hold during a tick: those of the rules that were read before it, on
the changed board. -/
def tickTable (g : Game) : CapabilityTable := CapabilityTable.build g.board.read.rules g.changed

def movePlan (g : Game) : Input → MovePlan
  | .move d => g.changed.plan g.tickTable d (g.config.pushLimit.getD g.changed.defaultLimit)
  | .wait => MovePlan.empty

def steps (g : Game) : Input → List Step
  | .move d => (Mover.inOrder d (g.movePlan (.move d)).movers).map (Mover.stepTo d)
  | .wait => []

/-- The board on which the pieces have moved. -/
def shifted (g : Game) : Input → Board
  | .move d => g.changed.shift d (g.movePlan (.move d)).moves
  | .wait => g.changed

/-- What the hazards of a tick destroy. -/
def destroyed (g : Game) (input : Input) : List Destruction :=
  if g.config.hazards then (g.shifted input).destructions g.tickTable else []

/-- The board without what the hazards have destroyed. -/
def survived (g : Game) (input : Input) : Board :=
  (g.shifted input).filterPieces fun x => !((g.destroyed input).map (·.piece)).contains x.id

/-! ## The game after a tick -/

/-- A game with a board from which everything else is read. -/
def ofPlayed (b : Board) (config : Config) (turn : Nat) : Game :=
  let capabilities := CapabilityTable.build b.read.rules b
  ⟨b, config, turn, b.outcome capabilities, b.read.rules, capabilities⟩

/-- The game after a tick that plays it on. -/
def played (g : Game) (input : Input) : Game := ofPlayed (g.survived input) g.config (g.turn + 1)

/-- The events of a tick, if they are recorded: those of the rules read, of the changes, of the
move, of the hazards, and of the outcome. -/
def tickEvents (g : Game) (input : Input) : List Event :=
  g.board.read.rejected.map Event.ofRejectedRun ++
    (g.board.transformations g.board.read.rules).map Event.ofTransformation ++
    (g.steps input).map Event.ofStep ++
    (g.movePlan input).attempts.filterMap Event.ofAttempt? ++
    (g.destroyed input).map Event.ofDestruction ++
    (Event.ofOutcome? (g.played input).outcome).toList

/-- The report of a tick that plays the game on. -/
def playReport (g : Game) (input : Input) : TickReport where
  turn := (g.played input).turn
  outcome := (g.played input).outcome
  rules := (g.played input).rules
  attempts := (g.movePlan input).attempts
  events := if g.config.recordEvents then g.tickEvents input else []

/-! ## Valid boards between the phases -/

theorem valid_changed (hb : g.board.Valid) : g.changed.Valid := hb.mapPieces_recast _

theorem valid_shifted (hb : g.board.Valid) (input : Input) : (g.shifted input).Valid := by
  cases input with
  | move d => exact (valid_changed hb).shift d _
  | wait => exact valid_changed hb

theorem valid_survived (hb : g.board.Valid) (input : Input) : (g.survived input).Valid :=
  (valid_shifted hb input).filterPieces _

theorem rows_survived (g : Game) (input : Input) : (g.survived input).rows = g.board.rows := by
  cases input <;> rfl

theorem cols_survived (g : Game) (input : Input) : (g.survived input).cols = g.board.cols := by
  cases input <;> rfl

/-! ## What the cells hold -/

/-- A change leaves every piece in its cell. -/
theorem holds_changed_iff (hb : g.board.Valid) {p : Position} {id : PieceId} :
    g.changed.Holds p id ↔ g.board.Holds p id := by
  rw [Board.Holds, changed, Board.stackAt_mapPieces hb.sized]
  constructor
  · rintro ⟨y, hy, rfl⟩
    obtain ⟨x, hx, rfl⟩ := List.mem_map.mp hy
    exact ⟨x, hx, rfl⟩
  · rintro ⟨x, hx, rfl⟩
    exact ⟨_, List.mem_map_of_mem hx, rfl⟩

/-- What a cell holds after the hazards, it held before them, and it was spared. -/
theorem holds_survived_iff (hb : g.board.Valid) {input : Input} {p : Position} {id : PieceId} :
    (g.survived input).Holds p id ↔
      (g.shifted input).Holds p id ∧ id ∉ (g.destroyed input).map (·.piece) := by
  rw [Board.Holds, survived, Board.stackAt_filterPieces (valid_shifted hb input).sized]
  constructor
  · rintro ⟨x, hx, rfl⟩
    obtain ⟨hx, hspared⟩ := List.mem_filter.mp hx
    exact ⟨⟨x, hx, rfl⟩, by simpa using hspared⟩
  · rintro ⟨⟨x, hx, rfl⟩, hspared⟩
    exact ⟨x, List.mem_filter.mpr ⟨hx, by simpa using hspared⟩, rfl⟩

/-! ## Two games in step -/

section Congruences

variable {g' : Game} {b b' : Board} {config : Config} {turn : Nat}

/-- Of a board, the limit on push chains depends on the rows and columns together. -/
theorem limit_congr (hconfig : g'.config = g.config)
    (hsize : g'.board.rows + g'.board.cols = g.board.rows + g.board.cols) :
    g'.config.pushLimit.getD g'.changed.defaultLimit =
      g.config.pushLimit.getD g.changed.defaultLimit := by
  have hlimit : g'.changed.defaultLimit = g.changed.defaultLimit := hsize
  rw [hconfig, hlimit]

/-- Pieces that the hazards would destroy together are spared together. -/
theorem spared_congr {input input' : Input} {id id' : PieceId} (hconfig : g'.config = g.config)
    (htable : g'.tickTable = g.tickTable)
    (h : id' ∈ ((g'.shifted input').destructions g.tickTable).map (·.piece) ↔
      id ∈ ((g.shifted input).destructions g.tickTable).map (·.piece)) :
    (!((g'.destroyed input').map (·.piece)).contains id') =
      !((g.destroyed input).map (·.piece)).contains id := by
  rw [← List.contains_iff_mem, ← List.contains_iff_mem, ← Bool.eq_iff_iff] at h
  rw [destroyed, destroyed, hconfig, htable]
  split
  · rw [h]
  · rfl

/-- Of a board, the capabilities and the outcome after a tick depend on what can be read from it
and on what rules and capabilities make of it. -/
theorem ofPlayed_congr (hread : b'.read = b.read)
    (hbuild : ∀ rs, CapabilityTable.build rs b' = CapabilityTable.build rs b)
    (houtcome : ∀ t, b'.outcome t = b.outcome t) :
    (ofPlayed b' config turn).capabilities = (ofPlayed b config turn).capabilities ∧
      (ofPlayed b' config turn).outcome = (ofPlayed b config turn).outcome := by
  have htable : CapabilityTable.build b'.read.rules b' = CapabilityTable.build b.read.rules b := by
    rw [hread, hbuild]
  refine ⟨htable, ?_⟩
  show b'.outcome (CapabilityTable.build b'.read.rules b') = _
  rw [htable, houtcome]
  rfl

end Congruences

/-! ## The phases are carried out -/

theorem resolveInput_eq (hb : g.board.Valid) (input : Input) :
    resolveInput g.changed g.tickTable g.config.pushLimit input =
      .ok (g.shifted input, ⟨(g.movePlan input).attempts, g.steps input⟩) := by
  cases input with
  | move d => exact (valid_changed hb).resolveMove_eq g.tickTable d g.config.pushLimit
  | wait => rfl

theorem resolveHazards_eq (hb : g.board.Valid) (input : Input) :
    resolveHazards g.config (g.shifted input) g.tickTable =
      .ok (g.survived input, g.destroyed input) := by
  have hshifted := valid_shifted hb input
  rw [resolveHazards, survived, destroyed]
  split
  · exact hshifted.resolveHazards_eq g.tickTable
  · simp only [List.map_nil, List.contains_nil, Bool.not_false]
    rw [Board.filterPieces_true hshifted.sized]

/-- **What a tick does.** A game on a valid board that is not over is played on through all
phases, and none of them is refused. -/
theorem play_eq (hb : g.board.Valid) (input : Input) :
    g.play input = .ok (g.played input, g.playReport input) := by
  rw [play, hb.transform_eq]
  show (resolveInput g.changed g.tickTable g.config.pushLimit input >>= _) = _
  rw [resolveInput_eq hb]
  show (resolveHazards g.config (g.shifted input) g.tickTable >>= _) = _
  rw [resolveHazards_eq hb]
  show Except.ok _ = _
  congr 2
  simp only [playReport, tickEvents, EventLog.events_record, EventLog.recording_record,
    EventLog.start]
  cases g.config.recordEvents with
  | true =>
      simp only [if_true, List.nil_append]
      rfl
  | false => rfl

/-- What a tick of a game does: nothing if it is over, and otherwise all phases. -/
theorem tick_eq (hb : g.board.Valid) (input : Input) :
    g.tick input =
      .ok (if g.outcome.isFinal then (g, g.idleReport)
        else (g.played input, g.playReport input)) := by
  rw [tick]
  split
  · rfl
  · exact play_eq hb input

end Game

end WordTiles
