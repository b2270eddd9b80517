import WordTiles.Proofs.Board.Text
import WordTiles.Proofs.Game.Run

/-!
# Rules over a tick

The rules of a game are read from its tiles alone. So whatever a tick does to things (changes
their nouns, moves them onto tiles and off them, destroys them), the rules stay the same list as
long as every tile stays in its cell. The main statement is `Game.rules_depend_on_text`.
-/

set_option autoImplicit false

namespace WordTiles

/-- Every tile of the first board stands in its cell on the second board, too: none has moved,
and none is gone. -/
def Board.KeepsTiles (b b' : Board) : Prop :=
  ∀ x ∈ b.pieces, x.kind.isTile = true → b'.Holds x.position x.id

/-- The identities of the things of a board. -/
def Board.thingIds (b : Board) : List PieceId :=
  (b.pieces.filter fun x => !x.kind.isTile).map (·.id)

namespace Board

variable {b : Board}

/-- A piece that is not among the things of its board is a tile. -/
theorem Valid.mem_thingIds_iff (hb : b.Valid) {x : Piece} (hx : x ∈ b.pieces) :
    x.id ∈ b.thingIds ↔ x.kind.isTile = false := by
  constructor
  · intro hid
    obtain ⟨y, hy, hyx⟩ := List.mem_map.mp hid
    obtain ⟨hy, hthing⟩ := List.mem_filter.mp hy
    rw [← Stack.eq_of_id_eq hb.ids_nodup hy hx hyx]
    simpa using hthing
  · intro hthing
    exact List.mem_map.mpr ⟨x, List.mem_filter.mpr ⟨hx, by simp [hthing]⟩, rfl⟩

/-- Removing all things leaves the tiles, and nothing else. -/
theorem Valid.removeAll_thingIds (hb : b.Valid) :
    b.removeAll b.thingIds = .ok (b.filterPieces (·.kind.isTile)) := by
  have hids : ∀ id ∈ b.thingIds, ∃ x ∈ b.pieces, x.id = id := by
    intro id hid
    obtain ⟨x, hx, rfl⟩ := List.mem_map.mp hid
    exact ⟨x, (List.mem_filter.mp hx).1, rfl⟩
  rw [hb.removeAll_eq hids ((List.filter_sublist.map _).nodup hb.ids_nodup)]
  congr 1
  apply filterPieces_congr hb.sized
  intro x hx
  have hiff := hb.mem_thingIds_iff hx
  cases htile : x.kind.isTile with
  | true => simp [hiff, htile]
  | false => simp [hiff, htile]

end Board

namespace Game

variable {g : Game} {input : Input} {x : Piece}

/-! ## The tiles through the phases of a tick -/

theorem tiles_changed (hb : g.board.Valid) (p : Position) :
    (g.changed.stackAt p).tiles = (g.board.stackAt p).tiles := by
  apply Board.tiles_mapPieces hb.sized
  · rintro ⟨id, kind, position, facing⟩
    cases kind <;> rfl
  · rintro ⟨id, kind, position, facing⟩ htile
    cases kind with
    | thing n => cases htile
    | tile w => rfl

theorem mem_board_of_tile (hb : g.board.Valid) (hx : x ∈ g.changed.pieces)
    (htile : x.kind.isTile = true) : x ∈ g.board.pieces := by
  obtain ⟨p, hp⟩ := (Board.mem_pieces_iff (valid_changed hb).sized).mp hx
  have hmem : x ∈ (g.changed.stackAt p).tiles := Stack.mem_tiles_iff.mpr ⟨hp, htile⟩
  rw [tiles_changed hb] at hmem
  exact (Board.mem_pieces_iff hb.sized).mpr ⟨p, (Stack.mem_tiles_iff.mp hmem).1⟩

/-- When every tile is in its cell after the move, the move has brought no tile to a cell. -/
theorem tiles_shifted (hb : g.board.Valid) (hkeeps : g.board.KeepsTiles (g.shifted input))
    (p : Position) : ((g.shifted input).stackAt p).tiles = (g.board.stackAt p).tiles := by
  rw [← tiles_changed hb p]
  cases input with
  | move d =>
      apply (valid_changed hb).tiles_shift
      intro x hx htile
      exact (valid_changed hb).not_moving_of_holds ((valid_changed hb).mem_stackAt_of_mem_pieces hx)
        (hkeeps x (mem_board_of_tile hb hx htile) htile)
  | wait => rfl

theorem tiles_survived (hb : g.board.Valid) (hkeeps : g.board.KeepsTiles (g.survived input))
    (p : Position) : ((g.survived input).stackAt p).tiles = (g.board.stackAt p).tiles := by
  have hshifted : ∀ q, ((g.shifted input).stackAt q).tiles = (g.board.stackAt q).tiles :=
    tiles_shifted hb fun x hx htile => ((holds_survived_iff hb).mp (hkeeps x hx htile)).1
  rw [← hshifted p]
  apply Board.tiles_filterPieces (valid_shifted hb input).sized
  intro x hx htile
  obtain ⟨q, hq⟩ := (Board.mem_pieces_iff (valid_shifted hb input).sized).mp hx
  have hmem : x ∈ ((g.shifted input).stackAt q).tiles := Stack.mem_tiles_iff.mpr ⟨hq, htile⟩
  rw [hshifted] at hmem
  have hboard : x ∈ g.board.pieces :=
    (Board.mem_pieces_iff hb.sized).mpr ⟨q, (Stack.mem_tiles_iff.mp hmem).1⟩
  have hspared := ((holds_survived_iff hb).mp (hkeeps x hboard htile)).2
  simpa using hspared

/-- When every tile stays in its cell, the board is read as before. -/
theorem read_survived (hb : g.board.Valid) (hkeeps : g.board.KeepsTiles (g.survived input)) :
    (g.survived input).read = g.board.read := by
  have htext : g.board.SameText (g.survived input) :=
    .of_tiles (rows_survived g input) (cols_survived g input) (tiles_survived hb hkeeps)
  exact htext.read_eq hb.sized (valid_survived hb input).sized

/-- **Rules depend on text only.** Taking all things off a valid board leaves the tiles of every
cell in their order, and the same rules and rejected runs can be read then, in the same order.
So whatever was played before, if every tile stands in its cell after a tick, then the rules are
the same list as before the tick. -/
theorem rules_depend_on_text :
    (∀ b : Board, b.validate = .ok () →
      ∃ b', b.removeAll b.thingIds = .ok b' ∧ b'.rows = b.rows ∧ b'.cols = b.cols ∧
        (∀ p, b'.stackAt p = (b.stackAt p).tiles) ∧ b'.read = b.read) ∧
      ∀ g : Game, Reachable g → ∀ input, ∃ next report, g.tick input = .ok (next, report) ∧
        (g.board.KeepsTiles next.board → next.rules = g.rules ∧ report.rules = g.rules) := by
  constructor
  · intro b hvalid
    have hb := Board.validate_eq_ok_iff.mp hvalid
    have hstacks : ∀ p, (b.filterPieces (·.kind.isTile)).stackAt p = (b.stackAt p).tiles :=
      fun p => Board.stackAt_filterPieces hb.sized _ p
    have htext : b.SameText (b.filterPieces (·.kind.isTile)) :=
      .of_tiles rfl rfl (Board.tiles_filterPieces hb.sized fun _ _ htile => htile)
    exact ⟨_, hb.removeAll_thingIds, rfl, rfl, hstacks,
      htext.read_eq hb.sized (hb.filterPieces _).sized⟩
  · intro g hg input
    obtain ⟨rows, cols, hconsistent, -⟩ := hg.consistent
    rw [tick_eq hconsistent.board_valid]
    split
    · exact ⟨g, g.idleReport, rfl, fun _ => ⟨rfl, rfl⟩⟩
    · refine ⟨g.played input, g.playReport input, rfl, fun hkeeps => ?_⟩
      have hrules : (g.played input).rules = g.rules := by
        rw [hconsistent.rules_eq, ← read_survived hconsistent.board_valid hkeeps]
        rfl
      exact ⟨hrules, hrules⟩

/-- Four rules, one of them with a rock on its verb, and below them a baba before a rock. -/
def meltingKeyBoard : Board :=
  ⟨5, 3, #[
    [⟨.ofNat 1, .tile "BABA", ⟨0, 0⟩, .right⟩], [⟨.ofNat 2, .tile "IS", ⟨0, 1⟩, .right⟩],
    [⟨.ofNat 3, .tile "YOU", ⟨0, 2⟩, .right⟩],
    [⟨.ofNat 4, .tile "ROCK", ⟨1, 0⟩, .right⟩],
    [⟨.ofNat 5, .tile "IS", ⟨1, 1⟩, .right⟩, ⟨.ofNat 6, .thing .rock, ⟨1, 1⟩, .up⟩],
    [⟨.ofNat 7, .tile "KEY", ⟨1, 2⟩, .right⟩],
    [⟨.ofNat 8, .tile "KEY", ⟨2, 0⟩, .right⟩], [⟨.ofNat 9, .tile "IS", ⟨2, 1⟩, .right⟩],
    [⟨.ofNat 10, .tile "MELT", ⟨2, 2⟩, .right⟩],
    [⟨.ofNat 11, .tile "BABA", ⟨3, 0⟩, .right⟩], [⟨.ofNat 12, .tile "IS", ⟨3, 1⟩, .right⟩],
    [⟨.ofNat 13, .tile "HOT", ⟨3, 2⟩, .right⟩],
    [⟨.ofNat 14, .thing .baba, ⟨4, 0⟩, .up⟩], [⟨.ofNat 15, .thing .rock, ⟨4, 1⟩, .left⟩], []]⟩

/-- Both rocks become keys, the baba goes to the lower one, and that one melts; but no tile has
moved, and the rules stay. -/
theorem rules_meltingKeyBoard :
    meltingKeyBoard.validate = .ok () ∧
      (∃ b', meltingKeyBoard.removeAll meltingKeyBoard.thingIds = .ok b' ∧
        b'.read = meltingKeyBoard.read) ∧
      ∃ g next report, ofBoard meltingKeyBoard {} = .ok g ∧
        g.tick (.move .right) = .ok (next, report) ∧ g.board.KeepsTiles next.board ∧
        next.rules = g.rules ∧ g.rules.rules.length = 4 ∧
        next.board.stackAt ⟨4, 1⟩ = [⟨.ofNat 14, .thing .baba, ⟨4, 1⟩, .right⟩] := by
  have hvalid : meltingKeyBoard.validate = .ok () := by decide
  have hstart := ofBoard_eq_ok hvalid {}
  have hg : Reachable (opening meltingKeyBoard {}) := .start (.ofBoard hstart)
  obtain ⟨b', hremoved, -, -, -, hread⟩ := rules_depend_on_text.1 meltingKeyBoard hvalid
  obtain ⟨next, report, htick, hrules⟩ := rules_depend_on_text.2 _ hg (.move .right)
  have hplayed := htick.symm.trans (tick_eq hg.board_valid (.move .right))
  have hboard : next.board = (opening meltingKeyBoard {}).survived (.move .right) :=
    congrArg (fun tick => tick.1.board) (Except.ok.inj hplayed)
  have hkeeps : meltingKeyBoard.KeepsTiles next.board := by
    rw [hboard]
    unfold Board.KeepsTiles Board.Holds
    decide
  refine ⟨hvalid, ⟨b', hremoved, hread⟩, _, next, report, hstart, htick, hkeeps,
    (hrules hkeeps).1, by decide, ?_⟩
  rw [hboard]
  decide

end Game

end WordTiles
