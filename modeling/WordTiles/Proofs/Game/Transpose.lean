import WordTiles.Proofs.Board.Transpose
import WordTiles.Proofs.Game.Run
import WordTiles.Proofs.Move.Symmetry

/-!
# Games on transposed boards

Play does not prefer rows to columns: a tick on the transpose of a board, with the exchanged input,
gives the transpose of the board that a tick on the board gives. There is one exception. Rules are
read row by row, and of several changes of one noun the first one wins; so it is assumed that no
noun has two targets other than itself. The main statement is `Game.tick_transpose`.
-/

set_option autoImplicit false

namespace WordTiles

/-- The input with rows and columns exchanged. -/
def Input.transpose : Input → Input
  | .move d => .move d.transpose
  | .wait => .wait

/-- The attempt of the same piece in the exchanged cell. -/
def Attempt.transpose (a : Attempt) : Attempt := { a with position := a.position.transpose }

namespace Game

/-- The second game has the transposed board of the first one, and the same settings. -/
structure Transposed (g g' : Game) : Prop where
  board_eq : g'.board = g.board.transpose
  config_eq : g'.config = g.config

namespace Transposed

variable {g g' : Game}

theorem valid (h : g.Transposed g') (hb : g.board.Valid) : g'.board.Valid :=
  h.board_eq ▸ hb.transpose

/-! ## The phases of a tick -/

theorem rules_perm (h : g.Transposed g') (hb : g.board.Valid) :
    g'.board.read.rules.rules.Perm g.board.read.rules.rules :=
  h.board_eq ▸ hb.rules_transpose_perm

/-- Here it matters that the order of the rules does not decide what a noun becomes. -/
theorem changed (h : g.Transposed g') (hb : g.board.Valid)
    (hrules : g.board.read.rules.Unambiguous) :
    Board.Image .transposition g.changed g'.changed := by
  have hrecast : ∀ x : Piece, x.recast g'.board.read.rules = x.recast g.board.read.rules := by
    intro x
    rw [Piece.recast, Kind.recast_perm (h.rules_perm hb) hrules, Piece.recast]
  have hchanged : g'.changed = g'.board.mapPieces (·.recast g.board.read.rules) :=
    Board.mapPieces_congr (h.valid hb).sized fun x _ => hrecast x
  rw [hchanged, h.board_eq]
  exact g.board.image_transpose.mapPieces hb.sized hb.transpose.sized fun _ => rfl

theorem tickTable_eq (h : g.Transposed g') (hb : g.board.Valid)
    (hrules : g.board.read.rules.Unambiguous) : g'.tickTable = g.tickTable := by
  rw [tickTable, CapabilityTable.build_perm (h.rules_perm hb)]
  exact (h.changed hb hrules).resembles.build_eq (valid_changed hb).sized
    (valid_changed (h.valid hb)).sized _

theorem limit_eq (h : g.Transposed g') :
    g'.config.pushLimit.getD g'.changed.defaultLimit =
      g.config.pushLimit.getD g.changed.defaultLimit :=
  limit_congr h.config_eq (by rw [h.board_eq]; exact Nat.add_comm _ _)

theorem attempts_perm (h : g.Transposed g') (hb : g.board.Valid)
    (hrules : g.board.read.rules.Unambiguous) (input : Input) :
    (g'.movePlan input.transpose).attempts.Perm
      ((g.movePlan input).attempts.map Attempt.transpose) := by
  cases input with
  | move d =>
      rw [Input.transpose, movePlan, movePlan, h.tickTable_eq hb hrules, h.limit_eq]
      exact (h.changed hb hrules).attempts_perm (valid_changed hb) (valid_changed (h.valid hb))
        g.tickTable d _
  | wait => exact List.Perm.refl _

theorem shifted (h : g.Transposed g') (hb : g.board.Valid)
    (hrules : g.board.read.rules.Unambiguous) (input : Input) :
    Board.Image .transposition (g.shifted input) (g'.shifted input.transpose) := by
  have hchanged := h.changed hb hrules
  have hvalid := valid_changed hb
  have hvalid' := valid_changed (h.valid hb)
  cases input with
  | move d =>
      rw [Input.transpose, Game.shifted, Game.shifted, movePlan, movePlan,
        h.tickTable_eq hb hrules, h.limit_eq]
      apply hchanged.shift hvalid.sized hvalid'.sized
      intro x hx
      exact hchanged.moves_plan_image hvalid hvalid' g.tickTable d _ hx
  | wait => exact hchanged

theorem survived (h : g.Transposed g') (hb : g.board.Valid)
    (hrules : g.board.read.rules.Unambiguous) (input : Input) :
    Board.Image .transposition (g.survived input) (g'.survived input.transpose) := by
  have hshifted := h.shifted hb hrules input
  have hvalid := valid_shifted hb input
  have hvalid' := valid_shifted (h.valid hb) input.transpose
  apply hshifted.filterPieces hvalid.sized hvalid'.sized
  intro x hx
  have hdestroyed := hshifted.destroyed_image hvalid hvalid' g.tickTable hx
  exact spared_congr h.config_eq (h.tickTable_eq hb hrules) hdestroyed

/-- The board that a tick leaves. -/
theorem survived_eq (h : g.Transposed g') (hb : g.board.Valid)
    (hrules : g.board.read.rules.Unambiguous) (input : Input) :
    g'.survived input.transpose = (g.survived input).transpose := by
  have himage := h.survived hb hrules input
  have heq := himage.eq_image (valid_survived (h.valid hb) input.transpose).sized
  have hrows : (g'.survived input.transpose).rows = (g.survived input).cols := by
    rw [rows_survived, cols_survived, h.board_eq]
    rfl
  have hcols : (g'.survived input.transpose).cols = (g.survived input).rows := by
    rw [rows_survived, cols_survived, h.board_eq]
    rfl
  rw [hrows, hcols] at heq
  exact heq

theorem outcome_eq (h : g.Transposed g') (hb : g.board.Valid)
    (hrules : g.board.read.rules.Unambiguous) (input : Input) :
    (g'.played input.transpose).outcome = (g.played input).outcome := by
  have hsurvived := valid_survived hb input
  rw [played, ofPlayed, h.survived_eq hb hrules, hsurvived.build_transpose,
    hsurvived.outcome_transpose]
  rfl

theorem rules_played_perm (h : g.Transposed g') (hb : g.board.Valid)
    (hrules : g.board.read.rules.Unambiguous) (input : Input) :
    (g'.played input.transpose).rules.rules.Perm (g.played input).rules.rules := by
  rw [played, ofPlayed, h.survived_eq hb hrules]
  exact (valid_survived hb input).rules_transpose_perm

end Transposed

/-- **Rows and columns are treated alike.** From a valid board and from its transpose the same
rules are read, each as often, and they give the same capabilities. If no noun has two targets
other than itself among these rules, then a tick with the same settings and with an input, and
with the exchanged input on the transpose, gives boards that are transposes of each other, the
same outcome, the same attempts with their positions exchanged, and the same rules, each as
often. -/
theorem tick_transpose {b : Board} (hb : b.validate = .ok ()) :
    b.transpose.read.rules.rules.Perm b.read.rules.rules ∧
      CapabilityTable.build b.transpose.read.rules b.transpose =
        CapabilityTable.build b.read.rules b ∧
      (b.read.rules.Unambiguous → ∀ (config : Config) (input : Input),
        ∃ g g' next next' report report', ofBoard b config = .ok g ∧
          ofBoard b.transpose config = .ok g' ∧ g.tick input = .ok (next, report) ∧
          g'.tick input.transpose = .ok (next', report') ∧
          next'.board = next.board.transpose ∧ next'.outcome = next.outcome ∧
          report'.attempts.Perm (report.attempts.map Attempt.transpose) ∧
          next'.rules.rules.Perm next.rules.rules) := by
  have hvalid := Board.validate_eq_ok_iff.mp hb
  refine ⟨hvalid.rules_transpose_perm, hvalid.build_transpose, fun hrules config input => ?_⟩
  have hvalid' : b.transpose.validate = .ok () := Board.validate_eq_ok_iff.mpr hvalid.transpose
  have hgames : (opening b config).Transposed (opening b.transpose config) := ⟨rfl, rfl⟩
  exact ⟨_, _, _, _, _, _, ofBoard_eq_ok hb config, ofBoard_eq_ok hvalid' config,
    tick_opening hvalid config input, tick_opening hvalid.transpose config input.transpose,
    hgames.survived_eq hvalid hrules input, hgames.outcome_eq hvalid hrules input,
    hgames.attempts_perm hvalid hrules input, hgames.rules_played_perm hvalid hrules input⟩

/-- Two rules one below the other, and under them a baba before a flag. -/
def rockForFlagBoard : Board :=
  ⟨3, 4, #[
    [⟨.ofNat 1, .tile "BABA", ⟨0, 0⟩, .right⟩], [⟨.ofNat 2, .tile "IS", ⟨0, 1⟩, .right⟩],
    [⟨.ofNat 3, .tile "YOU", ⟨0, 2⟩, .right⟩], [],
    [⟨.ofNat 4, .tile "FLAG", ⟨1, 0⟩, .right⟩], [⟨.ofNat 5, .tile "IS", ⟨1, 1⟩, .right⟩],
    [⟨.ofNat 6, .tile "ROCK", ⟨1, 2⟩, .right⟩], [],
    [⟨.ofNat 7, .thing .baba, ⟨2, 0⟩, .up⟩], [⟨.ofNat 8, .thing .flag, ⟨2, 1⟩, .right⟩], [], []]⟩

/-- The flag becomes a rock and the baba steps onto it, rightward on the board and downward on its
transpose. -/
theorem tick_transpose_rockForFlagBoard :
    rockForFlagBoard.validate = .ok () ∧
      (rockForFlagBoard.transpose.read.rules.rules.Perm rockForFlagBoard.read.rules.rules) ∧
      rockForFlagBoard.read.rules.Unambiguous ∧
      ∃ g g' next next' report report', ofBoard rockForFlagBoard {} = .ok g ∧
        ofBoard rockForFlagBoard.transpose {} = .ok g' ∧
        g.tick (.move .right) = .ok (next, report) ∧
        g'.tick (.move .down) = .ok (next', report') ∧ next'.board = next.board.transpose ∧
        report'.attempts.Perm (report.attempts.map Attempt.transpose) ∧
        next.board.stackAt ⟨2, 1⟩ = [⟨.ofNat 8, .thing .rock, ⟨2, 1⟩, .right⟩,
          ⟨.ofNat 7, .thing .baba, ⟨2, 1⟩, .right⟩] ∧
        next'.board.stackAt ⟨1, 2⟩ = [⟨.ofNat 8, .thing .rock, ⟨1, 2⟩, .down⟩,
          ⟨.ofNat 7, .thing .baba, ⟨1, 2⟩, .down⟩] := by
  have hvalid : rockForFlagBoard.validate = .ok () := by decide
  have hb := Board.validate_eq_ok_iff.mp hvalid
  have hrules : rockForFlagBoard.read.rules.Unambiguous := by decide
  obtain ⟨hperm, -, htick⟩ := tick_transpose hvalid
  obtain ⟨g, g', next, next', report, report', hg, hg', hnext, hnext', hboard, -, hattempts, -⟩ :=
    htick hrules {} (.move .right)
  cases (ofBoard_eq_ok hvalid {}).symm.trans hg
  have hplayed := hnext.symm.trans (tick_opening hb {} (.move .right))
  have hsurvived : next.board = (opening rockForFlagBoard {}).survived (.move .right) :=
    congrArg (fun tick => tick.1.board) (Except.ok.inj hplayed)
  refine ⟨hvalid, hperm, hrules, _, g', next, next', report, report', hg, hg', hnext, hnext',
    hboard, hattempts, ?_, ?_⟩
  · rw [hsurvived]
    decide
  · rw [hboard, hsurvived]
    decide

end Game

end WordTiles
