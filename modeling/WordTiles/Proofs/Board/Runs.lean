import Mathlib.Data.List.Forall2
import WordTiles.Proofs.Board.Reading

/-!
# Runs of text

How a run is read, turn by turn: as long as the next cell has text, its topmost word is added and
the next cell is the one after it (`Scan.turn?`). A step over the edge of a board that has `2 ^ 31`
rows or columns may wrap around, but only to a position that is off the board as well
(`Board.Valid.sameCell_wrappedStep`). So reading comes to an end on every valid board, with the
words in front of the tile (`Board.ends_iff`).

A run reaches no further than the edge (`Board.inBounds_advance_iff`), and seen from a tile that it
goes through it is the run of that tile (`Board.Spells.drop`).

The main statement is `Board.runs_exact`.
-/

set_option autoImplicit false

namespace WordTiles

/-! ## Reading turn by turn -/

/-- A run that is being read: the words so far, and the cell that is looked at next. -/
structure Scan where
  words : List String
  next : Position

namespace Scan

/-- One turn: the topmost word of the next cell is added. There is none when that cell has no
text. -/
def turn? (b : Board) (d : Direction) (s : Scan) : Option Scan :=
  (b.stackAt s.next).topWord?.map fun w => ⟨s.words ++ [w], s.next.wrappedStep d⟩

/-- Reading ends after a number of turns, with these words. -/
inductive Ends (b : Board) (d : Direction) : Scan → Nat → List String → Prop
  | stop {s : Scan} (h : s.turn? b d = none) : Ends b d s 0 s.words
  | turn {s s' : Scan} {turns : Nat} {ws : List String} (h : s.turn? b d = some s')
      (hends : Ends b d s' turns ws) : Ends b d s (turns + 1) ws

variable {b : Board} {d : Direction} {s s' : Scan} {turns : Nat} {ws : List String}

theorem ends_iff_of_none (h : s.turn? b d = none) :
    Ends b d s turns ws ↔ turns = 0 ∧ ws = s.words := by
  constructor
  · intro hends
    cases hends with
    | stop _ => exact ⟨rfl, rfl⟩
    | turn hturn _ => exact absurd (h.symm.trans hturn) (by simp)
  · rintro ⟨rfl, rfl⟩
    exact .stop h

theorem ends_iff_of_some (h : s.turn? b d = some s') :
    Ends b d s turns ws ↔ ∃ rest, turns = rest + 1 ∧ Ends b d s' rest ws := by
  constructor
  · intro hends
    cases hends with
    | stop hstop => exact absurd (hstop.symm.trans h) (by simp)
    | turn hturn hrest =>
        obtain rfl := Option.some.inj (h.symm.trans hturn)
        exact ⟨_, rfl, hrest⟩
  · rintro ⟨rest, rfl, hrest⟩
    exact .turn h hrest

end Scan

namespace Board

variable {b : Board} {p : Position} {d : Direction} {x y : Piece} {ws ws' : List String} {k : Nat}

/-- Reading ends, and only with the words in front of the position. It takes one turn for each. -/
theorem ends_iff (hb : b.Valid) (hp : b.InBounds p) {turns : Nat} :
    Scan.Ends b d ⟨ws, p.wrappedStep d⟩ turns ws' ↔
      turns = (b.wordsAhead d p).length ∧ ws' = ws ++ b.wordsAhead d p := by
  -- with each turn, the words in front of the position are one less
  generalize hahead : b.wordsAhead d p = ahead
  induction ahead generalizing p ws turns with
  | nil =>
      have hnone := showsAhead_nil_iff.mp (showsAhead_iff.mpr hahead.symm)
      have hstop : Scan.turn? b d ⟨ws, p.wrappedStep d⟩ = none := by
        rw [Scan.turn?, (hb.sameCell_wrappedStep hp).stackAt_eq, hnone, Option.map_none]
      rw [Scan.ends_iff_of_none hstop, List.append_nil, List.length_nil]
  | cons w rest ih =>
      obtain ⟨hw, hrest⟩ := showsAhead_cons_iff.mp (showsAhead_iff.mpr hahead.symm)
      -- a cell with text is on the board, so the step to it has not wrapped around
      have hin : b.InBounds (p.step d) := (topWord?_stackAt_eq_some_iff.mp hw).1
      have hstep : p.wrappedStep d = p.step d := (hb.sameCell_wrappedStep hp).eq hin
      have hturn : Scan.turn? b d ⟨ws, p.wrappedStep d⟩ =
          some ⟨ws ++ [w], (p.step d).wrappedStep d⟩ := by
        rw [Scan.turn?, hstep, hw, Option.map_some]
      rw [Scan.ends_iff_of_some hturn]
      simp only [ih hin (showsAhead_iff.mp hrest).symm, List.length_cons, List.append_assoc,
        List.singleton_append]
      constructor
      · rintro ⟨_, rfl, rfl, hws⟩
        exact ⟨rfl, hws⟩
      · rintro ⟨rfl, hws⟩
        exact ⟨_, rfl, rfl, hws⟩

/-! ## How far a run goes -/

/-- How many cells there are from a cell to the edge of the board in a direction, the cell itself
among them. -/
def cellsToEdge (b : Board) (d : Direction) (p : Position) : Nat :=
  match d with
  | .up => p.row.toNat + 1
  | .down => b.rows - p.row.toNat
  | .left => p.col.toNat + 1
  | .right => b.cols - p.col.toNat

theorem inBounds_advance_iff (hp : b.InBounds p) :
    b.InBounds (p.advance d k) ↔ k < b.cellsToEdge d p := by
  obtain ⟨hr, hc, hr', hc'⟩ := hp
  cases d <;>
    simp only [InBounds, Position.Within, Position.advance, Direction.rowStep, Direction.colStep,
      cellsToEdge] <;>
    omega

/-- There are no more words in front of a cell than cells to the edge. -/
theorem length_wordsAhead_lt (hp : b.InBounds p) :
    (b.wordsAhead d p).length < b.cellsToEdge d p := by
  rw [← inBounds_advance_iff hp]
  cases hahead : b.wordsAhead d p with
  | nil => exact (Position.advance_zero p d).symm ▸ hp
  | cons w rest =>
      have hshows : b.ShowsAhead d p (w :: rest) := showsAhead_iff.mpr hahead.symm
      obtain ⟨last, hlast⟩ : ∃ last, (w :: rest)[rest.length]? = some last :=
        ⟨_, List.getElem?_eq_getElem (Nat.lt_succ_self rest.length)⟩
      exact (hshows.shows _ last hlast).1

/-! ## What a run is seen from further on -/

/-- Past cells with text, the words in front of a position are the later ones of these words. -/
theorem wordsAhead_advance (hline : ∀ i, i < k → ¬ (b.stackAt (p.advance d (i + 1))).Textless) :
    b.wordsAhead d (p.advance d k) = (b.wordsAhead d p).drop k := by
  induction k with
  | zero => rw [Position.advance_zero, List.drop_zero]
  | succ k ih =>
      have hprevious := ih fun i hi => hline i (Nat.lt_succ_of_lt hi)
      have htext := hline k (Nat.lt_succ_self k)
      rw [wordsAhead_eq, Position.step_advance] at hprevious
      cases hw : (b.stackAt (p.advance d (k + 1))).topWord? with
      | none => exact absurd (Stack.topWord?_eq_none_iff.mp hw) htext
      | some w =>
          rw [hw] at hprevious
          rw [← List.drop_drop, ← hprevious]
          rfl

/-- The piece has no tile above it in its cell. -/
def OnTop (b : Board) (x : Piece) : Prop :=
  ∃ below above, b.stackAt x.position = below ++ x :: above ∧ Stack.Textless above

/-- The words that are read from a tile, if it is the topmost of its cell, end those that are read
from an earlier tile, if there is text in all cells between. -/
theorem Spells.drop (hx : b.Spells x d ws) (hy : b.Spells y d ws') (htop : b.OnTop y)
    (hposition : y.position = x.position.advance d (k + 1))
    (hline : ∀ i, i < k → ¬ (b.stackAt (x.position.advance d (i + 1))).Textless) :
    ws' = ws.drop (k + 1) := by
  obtain ⟨w, ahead, rfl, -, hahead⟩ := hx
  obtain ⟨w', ahead', rfl, hkind, hahead'⟩ := hy
  obtain ⟨below, above, hstack, habove⟩ := htop
  have hw' : (b.stackAt y.position).topWord? = some w' :=
    Stack.topWord?_eq_some_iff.mpr ⟨below, y, above, hstack, hkind, habove⟩
  rw [showsAhead_iff] at hahead hahead'
  rw [List.drop_succ_cons, hahead, ← wordsAhead_advance hline, wordsAhead_eq,
    Position.step_advance, ← hposition, hw', hahead']

/-! ## The list of runs -/

def tilesInOrder (b : Board) : List Piece := b.positions.flatMap fun p => (b.stackAt p).tiles

/-- Where runs start: at each tile, first rightward and then downward. -/
def scanStarts (b : Board) : List (Piece × Direction) :=
  b.tilesInOrder.flatMap fun x => [(x, .right), (x, .down)]

/-- The run is the one from a tile in a direction: it is read from there, with words that reach the
edge of the board at most, and reading comes to an end with these words and with no others. -/
structure ReadsFrom (b : Board) (x : Piece) (d : Direction) (run : Run) : Prop where
  origin_eq : run.origin = x.position
  direction_eq : run.direction = d
  spells : b.Spells x d run.words
  length : 1 ≤ run.words.length ∧ run.words.length ≤ b.cellsToEdge d x.position
  ends : ∀ w, x.kind = .tile w → ∀ turns ws,
    Scan.Ends b d ⟨[w], x.position.wrappedStep d⟩ turns ws ↔
      turns + 1 = run.words.length ∧ ws = run.words

theorem isSome_runOf (x : Piece) (d : Direction) : (b.runOf (x, d)).isSome = x.kind.isTile := by
  rw [runOf, Option.isSome_map]
  cases x.kind <;> rfl

theorem tilesInOrder_eq (hb : b.Sized) : b.tilesInOrder = b.pieces.filter (·.kind.isTile) := by
  rw [pieces_eq_flatMap hb, List.filter_flatMap]
  rfl

/-- Runs start where there is a run to be read. -/
theorem scanStarts_eq (hb : b.Sized) :
    b.scanStarts = (b.pieces ×ˢ Run.directions).filter fun start => (b.runOf start).isSome := by
  rw [scanStarts, tilesInOrder_eq hb]
  induction b.pieces with
  | nil => rfl
  | cons x rest ih =>
      rw [List.product_cons, List.filter_append, ← ih]
      cases hx : x.kind.isTile with
      | false => simp [hx, isSome_runOf, Run.directions]
      | true => simp [hx, isSome_runOf, Run.directions]

theorem length_scanStarts (hb : b.Sized) :
    b.scanStarts.length = 2 * (b.pieces.filter (·.kind.isTile)).length := by
  rw [scanStarts, tilesInOrder_eq hb, List.length_flatMap]
  simp [Nat.mul_comm]

/-- Each element of a list that gives a value stands beside the value that it gives. -/
theorem forall₂_filterMap {α β : Type} (f : α → Option β) (as : List α) :
    List.Forall₂ (fun a b => f a = some b) (as.filter fun a => (f a).isSome) (as.filterMap f) := by
  induction as with
  | nil => exact .nil
  | cons a rest ih =>
      cases ha : f a with
      | none =>
          rw [List.filterMap_cons_none ha, List.filter_cons_of_neg (by simp [ha])]
          exact ih
      | some b =>
          rw [List.filterMap_cons_some ha, List.filter_cons_of_pos (by simp [ha])]
          exact .cons ha ih

/-- The run of a tile is read from there. -/
theorem Valid.readsFrom_of_runOf (hb : b.Valid) {run : Run} (hx : x ∈ b.pieces)
    (h : b.runOf (x, d) = some run) : b.ReadsFrom x d run := by
  have hin := inBounds_of_mem (hb.mem_stackAt_of_mem_pieces hx)
  rw [hb.runOf_eq hx, Option.map_eq_some_iff] at h
  obtain ⟨w, hword, rfl⟩ := h
  constructor
  case origin_eq => rfl
  case direction_eq => rfl
  case spells => exact spells_iff.mpr ⟨w, hword, rfl⟩
  case length =>
    have hlt := length_wordsAhead_lt (d := d) hin
    rw [List.length_cons]
    exact ⟨Nat.le_add_left 1 _, hlt⟩
  case ends =>
    intro w' hw' turns ws
    obtain rfl : w = w' := by
      rw [hw'] at hword
      exact (Option.some.inj hword).symm
    rw [ends_iff hb hin, List.length_cons, Nat.add_right_cancel_iff]
    rfl

theorem Valid.forall₂_readsFrom (hb : b.Valid) :
    List.Forall₂ (fun start run => b.ReadsFrom start.1 start.2 run) b.scanStarts b.runs := by
  have hruns : List.Forall₂ (fun start run => b.runOf start = some run) b.scanStarts b.runs := by
    rw [scanStarts_eq hb.sized, hb.runs_eq]
    exact forall₂_filterMap b.runOf _
  refine List.forall₂_iff_zip.mpr ⟨hruns.length_eq, fun {start run} hmem => ?_⟩
  have hstart := (List.of_mem_zip hmem).1
  rw [scanStarts_eq hb.sized] at hstart
  have hpiece : start.1 ∈ b.pieces := (List.mem_product.mp (List.mem_of_mem_filter hstart)).1
  exact hb.readsFrom_of_runOf hpiece (List.forall₂_zip hruns hmem)

/-- **Runs are exact.** Of a valid board, there are two runs for each tile, rightward and downward,
in the reading order of the tiles.

* The run of a tile starts with the tile's own word and has the topmost word of each next cell, up
  to the first cell without text or the edge. It has at least one word, and at most as many as there
  are cells to the edge. Reading it comes to an end, after a turn for each further word.
* If a tile has no tile above it in its cell and an earlier tile is on a line with it, with text in
  all cells between, then its run ends the run of the earlier tile. -/
theorem runs_exact {b : Board} (hb : b.validate = .ok ()) :
    List.Forall₂ (fun start run => b.ReadsFrom start.1 start.2 run) b.scanStarts b.runs ∧
      b.runs.length = 2 * (b.pieces.filter (·.kind.isTile)).length ∧
      ∀ x y d run run' k, ((x, d), run) ∈ b.scanStarts.zip b.runs →
        ((y, d), run') ∈ b.scanStarts.zip b.runs → b.OnTop y → 0 < k →
        y.position = x.position.advance d k →
        (∀ i, 0 < i → i < k → ¬ (b.stackAt (x.position.advance d i)).Textless) →
        run'.words = run.words.drop k := by
  rw [validate_eq_ok_iff] at hb
  have hruns := hb.forall₂_readsFrom
  refine ⟨hruns, ?_, ?_⟩
  · rw [← hruns.length_eq, length_scanStarts hb.sized]
  · intro x y d run run' k hx hy htop hk hposition hline
    obtain ⟨k, rfl⟩ := Nat.exists_eq_succ_of_ne_zero (Nat.ne_of_gt hk)
    have hspells := (List.forall₂_zip hruns hx).spells
    have hspells' := (List.forall₂_zip hruns hy).spells
    exact hspells.drop hspells' htop hposition fun i hi =>
      hline (i + 1) (Nat.succ_pos i) (Nat.succ_lt_succ hi)

/-- A text tile that faces right. -/
def rightTile (id : Nat) (w : String) (p : Position) : Piece := ⟨.ofNat id, .tile w, p, .right⟩

/-- A row that says `BABA IS YOU`, with a tile under its second word, and another word below that
one. In the second row, there is a thing between two words. -/
def crossroads : Board :=
  ⟨2, 4, #[[rightTile 1 "BABA" ⟨0, 0⟩], [rightTile 2 "AND" ⟨0, 1⟩, rightTile 3 "IS" ⟨0, 1⟩],
    [rightTile 4 "YOU" ⟨0, 2⟩], [], [], [rightTile 5 "WIN" ⟨1, 1⟩],
    [⟨.ofNat 6, .thing .rock, ⟨1, 2⟩, .up⟩], [rightTile 7 "KEKE" ⟨1, 3⟩]]⟩

/-- The six tiles have twelve runs, and the run of the upper tile of the second cell ends the one of
the first cell. -/
theorem runs_crossroads :
    crossroads.validate = .ok () ∧ crossroads.runs.length = 12 ∧
      ∃ run run', ((rightTile 1 "BABA" ⟨0, 0⟩, .right), run) ∈
          crossroads.scanStarts.zip crossroads.runs ∧
        ((rightTile 3 "IS" ⟨0, 1⟩, .right), run') ∈ crossroads.scanStarts.zip crossroads.runs ∧
        run.words = ["BABA", "IS", "YOU"] ∧ run'.words = run.words.drop 1 := by
  have hvalid : crossroads.validate = .ok () := by decide
  obtain ⟨-, hlength, hsuffix⟩ := runs_exact hvalid
  have htop : crossroads.OnTop (rightTile 3 "IS" ⟨0, 1⟩) :=
    ⟨[rightTile 2 "AND" ⟨0, 1⟩], [], by decide, by simp [Stack.Textless]⟩
  have hfirst : ((rightTile 1 "BABA" ⟨0, 0⟩, .right), ⟨⟨0, 0⟩, .right, ["BABA", "IS", "YOU"]⟩) ∈
      crossroads.scanStarts.zip crossroads.runs := by decide
  have hsecond : ((rightTile 3 "IS" ⟨0, 1⟩, .right), ⟨⟨0, 1⟩, .right, ["IS", "YOU"]⟩) ∈
      crossroads.scanStarts.zip crossroads.runs := by decide
  exact ⟨hvalid, hlength.trans (by decide), _, _, hfirst, hsecond, rfl,
    hsuffix _ _ _ _ _ 1 hfirst hsecond htop (by decide) (by decide) (by omega)⟩

end Board

end WordTiles
