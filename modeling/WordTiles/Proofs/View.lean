import Mathlib.Data.List.Induction
import Mathlib.Data.List.ModifyLast
import Mathlib.Data.Nat.Init
import WordTiles.Proofs.Board.Addressing
import WordTiles.View

/-!
# What is seen of a board

A view is made here once more, from the positions of a board as they are listed: each position of
the first column opens a row, and what is seen at a position goes to the end of the last row
(`View.along`). As the positions come row by row, this gives the view of the board
(`View.along_positions`), whose entries are what is seen of the cells (`ViewCell.Depicts`).

The main statement is `View.ofBoard_faithful`.
-/

set_option autoImplicit false

namespace WordTiles

/-! ## What is seen of a cell -/

namespace ViewCell

variable {s : Stack}

/-- What is seen of a stack: nothing if it is empty, and otherwise the last piece that was put there
and the number of pieces. -/
inductive Depicts : Stack → Option ViewCell → Prop
  | blank : Depicts [] none
  | top (below : Stack) (x : Piece) :
      Depicts (below ++ [x]) (some ⟨x.id, x.kind, x.facing, (below ++ [x]).length⟩)

theorem depicts_ofStack? (s : Stack) : Depicts s (ofStack? s) := by
  cases s using List.reverseRecOn with
  | nil => exact .blank
  | append_singleton below x =>
      rw [ofStack?, Stack.top?, List.getLast?_append_cons]
      exact .top below x

end ViewCell

namespace View

variable {b : Board} {rows : List (List (Option ViewCell))}

def seenAt? (v : View) (row col : Nat) : Option (Option ViewCell) := v.rows[row]?.bind (·[col]?)

/-! ## From position to position -/

/-- Adds what is seen at a position to the rows that there are so far. The first column opens a new
row; a position before any row is passed over. -/
def addEntry (b : Board) (rows : List (List (Option ViewCell))) (p : Position) :
    List (List (Option ViewCell)) :=
  (if p.col = 0 then rows ++ [[]] else rows).modifyLast
    (· ++ [ViewCell.ofStack? (b.stackAt p)])

/-- The view that is made by going through positions. -/
def along (b : Board) (ps : List Position) : View := ⟨ps.foldl (addEntry b) []⟩

theorem addEntry_zero (row : Int) :
    addEntry b rows ⟨row, 0⟩ = rows ++ [[ViewCell.ofStack? (b.stackAt ⟨row, 0⟩)]] := by
  rw [addEntry, if_pos rfl, List.modifyLast_concat]
  rfl

theorem addEntry_concat {entries : List (Option ViewCell)} {p : Position} (h : p.col ≠ 0) :
    addEntry b (rows ++ [entries]) p =
      rows ++ [entries ++ [ViewCell.ofStack? (b.stackAt p)]] := by
  rw [addEntry, if_neg h, List.modifyLast_concat]

theorem foldl_addEntry_row {cols : Nat} (hcols : 0 < cols) (row : Int) :
    ((List.range cols).map fun (col : Nat) => (⟨row, col⟩ : Position)).foldl (addEntry b) rows =
      rows ++ [(List.range cols).map fun (col : Nat) =>
        ViewCell.ofStack? (b.stackAt ⟨row, col⟩)] := by
  induction cols, hcols using Nat.le_induction with
  | base => exact addEntry_zero row
  -- the last position is not in the first column, so its entry joins those of the others
  | succ cols hcols ih =>
      have hcol : (cols : Int) ≠ 0 := Int.natCast_ne_zero.mpr (Nat.ne_of_gt hcols)
      rw [List.range_succ, List.map_append, List.foldl_append, ih, List.map_singleton,
        List.foldl_cons, List.foldl_nil, addEntry_concat hcol, List.map_append, List.map_singleton]

/-- Going through row after row gives these rows. -/
theorem foldl_addEntry_rows {cols : Nat} (hcols : 0 < cols) (count : Nat) :
    ((List.range count).flatMap fun (row : Nat) =>
        (List.range cols).map fun (col : Nat) => (⟨row, col⟩ : Position)).foldl (addEntry b) [] =
      (List.range count).map fun (row : Nat) =>
        (List.range cols).map fun (col : Nat) => ViewCell.ofStack? (b.stackAt ⟨row, col⟩) := by
  induction count with
  | zero => rfl
  | succ count ih =>
      rw [List.range_succ, List.flatMap_append, List.foldl_append, ih, List.flatMap_singleton,
        foldl_addEntry_row hcols, List.map_append, List.map_singleton]

theorem rows_ofBoard (hb : b.Sized) (hcols : 0 < b.cols) : (ofBoard b).rows =
    (List.range b.rows).map fun (row : Nat) =>
      (List.range b.cols).map fun (col : Nat) => ViewCell.ofStack? (b.stackAt ⟨row, col⟩) := by
  have hrows : b.cells.size / b.cols = b.rows := by
    rw [show b.cells.size = b.rows * b.cols from hb, Nat.mul_div_cancel b.rows hcols]
  rw [ofBoard, hrows]

/-- Going through the positions of a board gives its view. -/
theorem along_positions (hb : b.Sized) (hcols : 0 < b.cols) :
    along b b.positions = ofBoard b := by
  rw [along, Board.positions_eq_flatMap hb, foldl_addEntry_rows hcols, ← rows_ofBoard hb hcols]

/-! ## The entries and the lines -/

theorem seenAt?_ofBoard (hb : b.Sized) {row col : Nat} (hrow : row < b.rows) (hcol : col < b.cols) :
    (ofBoard b).seenAt? row col = some (ViewCell.ofStack? (b.stackAt ⟨row, col⟩)) := by
  rw [seenAt?, rows_ofBoard hb (Nat.zero_lt_of_lt hcol), List.getElem?_map,
    List.getElem?_range hrow, Option.map_some, Option.bind_some, List.getElem?_map,
    List.getElem?_range hcol, Option.map_some]

theorem getElem?_lines {v : View} {row : Nat} {entries : List (Option ViewCell)}
    (h : v.rows[row]? = some entries) :
    v.lines[row]? = some (" ".intercalate (entries.map cellLabel)) := by
  rw [lines, List.getElem?_map, h]
  rfl

/-- **Views are faithful.** The view of a valid board is the one that going through its positions
gives.

* It has the rows and the columns of the board.
* Its entry at a row and a column is what is seen of the cell there: nothing of an empty cell, and
  otherwise the last piece that was put there and the number of pieces.
* It is drawn in one line for each row: the labels of its entries, a dot where nothing is seen, with
  a space between two of them. -/
theorem ofBoard_faithful {b : Board} (hb : b.validate = .ok ()) :
    along b b.positions = ofBoard b ∧
      ((ofBoard b).rows.length = b.rows ∧ ∀ entries ∈ (ofBoard b).rows, entries.length = b.cols) ∧
      (∀ row col, row < b.rows → col < b.cols → ∃ s entry,
        b.cells[row * b.cols + col]? = some s ∧ b.cell? ⟨row, col⟩ = some s ∧
          (ofBoard b).seenAt? row col = some entry ∧ ViewCell.Depicts s entry) ∧
      (ofBoard b).lines.length = b.rows ∧
      ∀ (row : Nat) entries, (ofBoard b).rows[row]? = some entries →
        (ofBoard b).lines[row]? =
          some (" ".intercalate (entries.map fun entry => entry.elim "." (·.kind.label))) := by
  rw [Board.validate_eq_ok_iff] at hb
  have hrows := rows_ofBoard hb.sized hb.cols_pos
  have hlength : (ofBoard b).rows.length = b.rows := by
    rw [hrows, List.length_map, List.length_range]
  refine ⟨along_positions hb.sized hb.cols_pos, ⟨hlength, ?_⟩, ?_, ?_, ?_⟩
  · intro entries hentries
    rw [hrows, List.mem_map] at hentries
    obtain ⟨row, -, rfl⟩ := hentries
    rw [List.length_map, List.length_range]
  · intro row col hrow hcol
    have hplace := Board.index?_eq_some (Position.within_natCast hrow hcol)
    have hcell := Board.getElem?_cells_of_index? hb.sized hplace
    refine ⟨_, _, hcell, ?_, seenAt?_ofBoard hb.sized hrow hcol, ViewCell.depicts_ofStack? _⟩
    rw [Board.cell?, hplace]
    exact hcell
  · rw [lines, List.length_map, hlength]
  · intro row entries hentries
    have hlabel : cellLabel = fun entry => entry.elim "." (·.kind.label) := by
      funext entry
      cases entry <;> rfl
    rw [getElem?_lines hentries, hlabel]

/-- Three rows of two cells. A keke stands on a baba, below a cell that is empty, and beside a tile
under which there is a wall. -/
def pileAndTile : Board :=
  ⟨3, 2, #[[], [⟨.ofNat 1, .thing .flag, ⟨0, 1⟩, .right⟩],
    [⟨.ofNat 2, .thing .baba, ⟨1, 0⟩, .down⟩, ⟨.ofNat 3, .thing .keke, ⟨1, 0⟩, .left⟩],
    [⟨.ofNat 4, .thing .wall, ⟨1, 1⟩, .right⟩, ⟨.ofNat 5, .tile "IS", ⟨1, 1⟩, .up⟩],
    [], []]⟩

/-- Of the keke all is seen, of the baba under it that it is there, and of the last row nothing. -/
theorem ofBoard_pileAndTile :
    pileAndTile.validate = .ok () ∧
      (∃ s, pileAndTile.cells[2]? = some s ∧
        ViewCell.Depicts s (some ⟨.ofNat 3, .thing .keke, .left, 2⟩)) ∧
      (ofBoard pileAndTile).lines[1]? = some "keke IS" ∧
      (ofBoard pileAndTile).lines[2]? = some ". ." := by
  have hvalid : pileAndTile.validate = .ok () := by decide
  obtain ⟨-, -, hentry, -, hline⟩ := ofBoard_faithful hvalid
  obtain ⟨s, entry, hcell, -, hseen, hdepicts⟩ := hentry 1 0 (by decide) (by decide)
  have hkeke : (ofBoard pileAndTile).seenAt? 1 0 =
      some (some ⟨.ofNat 3, .thing .keke, .left, 2⟩) := by decide
  rw [hkeke, Option.some.injEq] at hseen
  subst hseen
  exact ⟨hvalid, ⟨s, hcell, hdepicts⟩, hline 1 _ rfl, hline 2 _ rfl⟩

end View

end WordTiles
