import WordTiles.Proofs.Board.Reading
import WordTiles.Proofs.Board.Symmetry

/-!
# Transposed boards

The transpose of a board has its columns as rows. A word that is read rightward on one of them is
read downward on the other, and those are the two directions in which boards are read. So both
have the same rules (`Board.Valid.rules_transpose_perm`), though not in the same order: reading
goes row by row on both.
-/

set_option autoImplicit false

namespace WordTiles

/-! ## Rows and columns exchanged -/

def Position.transpose (p : Position) : Position := ⟨p.col, p.row⟩

def Direction.transpose : Direction → Direction
  | .up => .left
  | .down => .right
  | .left => .up
  | .right => .down

/-- The piece in the exchanged cell, facing the exchanged way. -/
def Piece.transpose (x : Piece) : Piece :=
  { x with position := x.position.transpose, facing := x.facing.transpose }

/-- The run in the exchanged direction, with the same words. -/
def Run.transpose (r : Run) : Run :=
  { r with origin := r.origin.transpose, direction := r.direction.transpose }

def Symmetry.transposition : Symmetry where
  cell := Position.transpose
  turn := Direction.transpose
  cell_step := by
    rintro ⟨row, col⟩ d
    cases d <;> rfl
  cell_cell _ := rfl

namespace Board

variable {σ : Symmetry} {b b' : Board} {p : Position}

/-- The transpose of a board: each stack, in its order, in the exchanged cell. -/
def transpose (b : Board) : Board := b.image .transposition b.cols b.rows

theorem image_transpose (b : Board) : Image .transposition b b.transpose := by
  apply image_image
  rintro ⟨row, col⟩
  exact ⟨fun ⟨hcol, hrow, hcol', hrow'⟩ => ⟨hrow, hcol, hrow', hcol'⟩,
    fun ⟨hrow, hcol, hrow', hcol'⟩ => ⟨hcol, hrow, hcol', hrow'⟩⟩

theorem Valid.transpose (hb : b.Valid) : b.transpose.Valid :=
  b.image_transpose.valid hb (sized_image ..) hb.cols_pos hb.rows_pos hb.cols_le hb.rows_le

/-! ## What is read -/

namespace Related

/-- Over the images of cells the same words are read. -/
theorem wordsAlong_eq (h : Image σ b b') (next next' : Position → Position)
    (hnext : ∀ q, next' (σ.cell q) = σ.cell (next q)) (limit : Nat) (p : Position) :
    b'.wordsAlong next' limit (σ.cell p) = b.wordsAlong next limit p := by
  have htop : ∀ q, (b'.stackAt (σ.cell q)).topWord? = (b.stackAt q).topWord? := by
    intro q
    rw [h.stackAt_eq, Stack.topWord?, List.filterMap_map]
    rfl
  induction limit generalizing p with
  | zero => rfl
  | succ limit ih => rw [wordsAlong, hnext, htop, ih, wordsAlong]

end Related

/-- The run from a tile is the run from its transpose in the other direction. -/
theorem runOf_transpose (b : Board) (x : Piece) (d : Direction) :
    b.transpose.runOf (x.transpose, d.transpose) = (b.runOf (x, d)).map Run.transpose := by
  have hnext : ∀ q : Position, q.transpose.wrappedStep d.transpose =
      (q.wrappedStep d).transpose := fun q => by cases d <;> rfl
  have hahead : b.transpose.wordsAlong (·.wrappedStep d.transpose) (b.cols + b.rows)
      x.position.transpose = b.wordsAlong (·.wrappedStep d) (b.rows + b.cols) x.position := by
    rw [Nat.add_comm b.cols]
    exact b.image_transpose.wordsAlong_eq (·.wrappedStep d) (·.wrappedStep d.transpose) hnext _
      x.position
  have hrun : ∀ w, b.transpose.runFrom x.position.transpose w d.transpose =
      (b.runFrom x.position w d).transpose := fun w =>
    congrArg (fun ws => (⟨x.position.transpose, d.transpose, w :: ws⟩ : Run)) hahead
  rw [runOf, runOf, Option.map_map]
  exact congrArg (x.kind.word?.map ·) (funext hrun)

/-- The pieces and directions to read from, exchanged, are those of the transpose. -/
theorem Valid.starts_transpose_perm (hb : b.Valid) :
    (b.transpose.pieces ×ˢ Run.directions).Perm
      ((b.pieces ×ˢ Run.directions).map fun start => (start.1.transpose, start.2.transpose)) := by
  have hproduct : (b.pieces ×ˢ Run.directions).map (fun start =>
      (start.1.transpose, start.2.transpose)) =
      b.pieces.map Piece.transpose ×ˢ Run.directions.map Direction.transpose := by
    simp only [SProd.sprod, List.product, List.map_flatMap, List.flatMap_map, List.map_map]
    rfl
  have hdirections : Run.directions.Perm (Run.directions.map Direction.transpose) := by decide
  rw [hproduct]
  exact (b.image_transpose.pieces_perm hb.sized hb.transpose.sized).product hdirections

/-- The runs on the transpose are the runs on the board, exchanged. -/
theorem Valid.runs_transpose_perm (hb : b.Valid) :
    b.transpose.runs.Perm (b.runs.map Run.transpose) := by
  have hruns := hb.starts_transpose_perm.filterMap b.transpose.runOf
  have hstart : (b.transpose.runOf ∘ fun start => (start.1.transpose, start.2.transpose)) =
      fun start => (b.runOf start).map Run.transpose := funext fun ⟨x, d⟩ => b.runOf_transpose x d
  rw [List.filterMap_map, hstart] at hruns
  rw [hb.runs_eq, hb.transpose.runs_eq, List.map_filterMap]
  exact hruns

/-- The same rules are read from a board and from its transpose, each as often. -/
theorem Valid.rules_transpose_perm (hb : b.Valid) :
    b.transpose.read.rules.rules.Perm b.read.rules.rules := by
  have hrules := hb.runs_transpose_perm.filterMap Run.rule?
  -- which rule a run is depends on its words alone
  have hword : Run.rule? ∘ Run.transpose = Run.rule? := rfl
  rw [List.filterMap_map, hword] at hrules
  exact hrules

/-- The capabilities that the rules of a board give are the same on its transpose. -/
theorem Valid.build_transpose (hb : b.Valid) :
    CapabilityTable.build b.transpose.read.rules b.transpose =
      CapabilityTable.build b.read.rules b := by
  rw [CapabilityTable.build_perm hb.rules_transpose_perm]
  exact b.image_transpose.resembles.build_eq hb.sized hb.transpose.sized _

theorem Valid.outcome_transpose (hb : b.Valid) (t : CapabilityTable) :
    b.transpose.outcome t = b.outcome t :=
  b.image_transpose.resembles.outcome_eq hb.sized hb.transpose.sized t

end Board

end WordTiles
