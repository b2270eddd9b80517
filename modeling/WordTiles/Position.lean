import WordTiles.Line

/-!
# Directions and positions

The four directions of play, and the cell coordinates they move between. Rows grow downward
and columns grow rightward. Coordinates are signed, so that a step over the edge of a board leads
to a position which the board then refuses.

A coordinate has 32 bits and holds the integers from `Position.least` to `Position.greatest`, and
a step is taken in such coordinates: past the greatest one it wraps around to the least
(`Position.wrappedStep`). What is said about cells is said on integers, where a step is a sum
(`Position.step`). Beside the cells of a board whose rows and columns can be numbered the two
agree, or else both lead off the board (`Position.wrappedStep_cases`).
-/

set_option autoImplicit false

namespace WordTiles

inductive Direction where
  | up
  | down
  | left
  | right
  deriving DecidableEq

namespace Direction

/-- The direction a piece faces until it is told otherwise. -/
def initial : Direction := .right

def all : List Direction := [.up, .down, .left, .right]

/-- How far one step goes down the rows. -/
def rowStep : Direction → Int
  | .up => -1
  | .down => 1
  | .left => 0
  | .right => 0

/-- How far one step goes along the columns. -/
def colStep : Direction → Int
  | .up => 0
  | .down => 0
  | .left => -1
  | .right => 1

def reverse : Direction → Direction
  | .up => .down
  | .down => .up
  | .left => .right
  | .right => .left

def text : Direction → String
  | .up => "up"
  | .down => "down"
  | .left => "left"
  | .right => "right"

end Direction

structure Position where
  row : Int
  col : Int
  deriving DecidableEq

namespace Position

/-- The greatest row or column number a coordinate can hold: coordinates have 32 bits, one of
them for the sign. -/
def greatest : Nat := 2147483647

/-- The least row or column number a coordinate can hold. -/
def least : Int := -2147483648

/-- A position whose row and column a coordinate can hold. -/
def Representable (p : Position) : Prop :=
  (least ≤ p.row ∧ p.row ≤ greatest) ∧ least ≤ p.col ∧ p.col ≤ greatest

instance (p : Position) : Decidable p.Representable := by
  unfold Representable; infer_instance

/-- The position at a row and a column counted from zero, unless one of them is too great. -/
def ofIndices? (row col : Nat) : Option Position :=
  if row ≤ greatest ∧ col ≤ greatest then some ⟨row, col⟩ else none

def Within (p : Position) (rows cols : Nat) : Prop :=
  0 ≤ p.row ∧ 0 ≤ p.col ∧ p.row < rows ∧ p.col < cols

instance (p : Position) (rows cols : Nat) : Decidable (p.Within rows cols) := by
  unfold Within; infer_instance

def step (p : Position) (d : Direction) : Position :=
  ⟨p.row + d.rowStep, p.col + d.colStep⟩

/-- The integer that a coordinate of 32 bits holds in place of an integer. -/
def wrapped (i : Int) : Int := (Int32.ofInt i).toInt

/-- The neighbouring position in a direction, in coordinates of 32 bits. -/
def wrappedStep (p : Position) (d : Direction) : Position :=
  ⟨wrapped (p.row + d.rowStep), wrapped (p.col + d.colStep)⟩

def advance (p : Position) (d : Direction) (k : Nat) : Position :=
  ⟨p.row + k * d.rowStep, p.col + k * d.colStep⟩

/-- The signed distance of a position along a direction: it grows by one with each step. -/
def progress (p : Position) (d : Direction) : Int :=
  p.row * d.rowStep + p.col * d.colStep

def text (p : Position) : String :=
  "(" ++ Decimal.intText p.row ++ ", " ++ Decimal.intText p.col ++ ")"

theorem within_natCast {row col rows cols : Nat} (hrow : row < rows) (hcol : col < cols) :
    Within ⟨row, col⟩ rows cols :=
  ⟨Int.natCast_nonneg row, Int.natCast_nonneg col, Int.ofNat_lt.mpr hrow, Int.ofNat_lt.mpr hcol⟩

theorem isNone_ofIndices?_iff {row col : Nat} :
    (ofIndices? row col).isNone = true ↔ ¬ (row ≤ greatest ∧ col ≤ greatest) := by
  rw [ofIndices?]
  split
  next hfits => exact iff_of_false Bool.false_ne_true (fun h => h hfits)
  next hfits => exact iff_of_true rfl hfits

/-- Rows and columns that there are have a last one, and coordinates count them if they count this
one. -/
theorem isNone_ofIndices?_pred_iff {rows cols : Nat} (hrows : 0 < rows) (hcols : 0 < cols) :
    (ofIndices? (rows - 1) (cols - 1)).isNone = true ↔
      greatest + 1 < rows ∨ greatest + 1 < cols := by
  rw [isNone_ofIndices?_iff, greatest]
  omega

/-- The last position of rows and columns that coordinates can count is one of them. -/
theorem not_isNone_ofIndices?_pred {rows cols : Nat} (hrows : 0 < rows) (hcols : 0 < cols)
    (hrows' : rows ≤ greatest + 1) (hcols' : cols ≤ greatest + 1) :
    ¬ (ofIndices? (rows - 1) (cols - 1)).isNone = true := by
  rw [isNone_ofIndices?_pred_iff hrows hcols]
  omega

/-- Rows and columns that coordinates can count have positions that can be held. -/
theorem Within.representable {p : Position} {rows cols : Nat} (h : p.Within rows cols)
    (hrows : rows ≤ greatest + 1) (hcols : cols ≤ greatest + 1) : p.Representable := by
  obtain ⟨hr, hc, hr', hc'⟩ := h
  simp only [Representable, least, greatest] at *
  omega

/-! ## Coordinates that wrap around -/

section

variable {p : Position} {d : Direction} {rows cols : Nat}

theorem wrapped_eq {i : Int} (h : least ≤ i ∧ i ≤ greatest) : wrapped i = i := by
  simp only [least, greatest] at h
  exact Int32.toInt_ofInt_of_le (by omega) (by omega)

theorem wrapped_bounds (i : Int) : least ≤ wrapped i ∧ wrapped i ≤ greatest :=
  ⟨Int32.le_toInt _, Int32.toInt_le _⟩

/-- What is at most one too great to be held wraps around to a number below zero. -/
theorem wrapped_cases {i : Int} {n : Nat} (hn : n ≤ greatest + 1)
    (hi : -1 ≤ i ∧ i ≤ greatest + 1) : wrapped i = i ∨ wrapped i < 0 ∧ n ≤ i := by
  rcases Int.lt_or_eq_of_le hi.2 with hlt | rfl
  · have hleast : least ≤ -1 := by decide
    exact .inl (wrapped_eq ⟨by omega, by omega⟩)
  · exact .inr ⟨by decide, by omega⟩

theorem representable_wrappedStep (p : Position) (d : Direction) :
    (p.wrappedStep d).Representable :=
  ⟨wrapped_bounds _, wrapped_bounds _⟩

theorem wrappedStep_eq (h : (p.step d).Representable) : p.wrappedStep d = p.step d := by
  have hrow : wrapped (p.row + d.rowStep) = p.row + d.rowStep := wrapped_eq h.1
  have hcol : wrapped (p.col + d.colStep) = p.col + d.colStep := wrapped_eq h.2
  rw [wrappedStep, hrow, hcol, step]

/-- Next to a position that is counted from zero, wrapping around goes unnoticed: it leads to the
neighbour, or else both are off the board. -/
theorem wrappedStep_cases (h : p.Within rows cols) (hrows : rows ≤ greatest + 1)
    (hcols : cols ≤ greatest + 1) :
    p.wrappedStep d = p.step d ∨
      ¬ (p.wrappedStep d).Within rows cols ∧ ¬ (p.step d).Within rows cols := by
  obtain ⟨hr, hc, hr', hc'⟩ := h
  have hrow : -1 ≤ p.row + d.rowStep ∧ p.row + d.rowStep ≤ greatest + 1 := by
    cases d <;> simp only [Direction.rowStep] <;> omega
  have hcol : -1 ≤ p.col + d.colStep ∧ p.col + d.colStep ≤ greatest + 1 := by
    cases d <;> simp only [Direction.colStep] <;> omega
  rcases wrapped_cases hrows hrow with hrow' | ⟨hneg, hover⟩
  · rcases wrapped_cases hcols hcol with hcol' | ⟨hneg, hover⟩
    · left
      rw [wrappedStep, hrow', hcol', step]
    · exact .inr ⟨fun hin => Int.not_le.mpr hneg hin.2.1,
        fun hin => Int.not_le.mpr hin.2.2.2 hover⟩
  · exact .inr ⟨fun hin => Int.not_le.mpr hneg hin.1, fun hin => Int.not_le.mpr hin.2.2.1 hover⟩

end

/-! ## Lines -/

theorem advance_zero (p : Position) (d : Direction) : p.advance d 0 = p := by
  simp [advance]

theorem step_advance (p : Position) (d : Direction) (k : Nat) :
    (p.advance d k).step d = p.advance d (k + 1) := by
  cases d <;> simp [advance, step, Direction.rowStep, Direction.colStep] <;> omega

theorem advance_step (p : Position) (d : Direction) (k : Nat) :
    (p.step d).advance d k = p.advance d (k + 1) := by
  cases d <;> simp [advance, step, Direction.rowStep, Direction.colStep] <;> omega

theorem advance_one (p : Position) (d : Direction) : p.advance d 1 = p.step d := by
  rw [← step_advance, advance_zero]

theorem progress_step (p : Position) (d : Direction) :
    (p.step d).progress d = p.progress d + 1 := by
  cases d <;> simp [progress, step, Direction.rowStep, Direction.colStep] <;> omega

end Position

end WordTiles
