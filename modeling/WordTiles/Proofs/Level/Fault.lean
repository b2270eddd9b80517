import WordTiles.Proofs.Level

/-!
# The first fault of a level

A level that is not regular is refused for one fault, the first one in a fixed order: that it has no
cell, that coordinates cannot count its rows or columns, and then the first fault in reading order,
where the width of a row is looked at before its cells (`Level.FirstFault`). `Level.validate` finds
it (`Level.validate_eq_error_iff`), and finds none exactly when there is none
(`Level.validate_eq_ok_iff_faultless`). So does a check that goes through rows, cells and
specifications in three loops, each of which may break off (`Level.validateByCells`).

The main statement is `Level.validate_exact`.
-/

set_option autoImplicit false

namespace WordTiles

namespace Level

variable {l : Level} {row col : Nat} {spec : PieceSpec} {stack : List PieceSpec}
  {cells left : List (List PieceSpec)} {lines : List (List (List PieceSpec))} {fault : Malformed}

/-! ## What is wrong with a level -/

/-- The rows and columns of a level can be counted by coordinates, and there are some. -/
structure Countable (l : Level) : Prop where
  rows_pos : 0 < l.rows
  cols_pos : 0 < l.cols
  rows_le : l.rows ≤ 2 ^ 31
  cols_le : l.cols ≤ 2 ^ 31

/-- In a stack at a row and a column, every position that is declared is that of the cell. -/
def StackFaultless (row col : Nat) (stack : List PieceSpec) : Prop :=
  ∀ spec ∈ stack, ∀ declared ∈ spec.position, declared = ⟨row, col⟩

/-- In cells of a row, read from the first column on, every position that is declared is that of its
cell. -/
def RowFaultless (row : Nat) (cells : List (List PieceSpec)) : Prop :=
  ∀ (stack : List PieceSpec) (col : Nat), cells[col]? = some stack → StackFaultless row col stack

/-- Rows, read from the first one on, all have one width, and every position that is declared is
that of its cell. -/
structure Faultless (cols : Nat) (lines : List (List (List PieceSpec))) : Prop where
  length_eq : ∀ cells ∈ lines, cells.length = cols
  declared_eq : ∀ (cells : List (List PieceSpec)) (row : Nat), lines[row]? = some cells →
    RowFaultless row cells

/-- A specification, in the cell at a row and a column, before which there is no fault: not in the
rows above, not in the width of its own row, not in the cells to the left and not below it in its
stack. -/
inductive Reached (l : Level) : Nat → Nat → PieceSpec → Prop where
  | intro {above beneath : List (List (List PieceSpec))} {left right : List (List PieceSpec)}
      {lower upper : List PieceSpec} {spec : PieceSpec} :
      l.cells = above ++ (left ++ (lower ++ spec :: upper) :: right) :: beneath →
      Faultless l.cols above → (left ++ (lower ++ spec :: upper) :: right).length = l.cols →
      RowFaultless above.length (left ++ [lower]) →
      Reached l above.length left.length spec

/-- The first fault of a level. Of a row it is a fault to have another width than the first one, and
of a specification to declare a position that is not on the level, or otherwise one of another
cell. -/
inductive FirstFault (l : Level) : Malformed → Prop where
  | empty : l.rows = 0 ∨ l.cols = 0 → FirstFault l .empty
  | tooLarge : 0 < l.rows → 0 < l.cols → 2 ^ 31 < l.rows ∨ 2 ^ 31 < l.cols →
      FirstFault l (.tooLarge l.rows l.cols)
  | ragged {above beneath : List (List (List PieceSpec))} {cells : List (List PieceSpec)} :
      l.Countable → l.cells = above ++ cells :: beneath → Faultless l.cols above →
      cells.length ≠ l.cols → FirstFault l (.ragged above.length l.cols cells.length)
  | outOfBounds {row col : Nat} {spec : PieceSpec} {declared : Position} :
      l.Countable → l.Reached row col spec → spec.position = some declared →
      ¬ declared.Within l.rows l.cols → FirstFault l (.outOfBounds declared l.rows l.cols)
  | positionMismatch {row col : Nat} {spec : PieceSpec} {declared : Position} :
      l.Countable → l.Reached row col spec → spec.position = some declared →
      declared.Within l.rows l.cols → declared ≠ ⟨row, col⟩ →
      FirstFault l (.positionMismatch declared ⟨row, col⟩)

/-! ## First faults in numbered lists -/

/-- The first thing found among numbered items is found in an item before which nothing is found. -/
theorem findSome?_zipIdx_eq_some_iff {α β : Type} {g : α × Nat → Option β} {xs : List α} {y : β} :
    xs.zipIdx.findSome? g = some y ↔
      ∃ before x after, xs = before ++ x :: after ∧
        (∀ a i, before[i]? = some a → g (a, i) = none) ∧ g (x, before.length) = some y := by
  rw [List.findSome?_eq_some_iff]
  constructor
  · rintro ⟨before, ⟨x, i⟩, after, hsplit, hfound, hnone⟩
    obtain ⟨before, rest, rfl, rfl, hrest⟩ := List.zipIdx_eq_append_iff.mp hsplit
    cases rest with
    | nil => cases hrest
    | cons x' after =>
        rw [List.zipIdx_cons, Nat.zero_add] at hrest
        obtain ⟨⟨rfl, rfl⟩, -⟩ : (x = x' ∧ i = before.length) ∧ _ := by simpa using hrest
        refine ⟨before, x, after, rfl, fun a j ha => ?_, hfound⟩
        exact hnone (a, j) (List.mk_mem_zipIdx_iff_getElem?.mpr ha)
  · rintro ⟨before, x, after, rfl, hnone, hfound⟩
    refine ⟨before.zipIdx, (x, before.length), after.zipIdx (before.length + 1), ?_, hfound, ?_⟩
    · rw [List.zipIdx_append, List.zipIdx_cons, Nat.zero_add]
    · rintro ⟨a, i⟩ ha
      exact hnone a i (List.mk_mem_zipIdx_iff_getElem?.mp ha)

/-- Going through a list with a check that may break off finds the first fault in it. -/
theorem forM_eq {α : Type} {check : α → Except Malformed Unit} {fault? : α → Option Malformed}
    {xs : List α} (h : ∀ x ∈ xs, check x = (fault? x).elim (.ok ()) .error) :
    xs.forM check = (xs.findSome? fault?).elim (.ok ()) .error := by
  induction xs with
  | nil => rfl
  | cons x rest ih =>
      obtain ⟨hx, hrest⟩ := List.forall_mem_cons.mp h
      show (check x >>= fun _ => rest.forM check) = _
      rw [hx, List.findSome?_cons]
      cases fault? x with
      | none => exact ih hrest
      | some fault => rfl

/-! ## Faults of specifications and rows -/

theorem specFault?_eq_some_iff : l.specFault? row col spec = some fault ↔
    ∃ declared, spec.position = some declared ∧
      (¬ declared.Within l.rows l.cols ∧ fault = .outOfBounds declared l.rows l.cols ∨
        declared.Within l.rows l.cols ∧ declared ≠ ⟨row, col⟩ ∧
          fault = .positionMismatch declared ⟨row, col⟩) := by
  rw [specFault?]
  cases spec.position with
  | none => simp
  | some declared =>
      by_cases hon : declared.Within l.rows l.cols
      · by_cases hcell : declared = ⟨row, col⟩
        · subst hcell
          simp [hon]
        · simp [hon, hcell, eq_comm]
      · simp [hon, eq_comm]

/-- The stack that comes next is without a fault when it has none itself. -/
theorem rowFaultless_concat_iff : RowFaultless row (left ++ [stack]) ↔
    RowFaultless row left ∧ StackFaultless row left.length stack := by
  constructor
  · intro h
    refine ⟨fun s col hs => h s col ?_, h stack left.length List.getElem?_concat_length⟩
    obtain ⟨hcol, -⟩ := List.getElem?_eq_some_iff.mp hs
    rw [List.getElem?_append_left hcol]
    exact hs
  · rintro ⟨hleft, hstack⟩ s col hs
    by_cases hcol : col < left.length
    · rw [List.getElem?_append_left hcol] at hs
      exact hleft s col hs
    · obtain ⟨hlength, -⟩ := List.getElem?_eq_some_iff.mp hs
      rw [List.length_append, List.length_singleton] at hlength
      obtain rfl : col = left.length := by omega
      rw [List.getElem?_concat_length] at hs
      cases hs
      exact hstack

theorem findSome?_specFault?_eq_none_iff (hrow : row < l.rows) (hcol : col < l.cols) :
    stack.findSome? (l.specFault? row col) = none ↔ StackFaultless row col stack := by
  rw [List.findSome?_eq_none_iff]
  exact forall₂_congr fun spec _ => specFault?_eq_none_iff hrow hcol

/-- Of a row that has the width of the first, the first fault is that of a specification. -/
theorem findSome?_zipIdx_specFault?_eq_some_iff (hrow : row < l.rows)
    (hlength : cells.length = l.cols) :
    (cells.zipIdx.findSome? fun (stack, col) => stack.findSome? (l.specFault? row col)) =
        some fault ↔
      ∃ left right lower upper spec, cells = left ++ (lower ++ spec :: upper) :: right ∧
        RowFaultless row (left ++ [lower]) ∧ l.specFault? row left.length spec = some fault := by
  rw [findSome?_zipIdx_eq_some_iff]
  constructor
  · rintro ⟨left, stack, right, rfl, hleft, hstack⟩
    obtain ⟨lower, spec, upper, rfl, hspec, hunder⟩ := List.findSome?_eq_some_iff.mp hstack
    rw [List.length_append, List.length_cons] at hlength
    refine ⟨left, right, lower, upper, spec, rfl, rowFaultless_concat_iff.mpr ⟨?_, ?_⟩, hspec⟩
    · intro s col hs
      obtain ⟨hcol, -⟩ := List.getElem?_eq_some_iff.mp hs
      exact (findSome?_specFault?_eq_none_iff hrow (by omega)).mp (hleft s col hs)
    · apply (findSome?_specFault?_eq_none_iff hrow (by omega)).mp
      exact List.findSome?_eq_none_iff.mpr hunder
  · rintro ⟨left, right, lower, upper, spec, rfl, hclean, hspec⟩
    obtain ⟨hleft, hunder⟩ := rowFaultless_concat_iff.mp hclean
    rw [List.length_append, List.length_cons] at hlength
    refine ⟨left, lower ++ spec :: upper, right, rfl, fun s col hs => ?_, ?_⟩
    · obtain ⟨hcol, -⟩ := List.getElem?_eq_some_iff.mp hs
      exact (findSome?_specFault?_eq_none_iff hrow (by omega)).mpr (hleft s col hs)
    · have hnone := (findSome?_specFault?_eq_none_iff hrow (by omega)).mpr hunder
      exact List.findSome?_eq_some_iff.mpr
        ⟨lower, spec, upper, rfl, hspec, List.findSome?_eq_none_iff.mp hnone⟩

theorem rowFault?_eq_some_iff (hrow : row < l.rows) : l.rowFault? row cells = some fault ↔
    cells.length ≠ l.cols ∧ fault = .ragged row l.cols cells.length ∨
      cells.length = l.cols ∧ ∃ left right lower upper spec,
        cells = left ++ (lower ++ spec :: upper) :: right ∧ RowFaultless row (left ++ [lower]) ∧
          l.specFault? row left.length spec = some fault := by
  rw [rowFault?]
  split
  next hlength => simp [hlength, eq_comm]
  next hlength =>
    rw [not_not] at hlength
    rw [findSome?_zipIdx_specFault?_eq_some_iff hrow hlength]
    simp [hlength]

/-- Rows from the first one on have no fault exactly when none is found. -/
theorem faultless_iff (h : lines.length ≤ l.rows) : Faultless l.cols lines ↔
    ∀ (cells : List (List PieceSpec)) (row : Nat), lines[row]? = some cells →
      l.rowFault? row cells = none := by
  have hrow : ∀ (cells : List (List PieceSpec)) (row : Nat), lines[row]? = some cells →
      (l.rowFault? row cells = none ↔ cells.length = l.cols ∧ RowFaultless row cells) := by
    intro cells row hcells
    obtain ⟨hlt, -⟩ := List.getElem?_eq_some_iff.mp hcells
    exact rowFault?_eq_none_iff (by omega)
  constructor
  · rintro ⟨hlength, hdeclared⟩ cells row hcells
    exact (hrow cells row hcells).mpr
      ⟨hlength cells (List.mem_of_getElem? hcells), hdeclared cells row hcells⟩
  · intro hnone
    constructor
    · intro cells hcells
      obtain ⟨row, hget⟩ := List.mem_iff_getElem?.mp hcells
      exact ((hrow cells row hget).mp (hnone cells row hget)).1
    · intro cells row hget
      exact ((hrow cells row hget).mp (hnone cells row hget)).2

/-! ## The first fault -/

/-- Of a level whose rows and columns can be counted, the first fault is that of a row or of a
specification. -/
theorem findSome?_rowFault?_eq_some_iff (hl : l.Countable) :
    (l.cells.zipIdx.findSome? fun (cells, row) => l.rowFault? row cells) = some fault ↔
      FirstFault l fault := by
  rw [findSome?_zipIdx_eq_some_iff]
  constructor
  · rintro ⟨above, cells, beneath, hcells, hnone, hfault⟩
    have hrows : l.rows = above.length + (beneath.length + 1) := by
      rw [rows, hcells, List.length_append, List.length_cons]
    have habove : Faultless l.cols above := (faultless_iff (by omega)).mpr hnone
    obtain ⟨hlength, rfl⟩ | ⟨hlength, left, right, lower, upper, spec, rfl, hclean, hspec⟩ :=
      (rowFault?_eq_some_iff (by omega)).mp hfault
    · exact .ragged hl hcells habove hlength
    · have hreached : l.Reached above.length left.length spec :=
        .intro hcells habove hlength hclean
      obtain ⟨declared, hdeclared, ⟨hoff, rfl⟩ | ⟨hon, hcell, rfl⟩⟩ :=
        specFault?_eq_some_iff.mp hspec
      · exact .outOfBounds hl hreached hdeclared hoff
      · exact .positionMismatch hl hreached hdeclared hon hcell
  · intro h
    -- a specification that is reached is found if it has a fault
    have hspec : ∀ {row col : Nat} {spec : PieceSpec}, l.Reached row col spec →
        l.specFault? row col spec = some fault →
          ∃ above cells beneath, l.cells = above ++ cells :: beneath ∧
            (∀ cells row, above[row]? = some cells → l.rowFault? row cells = none) ∧
            l.rowFault? above.length cells = some fault := by
      rintro _ _ _ ⟨hcells, habove, hlength, hclean⟩ hfault
      have hrows := congrArg List.length hcells
      rw [List.length_append, List.length_cons, ← rows] at hrows
      exact ⟨_, _, _, hcells, (faultless_iff (by omega)).mp habove,
        (rowFault?_eq_some_iff (by omega)).mpr (.inr ⟨hlength, _, _, _, _, _, rfl, hclean, hfault⟩)⟩
    cases h with
    | empty hempty => exact absurd hempty (by have := hl.rows_pos; have := hl.cols_pos; omega)
    | tooLarge _ _ hlarge => exact absurd hlarge (by have := hl.rows_le; have := hl.cols_le; omega)
    | ragged _ hcells habove hlength =>
        have hrows := congrArg List.length hcells
        rw [List.length_append, List.length_cons, ← rows] at hrows
        exact ⟨_, _, _, hcells, (faultless_iff (by omega)).mp habove,
          (rowFault?_eq_some_iff (by omega)).mpr (.inl ⟨hlength, rfl⟩)⟩
    | outOfBounds _ hreached hdeclared hoff =>
        exact hspec hreached (specFault?_eq_some_iff.mpr ⟨_, hdeclared, .inl ⟨hoff, rfl⟩⟩)
    | positionMismatch _ hreached hdeclared hon hcell =>
        exact hspec hreached (specFault?_eq_some_iff.mpr ⟨_, hdeclared, .inr ⟨hon, hcell, rfl⟩⟩)

theorem validate_of_empty (h : l.rows = 0 ∨ l.cols = 0) : l.validate = .error .empty := by
  rw [validate, if_pos h]

theorem validate_of_tooLarge (hrows : 0 < l.rows) (hcols : 0 < l.cols)
    (h : 2 ^ 31 < l.rows ∨ 2 ^ 31 < l.cols) : l.validate = .error (.tooLarge l.rows l.cols) := by
  rw [validate, if_neg (by omega), if_pos ((Position.isNone_ofIndices?_pred_iff hrows hcols).mpr h)]

/-- A level whose rows and columns can be counted is judged by its rows. -/
theorem Countable.validate_eq (hl : l.Countable) :
    l.validate = (l.cells.zipIdx.findSome? fun (cells, row) => l.rowFault? row cells).elim
      (.ok (l.rows, l.cols)) .error := by
  obtain ⟨hrows, hcols, hrows', hcols'⟩ := hl
  rw [validate, if_neg (by omega),
    if_neg (Position.not_isNone_ofIndices?_pred hrows hcols hrows' hcols')]
  cases l.cells.zipIdx.findSome? fun (cells, row) => l.rowFault? row cells <;> rfl

/-- There are no rows or columns, or more than coordinates can count, or they can be counted. -/
theorem countable_cases (l : Level) : (l.rows = 0 ∨ l.cols = 0) ∨
    (0 < l.rows ∧ 0 < l.cols ∧ (2 ^ 31 < l.rows ∨ 2 ^ 31 < l.cols)) ∨ l.Countable := by
  by_cases hempty : l.rows = 0 ∨ l.cols = 0
  · exact .inl hempty
  by_cases hlarge : 2 ^ 31 < l.rows ∨ 2 ^ 31 < l.cols
  · exact .inr (.inl ⟨by omega, by omega, hlarge⟩)
  · exact .inr (.inr ⟨by omega, by omega, by omega, by omega⟩)

/-- The levels that are accepted have rows and columns that coordinates can count, and no fault in
them. -/
theorem validate_eq_ok_iff_faultless {size : Nat × Nat} : l.validate = .ok size ↔
    l.Countable ∧ Faultless l.cols l.cells ∧ size = (l.rows, l.cols) := by
  rw [faultless_iff (Nat.le_refl l.cells.length)]
  have hnone : (∀ (cells : List (List PieceSpec)) (row : Nat), l.cells[row]? = some cells →
      l.rowFault? row cells = none) ↔
      (l.cells.zipIdx.findSome? fun (cells, row) => l.rowFault? row cells) = none := by
    simp only [List.findSome?_eq_none_iff, Prod.forall, List.mk_mem_zipIdx_iff_getElem?]
  rw [hnone]
  constructor
  · intro h
    obtain hempty | ⟨hrows, hcols, hlarge⟩ | hl := l.countable_cases
    · rw [validate_of_empty hempty] at h
      cases h
    · rw [validate_of_tooLarge hrows hcols hlarge] at h
      cases h
    · rw [hl.validate_eq] at h
      cases hfound : l.cells.zipIdx.findSome? fun (cells, row) => l.rowFault? row cells with
      | some fault =>
          rw [hfound] at h
          cases h
      | none =>
          rw [hfound] at h
          cases h
          exact ⟨hl, rfl, rfl⟩
  · rintro ⟨hl, hfound, rfl⟩
    rw [hl.validate_eq, hfound]
    rfl

/-- A level is refused for its first fault. -/
theorem validate_eq_error_iff : l.validate = .error fault ↔ FirstFault l fault := by
  obtain hempty | ⟨hrows, hcols, hlarge⟩ | hl := l.countable_cases
  · rw [validate_of_empty hempty]
    constructor
    · intro h
      cases h
      exact .empty hempty
    · intro h
      cases h with
      | empty _ => rfl
      | tooLarge hrows hcols _ => omega
      | ragged hl | outOfBounds hl | positionMismatch hl =>
          exact absurd hempty (by have := hl.rows_pos; have := hl.cols_pos; omega)
  · rw [validate_of_tooLarge hrows hcols hlarge]
    constructor
    · intro h
      cases h
      exact .tooLarge hrows hcols hlarge
    · intro h
      cases h with
      | empty hempty => omega
      | tooLarge _ _ _ => rfl
      | ragged hl | outOfBounds hl | positionMismatch hl =>
          exact absurd hlarge (by have := hl.rows_le; have := hl.cols_le; omega)
  · rw [hl.validate_eq, ← findSome?_rowFault?_eq_some_iff hl]
    cases l.cells.zipIdx.findSome? fun (cells, row) => l.rowFault? row cells <;> simp

/-! ## Row by row, cell by cell

The check in three loops. It asks for the position of every cell, and compares what is declared,
which may be negative, with the numbers of rows and columns, which are not. -/

def checkSpec (rows cols : Nat) (cell : Position) (spec : PieceSpec) : Except Malformed Unit :=
  match spec.position with
  | none => .ok ()
  | some declared =>
    if 0 ≤ declared.row ∧ 0 ≤ declared.col ∧ declared.row.toNat < rows ∧
        declared.col.toNat < cols then
      if declared = cell then .ok () else .error (.positionMismatch declared cell)
    else .error (.outOfBounds declared rows cols)

/-- Checks the stack of a cell in a row, unless the cell has no position. -/
def checkCell (rows cols row : Nat) (cell : List PieceSpec × Nat) : Except Malformed Unit :=
  match Position.ofIndices? row cell.2 with
  | none => .error (.tooLarge rows cols)
  | some position => cell.1.forM (checkSpec rows cols position)

def checkRow (rows cols : Nat) (line : List (List PieceSpec) × Nat) : Except Malformed Unit :=
  if line.1.length ≠ cols then .error (.ragged line.2 cols line.1.length)
  else line.1.zipIdx.forM (checkCell rows cols line.2)

def validateByCells (l : Level) : Except Malformed (Nat × Nat) :=
  if l.rows = 0 ∨ l.cols = 0 then .error .empty
  else if (Position.ofIndices? (l.rows - 1) (l.cols - 1)).isNone then
    .error (.tooLarge l.rows l.cols)
  else (l.cells.zipIdx.forM (checkRow l.rows l.cols)).map fun _ => (l.rows, l.cols)

theorem checkSpec_eq (l : Level) (row col : Nat) (spec : PieceSpec) :
    checkSpec l.rows l.cols ⟨row, col⟩ spec =
      (l.specFault? row col spec).elim (.ok ()) .error := by
  rw [checkSpec, specFault?]
  cases spec.position with
  | none => rfl
  | some declared =>
      have hwithin : (0 ≤ declared.row ∧ 0 ≤ declared.col ∧ declared.row.toNat < l.rows ∧
          declared.col.toNat < l.cols) ↔ declared.Within l.rows l.cols := by
        rw [Position.Within]
        omega
      simp only [hwithin]
      by_cases hon : declared.Within l.rows l.cols
      · by_cases hcell : declared = ⟨row, col⟩
        · subst hcell
          simp [hon]
        · simp [hon, hcell]
      · simp [hon]

/-- Every cell of a row has its position, if coordinates can count the rows and the columns. -/
theorem Countable.checkCell_eq (hl : l.Countable) (hrow : row < l.rows) (hcol : col < l.cols)
    (stack : List PieceSpec) : checkCell l.rows l.cols row (stack, col) =
      (stack.findSome? (l.specFault? row col)).elim (.ok ()) .error := by
  have hrows := hl.rows_le
  have hcols := hl.cols_le
  have hposition : Position.ofIndices? row col = some ⟨row, col⟩ :=
    if_pos (by rw [Position.greatest]; omega)
  rw [checkCell, hposition]
  exact forM_eq fun spec _ => checkSpec_eq l row col spec

theorem Countable.checkRow_eq (hl : l.Countable) (hrow : row < l.rows)
    (cells : List (List PieceSpec)) :
    checkRow l.rows l.cols (cells, row) = (l.rowFault? row cells).elim (.ok ()) .error := by
  rw [checkRow, rowFault?]
  split
  · rfl
  next hlength =>
    apply forM_eq
    rintro ⟨stack, col⟩ hstack
    obtain ⟨hcol, -⟩ := List.getElem?_eq_some_iff.mp (List.mk_mem_zipIdx_iff_getElem?.mp hstack)
    exact hl.checkCell_eq hrow (not_not.mp hlength ▸ hcol) stack

/-- The three loops find what looking for the first fault finds. -/
theorem validateByCells_eq_validate (l : Level) : l.validateByCells = l.validate := by
  obtain hempty | ⟨hrows, hcols, hlarge⟩ | hl := l.countable_cases
  · rw [validateByCells, if_pos hempty, validate_of_empty hempty]
  · have hnone := (Position.isNone_ofIndices?_pred_iff hrows hcols).mpr hlarge
    rw [validateByCells, if_neg (by omega), if_pos hnone, validate_of_tooLarge hrows hcols hlarge]
  · have hrows := hl.rows_pos
    have hcols := hl.cols_pos
    have hsome := Position.not_isNone_ofIndices?_pred hrows hcols hl.rows_le hl.cols_le
    have hlines : l.cells.zipIdx.forM (checkRow l.rows l.cols) =
        (l.cells.zipIdx.findSome? fun (cells, row) => l.rowFault? row cells).elim (.ok ())
          .error := by
      apply forM_eq
      rintro ⟨cells, row⟩ hcells
      obtain ⟨hrow, -⟩ := List.getElem?_eq_some_iff.mp (List.mk_mem_zipIdx_iff_getElem?.mp hcells)
      exact hl.checkRow_eq hrow cells
    rw [validateByCells, if_neg (by omega), if_neg hsome, hlines, hl.validate_eq]
    cases l.cells.zipIdx.findSome? fun (cells, row) => l.rowFault? row cells <;> rfl

/-- **The check of a level finds its first fault.** Going through the level in three loops finds
what looking for the first fault finds. A level is accepted exactly when coordinates can count its
rows and columns, all rows have the width of the first and every position that is declared is that
of its cell, and then its size is told. Otherwise it is refused for its first fault. -/
theorem validate_exact (l : Level) :
    l.validateByCells = l.validate ∧
      (∀ size, l.validate = .ok size ↔
        l.Countable ∧ Faultless l.cols l.cells ∧ size = (l.rows, l.cols)) ∧
      ∀ fault, l.validate = .error fault ↔ FirstFault l fault :=
  ⟨validateByCells_eq_validate l, fun _ => validate_eq_ok_iff_faultless,
    fun _ => validate_eq_error_iff⟩

/-- What is declared in a row comes before the width of a later one, and that before what is
declared there. -/
example : validate ⟨[[[⟨.thing .baba, some ⟨0, 0⟩, none⟩, ⟨.thing .key, some ⟨-1, 0⟩, none⟩], []],
    [[⟨.tile "IS", some ⟨0, 0⟩, none⟩]]]⟩ = .error (.outOfBounds ⟨-1, 0⟩ 2 2) := rfl

end Level

end WordTiles
