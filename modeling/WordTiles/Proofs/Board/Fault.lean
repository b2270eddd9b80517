import Mathlib.Algebra.Group.Nat.Defs
import WordTiles.Proofs.Board.Standing

/-!
# The first fault of a board

Data that make no valid board are refused for one fault, the first one in a fixed order: that there
is no cell, that coordinates cannot count the rows or the columns, that there are more or fewer
cells than these ask for, and then the first piece in reading order that names another cell than its
own or has the identity of a piece before it (`Board.FirstFault`). `Board.validate` finds it
(`Board.validate_eq_error_iff`), and finds none exactly when there is none
(`Board.validate_eq_ok_iff_faultless`).
-/

set_option autoImplicit false

namespace WordTiles

namespace Board

variable {b : Board} {cols : Nat} {cells : List Stack} {p : Position} {x : Piece}
  {seen : Std.TreeSet PieceId} {placed rest : List (Position × Piece)} {e : Position × Piece}
  {fault : Malformed}

/-! ## What is wrong with a board -/

/-- The rows and columns of a board can be counted by coordinates, and there are some. -/
structure Countable (b : Board) : Prop where
  rows_pos : 0 < b.rows
  cols_pos : 0 < b.cols
  rows_le : b.rows ≤ 2 ^ 31
  cols_le : b.cols ≤ 2 ^ 31

/-- In cells read row by row, every piece names its own cell and no identity occurs twice. -/
structure Faultless (cols : Nat) (cells : List Stack) : Prop where
  position_eq : ∀ (i : Nat) (s : Stack), cells[i]? = some s →
    ∀ x ∈ s, x.position = ⟨(i / cols : Nat), (i % cols : Nat)⟩
  ids_nodup : (cells.flatten.map (·.id)).Nodup

/-- The first fault of a board. Of a piece it is a fault to name another cell than its own, and
otherwise to have the identity of a piece before it: one in an earlier cell or below it. -/
inductive FirstFault (b : Board) : Malformed → Prop where
  | empty : b.rows = 0 ∨ b.cols = 0 → FirstFault b .empty
  | tooLarge : 0 < b.rows → 0 < b.cols → 2 ^ 31 < b.rows ∨ 2 ^ 31 < b.cols →
      FirstFault b (.tooLarge b.rows b.cols)
  | cellCount : b.Countable → b.cells.size ≠ b.rows * b.cols →
      FirstFault b (.cellCount (b.rows * b.cols) b.cells.size)
  | positionMismatch {before after : List Stack} {below above : Stack} {x : Piece}
      {cell : Position} : b.Countable → b.cells.size = b.rows * b.cols →
      b.cells.toList = before ++ (below ++ x :: above) :: after →
      Faultless b.cols (before ++ [below]) →
      cell = ⟨(before.length / b.cols : Nat), (before.length % b.cols : Nat)⟩ → x.position ≠ cell →
      FirstFault b (.positionMismatch x.position cell)
  | duplicate {before after : List Stack} {below above : Stack} {x y : Piece} :
      b.Countable → b.cells.size = b.rows * b.cols →
      b.cells.toList = before ++ (below ++ x :: above) :: after →
      Faultless b.cols (before ++ [below]) →
      x.position = ⟨(before.length / b.cols : Nat), (before.length % b.cols : Nat)⟩ →
      y ∈ before.flatten ++ below → y.id = x.id →
      FirstFault b (.duplicate x.id)

/-! ## Faults of pieces -/

/-- The identities that have been seen when some pieces have been read. -/
def seenAfter (seen : Std.TreeSet PieceId) (placed : List (Position × Piece)) :
    Std.TreeSet PieceId :=
  placed.foldl (fun seen e => seen.insert e.2.id) seen

theorem mem_seenAfter_iff {id : PieceId} :
    id ∈ seenAfter seen placed ↔ id ∈ seen ∨ ∃ e ∈ placed, e.2.id = id := by
  induction placed generalizing seen with
  | nil => simp [seenAfter]
  | cons e rest ih =>
      rw [seenAfter, List.foldl_cons, ← seenAfter, ih, Std.TreeSet.mem_insert,
        Std.LawfulEqOrd.compare_eq_iff_eq, List.exists_mem_cons_iff, ← or_assoc]
      exact or_congr_left or_comm

/-- Pieces are read one after the other, and the first fault is told. -/
theorem pieceFault?_append (seen : Std.TreeSet PieceId) (placed rest : List (Position × Piece)) :
    pieceFault? seen (placed ++ rest) =
      (pieceFault? seen placed).or (pieceFault? (seenAfter seen placed) rest) := by
  induction placed generalizing seen with
  | nil => rfl
  | cons e placed ih =>
      obtain ⟨cell, x⟩ := e
      rw [List.cons_append, pieceFault?, pieceFault?]
      split
      · rfl
      split
      · rfl
      · exact ih _

theorem pieceFault?_cons (seen : Std.TreeSet PieceId) (e : Position × Piece)
    (rest : List (Position × Piece)) :
    pieceFault? seen (e :: rest) =
      (pieceFault? seen [e]).or (pieceFault? (seenAfter seen [e]) rest) :=
  pieceFault?_append seen [e] rest

/-- The fault of a piece after pieces that have none. -/
theorem pieceFault?_singleton_eq_some_iff : pieceFault? seen [(p, x)] = some fault ↔
    x.position ≠ p ∧ fault = .positionMismatch x.position p ∨
      x.position = p ∧ x.id ∈ seen ∧ fault = .duplicate x.id := by
  rw [pieceFault?]
  split
  next hposition => simp [hposition, eq_comm]
  next hposition =>
    rw [not_not] at hposition
    split
    next hseen => simp [hposition, hseen, eq_comm]
    next hseen => simp [pieceFault?, hposition, hseen]

/-- The fault that is told is that of a piece before which there is none. -/
theorem pieceFault?_eq_some_iff : pieceFault? seen placed = some fault ↔
    ∃ before e after, placed = before ++ e :: after ∧ pieceFault? seen before = none ∧
      pieceFault? (seenAfter seen before) [e] = some fault := by
  constructor
  · intro h
    induction placed generalizing seen with
    | nil => cases h
    | cons e rest ih =>
        rw [pieceFault?_cons] at h
        cases hfirst : pieceFault? seen [e] with
        | some fault' =>
            rw [hfirst] at h
            cases h
            exact ⟨[], e, rest, rfl, rfl, hfirst⟩
        | none =>
            rw [hfirst, Option.none_or] at h
            obtain ⟨before, e', after, rfl, hnone, hsome⟩ := ih h
            refine ⟨e :: before, e', after, rfl, ?_, hsome⟩
            rw [pieceFault?_cons, hfirst, Option.none_or, hnone]
  · rintro ⟨before, e, after, rfl, hnone, hsome⟩
    rw [pieceFault?_append, hnone, Option.none_or, pieceFault?_cons, hsome, Option.some_or]

/-! ## Pieces in their cells -/

/-- The pieces of cells that are read from a place on, each with the position of its cell. -/
def placementsFrom (cols place : Nat) (cells : List Stack) : List (Position × Piece) :=
  (cells.zipIdx place).flatMap fun (s, i) =>
    s.map fun x => (⟨(i / cols : Nat), (i % cols : Nat)⟩, x)

theorem placementsFrom_append (cols place : Nat) (cells cells' : List Stack) :
    placementsFrom cols place (cells ++ cells') =
      placementsFrom cols place cells ++ placementsFrom cols (place + cells.length) cells' := by
  rw [placementsFrom, List.zipIdx_append, List.flatMap_append]
  rfl

theorem placementsFrom_cons (cols place : Nat) (s : Stack) (rest : List Stack) :
    placementsFrom cols place (s :: rest) =
      s.map (fun x => (⟨(place / cols : Nat), (place % cols : Nat)⟩, x)) ++
        placementsFrom cols (place + 1) rest := by
  rw [placementsFrom, List.zipIdx_cons, List.flatMap_cons]
  rfl

theorem placementsFrom_singleton (cols place : Nat) (s : Stack) :
    placementsFrom cols place [s] =
      s.map fun x => (⟨(place / cols : Nat), (place % cols : Nat)⟩, x) := by
  rw [placementsFrom_cons]
  exact List.append_nil _

/-- Cells are read one after the other, and the first fault of a piece is told. -/
theorem pieceFault?_placementsFrom_cons (seen : Std.TreeSet PieceId) (cols place : Nat) (s : Stack)
    (rest : List Stack) :
    pieceFault? seen (placementsFrom cols place (s :: rest)) =
      (pieceFault? seen (placementsFrom cols place [s])).or
        (pieceFault? (seenAfter seen (placementsFrom cols place [s]))
          (placementsFrom cols (place + 1) rest)) := by
  rw [placementsFrom_cons, pieceFault?_append, placementsFrom_singleton]

theorem mem_placementsFrom_iff : (p, x) ∈ placementsFrom cols 0 cells ↔
    ∃ (i : Nat) (s : Stack), cells[i]? = some s ∧ x ∈ s ∧
      p = ⟨(i / cols : Nat), (i % cols : Nat)⟩ := by
  simp only [placementsFrom, List.mem_flatMap, List.mem_map, Prod.mk.injEq, Prod.exists,
    List.mk_mem_zipIdx_iff_getElem?]
  constructor
  · rintro ⟨s, i, hs, x, hx, rfl, rfl⟩
    exact ⟨i, s, hs, hx, rfl⟩
  · rintro ⟨i, s, hs, hx, rfl⟩
    exact ⟨s, i, hs, x, hx, rfl, rfl⟩

theorem pieceFault?_placementsFrom_eq_none_iff :
    pieceFault? ∅ (placementsFrom cols 0 cells) = none ↔ Faultless cols cells := by
  have hboard : pieceFault? ∅ (placementsFrom cols 0 cells) = none ↔
      (∀ e ∈ placementsFrom cols 0 cells, e.2.position = e.1) ∧
        (cells.flatten.map (·.id)).Nodup :=
    pieceFault?_placements_eq_none_iff ⟨0, cols, cells.toArray⟩
  rw [hboard]
  constructor
  · rintro ⟨hposition, hnodup⟩
    refine ⟨fun i s hs x hx => ?_, hnodup⟩
    exact hposition (_, x) (mem_placementsFrom_iff.mpr ⟨i, s, hs, hx, rfl⟩)
  · rintro ⟨hposition, hnodup⟩
    refine ⟨fun ⟨p, x⟩ hplaced => ?_, hnodup⟩
    obtain ⟨i, s, hs, hx, rfl⟩ := mem_placementsFrom_iff.mp hplaced
    exact hposition i s hs x hx

/-- The identities seen in cells are those of their pieces. -/
theorem mem_seenAfter_placementsFrom_iff {place : Nat} {id : PieceId} :
    id ∈ seenAfter ∅ (placementsFrom cols place cells) ↔ ∃ y ∈ cells.flatten, y.id = id := by
  have hpieces : (placementsFrom cols place cells).map Prod.snd = cells.flatten := by
    induction cells generalizing place with
    | nil => rfl
    | cons s rest ih =>
        rw [placementsFrom_cons, List.map_append, List.map_map, ih, List.flatten_cons]
        exact congrArg (· ++ rest.flatten) (List.map_id s)
  rw [mem_seenAfter_iff, or_iff_right (by simp), ← hpieces]
  simp only [List.mem_map, exists_exists_and_eq_and]

/-- An item that stands somewhere in two lists, one after the other, is in the second or in the
first. -/
theorem append_eq_append_cons_cases {α : Type} {first second before after : List α} {e : α}
    (h : first ++ second = before ++ e :: after) :
    (∃ before', before = first ++ before' ∧ second = before' ++ e :: after) ∨
      ∃ after', first = before ++ e :: after' := by
  obtain hsecond | ⟨after', rfl, hafter⟩ := List.append_eq_append_iff.mp h
  · exact .inl hsecond
  · cases after' with
    | nil => exact .inl ⟨[], by simp, hafter.symm⟩
    | cons e' after' => exact .inr ⟨after', by rw [(List.cons.inj hafter).1]⟩

/-- A piece that is read after others is in a cell: those before it are in earlier cells or below
it. -/
theorem exists_of_placementsFrom_eq {place : Nat} {before after : List (Position × Piece)}
    (h : placementsFrom cols place cells = before ++ (p, x) :: after) :
    ∃ cellsBefore below above cellsAfter,
      cells = cellsBefore ++ (below ++ x :: above) :: cellsAfter ∧
        before = placementsFrom cols place (cellsBefore ++ [below]) ∧
        p = ⟨((place + cellsBefore.length) / cols : Nat),
          ((place + cellsBefore.length) % cols : Nat)⟩ := by
  induction cells generalizing place before with
  | nil =>
      rw [placementsFrom, List.zipIdx_nil, List.flatMap_nil] at h
      simp at h
  | cons s rest ih =>
      rw [placementsFrom_cons] at h
      obtain ⟨before', rfl, hrest⟩ | ⟨above, hfirst⟩ := append_eq_append_cons_cases h
      -- the piece comes after the first cell
      · obtain ⟨cellsBefore, below, above, cellsAfter, rfl, rfl, rfl⟩ := ih hrest
        refine ⟨s :: cellsBefore, below, above, cellsAfter, rfl, ?_, ?_⟩
        · rw [List.cons_append, placementsFrom_cons]
        · rw [List.length_cons, Nat.add_assoc, Nat.add_comm 1]
      -- the piece is in the first cell
      · obtain ⟨below, above, rfl, rfl, habove⟩ := List.map_eq_append_iff.mp hfirst
        obtain ⟨y, above, rfl, hy, -⟩ := List.map_eq_cons_iff.mp habove
        obtain ⟨rfl, rfl⟩ := Prod.mk.inj hy
        refine ⟨[], below, above, rest, rfl, ?_, rfl⟩
        rw [List.nil_append, placementsFrom_singleton]

/-- A piece in a cell is read after those in earlier cells and those below it. -/
theorem exists_placementsFrom_eq (cols : Nat) (cellsBefore cellsAfter : List Stack)
    (below above : Stack) (x : Piece) :
    ∃ after, placementsFrom cols 0 (cellsBefore ++ (below ++ x :: above) :: cellsAfter) =
      placementsFrom cols 0 (cellsBefore ++ [below]) ++
        (⟨(cellsBefore.length / cols : Nat), (cellsBefore.length % cols : Nat)⟩, x) :: after := by
  rw [placementsFrom_append, placementsFrom_cons, placementsFrom_append, placementsFrom_singleton,
    Nat.zero_add, List.map_append, List.map_cons]
  simp only [List.append_assoc, List.cons_append]
  exact ⟨_, rfl⟩

/-! ## The first fault -/

/-- Of a board with as many cells as its rows and columns ask for, the first fault is that of a
piece. -/
theorem pieceFault?_placements_eq_some_iff (hb : b.Countable)
    (hsize : b.cells.size = b.rows * b.cols) :
    pieceFault? ∅ b.placements = some fault ↔ FirstFault b fault := by
  constructor
  · intro h
    have hplaced : pieceFault? ∅ (placementsFrom b.cols 0 b.cells.toList) = some fault := h
    obtain ⟨before, ⟨p, x⟩, after, hsplit, hnone, hfault⟩ := pieceFault?_eq_some_iff.mp hplaced
    obtain ⟨cellsBefore, below, above, cellsAfter, hcells, rfl, rfl⟩ :=
      exists_of_placementsFrom_eq hsplit
    rw [pieceFault?_placementsFrom_eq_none_iff] at hnone
    rw [Nat.zero_add, pieceFault?_singleton_eq_some_iff, mem_seenAfter_placementsFrom_iff,
      List.flatten_append, List.flatten_singleton] at hfault
    obtain ⟨hposition, rfl⟩ | ⟨hposition, ⟨y, hy, hid⟩, rfl⟩ := hfault
    · exact .positionMismatch hb hsize hcells hnone rfl hposition
    · exact .duplicate hb hsize hcells hnone hposition hy hid
  · intro h
    cases h with
    | empty hempty => exact absurd hempty (by have := hb.rows_pos; have := hb.cols_pos; omega)
    | tooLarge _ _ hlarge => exact absurd hlarge (by have := hb.rows_le; have := hb.cols_le; omega)
    | cellCount _ hcount => exact absurd hsize hcount
    | positionMismatch _ _ hcells hclean hcell hposition =>
        obtain ⟨after, hsplit⟩ := exists_placementsFrom_eq b.cols _ _ _ _ _
        rw [← hcells, ← hcell] at hsplit
        exact pieceFault?_eq_some_iff.mpr ⟨_, _, _, hsplit,
          pieceFault?_placementsFrom_eq_none_iff.mpr hclean,
          pieceFault?_singleton_eq_some_iff.mpr (.inl ⟨hposition, rfl⟩)⟩
    | duplicate _ _ hcells hclean hposition hy hid =>
        obtain ⟨after, hsplit⟩ := exists_placementsFrom_eq b.cols _ _ _ _ _
        rw [← hcells] at hsplit
        refine pieceFault?_eq_some_iff.mpr ⟨_, _, _, hsplit,
          pieceFault?_placementsFrom_eq_none_iff.mpr hclean,
          pieceFault?_singleton_eq_some_iff.mpr (.inr ⟨hposition, ?_, rfl⟩)⟩
        rw [mem_seenAfter_placementsFrom_iff, List.flatten_append, List.flatten_singleton]
        exact ⟨_, hy, hid⟩

theorem validate_of_empty (h : b.rows = 0 ∨ b.cols = 0) : b.validate = .error .empty := by
  rw [validate, if_pos h]

theorem validate_of_tooLarge (hrows : 0 < b.rows) (hcols : 0 < b.cols)
    (h : 2 ^ 31 < b.rows ∨ 2 ^ 31 < b.cols) :
    b.validate = .error (.tooLarge b.rows b.cols) := by
  rw [validate, if_neg (by omega), if_pos ((Position.isNone_ofIndices?_pred_iff hrows hcols).mpr h)]

theorem Countable.validate_of_size_ne (hb : b.Countable) (h : b.cells.size ≠ b.rows * b.cols) :
    b.validate = .error (.cellCount (b.rows * b.cols) b.cells.size) := by
  obtain ⟨hrows, hcols, hrows', hcols'⟩ := hb
  rw [validate, if_neg (by omega),
    if_neg (Position.not_isNone_ofIndices?_pred hrows hcols hrows' hcols'), if_pos h]

/-- A board with as many cells as its rows and columns ask for is judged by its pieces. -/
theorem Countable.validate_of_size_eq (hb : b.Countable) (h : b.cells.size = b.rows * b.cols) :
    b.validate = (pieceFault? ∅ b.placements).elim (.ok ()) .error := by
  obtain ⟨hrows, hcols, hrows', hcols'⟩ := hb
  rw [validate, if_neg (by omega),
    if_neg (Position.not_isNone_ofIndices?_pred hrows hcols hrows' hcols'),
    if_neg (not_not.mpr h)]
  cases pieceFault? ∅ b.placements <;> rfl

/-- The boards that are accepted have rows and columns that coordinates can count, as many cells as
these ask for, and no fault in them. -/
theorem validate_eq_ok_iff_faultless : b.validate = .ok () ↔
    b.Countable ∧ b.cells.size = b.rows * b.cols ∧ Faultless b.cols b.cells.toList := by
  have hfaultless : Faultless b.cols b.cells.toList ↔ pieceFault? ∅ b.placements = none :=
    pieceFault?_placementsFrom_eq_none_iff.symm
  constructor
  · intro h
    have hb := validate_eq_ok_iff.mp h
    have hcountable : b.Countable := ⟨hb.rows_pos, hb.cols_pos, hb.rows_le, hb.cols_le⟩
    refine ⟨hcountable, hb.sized, hfaultless.mpr ?_⟩
    exact (pieceFault?_placements_eq_none_iff b).mpr ⟨hb.position_eq, hb.ids_nodup⟩
  · rintro ⟨hcountable, hsize, hclean⟩
    rw [hcountable.validate_of_size_eq hsize, hfaultless.mp hclean]
    rfl

theorem validate_eq_error_iff : b.validate = .error fault ↔ FirstFault b fault := by
  constructor
  · intro h
    by_cases hempty : b.rows = 0 ∨ b.cols = 0
    · rw [validate_of_empty hempty] at h
      cases h
      exact .empty hempty
    have hrows : 0 < b.rows := by omega
    have hcols : 0 < b.cols := by omega
    by_cases hlarge : 2 ^ 31 < b.rows ∨ 2 ^ 31 < b.cols
    · rw [validate_of_tooLarge hrows hcols hlarge] at h
      cases h
      exact .tooLarge hrows hcols hlarge
    have hb : b.Countable := ⟨hrows, hcols, by omega, by omega⟩
    by_cases hsize : b.cells.size = b.rows * b.cols
    · rw [hb.validate_of_size_eq hsize] at h
      cases hfault : pieceFault? ∅ b.placements with
      | none =>
          rw [hfault] at h
          cases h
      | some fault' =>
          rw [hfault] at h
          cases h
          exact (pieceFault?_placements_eq_some_iff hb hsize).mp hfault
    · rw [hb.validate_of_size_ne hsize] at h
      cases h
      exact .cellCount hb hsize
  · intro h
    have hpiece : b.Countable → b.cells.size = b.rows * b.cols → b.validate = .error fault := by
      intro hb hsize
      rw [hb.validate_of_size_eq hsize, (pieceFault?_placements_eq_some_iff hb hsize).mpr h]
      rfl
    cases h with
    | empty hempty => exact validate_of_empty hempty
    | tooLarge hrows hcols hlarge => exact validate_of_tooLarge hrows hcols hlarge
    | cellCount hb hcount => exact hb.validate_of_size_ne hcount
    | positionMismatch hb hsize => exact hpiece hb hsize
    | duplicate hb hsize => exact hpiece hb hsize

end Board

end WordTiles
