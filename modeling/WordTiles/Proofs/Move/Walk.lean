import Mathlib.Data.Nat.Find
import Mathlib.Logic.Function.Iterate
import WordTiles.Proofs.CoordinateRange
import WordTiles.Proofs.Move.Resolution

/-!
# Where a push chain ends

A cell *yields* when it is on the board, holds nothing that blocks, and holds something that can
be pushed. A chain walks over the cells ahead of a position as long as they yield. How many do, the
board alone decides (`Board.YieldsFor`); the limit only decides whether so many may be pushed. If
they may, the first cell that does not yield says how the chain ends (`Board.chainAlong_eq`).

With the default limit the walk is the recursion in which a piece can move when the cell ahead is
on the board, nothing there blocks, and every piece there that can be pushed can itself move
(`Board.CanMove`, `Board.Valid.canStep_iff_canMove`).

All this is said of any way `next` from cell to cell that inside the board goes straight ahead
(`Board.LeadsAhead`). Coordinates of 32 bits do so from wherever they start. Integers tell the same
as long as the first cell ahead of the start can be held; far off the board it may be that it
cannot, and then wrapping around leads somewhere else. That is the only place where a walk can need
it, unless the board has `2 ^ 31` rows or columns (`Board.pushChain?_eq`).

The main statement is `Board.pushChain_exact`.
-/

set_option autoImplicit false

namespace WordTiles

namespace Position

theorem progress_advance (p : Position) (d : Direction) (k : Nat) :
    (p.advance d k).progress d = p.progress d + k := by
  cases d <;> simp [progress, advance, Direction.rowStep, Direction.colStep] <;> omega

theorem iterate_step (p : Position) (d : Direction) (k : Nat) :
    (·.step d)^[k] p = p.advance d k := by
  induction k with
  | zero => exact (p.advance_zero d).symm
  | succ k ih => rw [Function.iterate_succ_apply', ih, step_advance]

theorem representable_iterate_wrappedStep {p : Position} (hp : p.Representable) (d : Direction)
    (k : Nat) : ((·.wrappedStep d)^[k] p).Representable := by
  cases k with
  | zero => exact hp
  | succ k =>
      rw [Function.iterate_succ_apply']
      exact representable_wrappedStep _ d

end Position

namespace Board

variable {b : Board} {t : CapabilityTable} {d : Direction} {p q : Position} {n limit : Nat}
  {next : Position → Position}

/-! ## Ways from cell to cell -/

/-- From every cell of the board it is one step ahead to the next position, unless both the one
and the other lead off the board. -/
def LeadsAhead (b : Board) (next : Position → Position) (d : Direction) : Prop :=
  ∀ q, b.InBounds q → b.SameCell (next q) (q.step d)

theorem leadsAhead_step (b : Board) (d : Direction) : b.LeadsAhead (·.step d) d :=
  fun _ _ => .inl rfl

theorem Valid.leadsAhead_wrappedStep (hb : b.Valid) (d : Direction) :
    b.LeadsAhead (·.wrappedStep d) d :=
  fun _ hq => hb.sameCell_wrappedStep hq

/-- As long as the positions ahead are on the board they are on one line. -/
theorem LeadsAhead.iterate_eq (hnext : b.LeadsAhead next d)
    (hin : ∀ k, 0 < k → k ≤ n → b.InBounds (next^[k] p)) {k : Nat} (hk : k < n) :
    next^[k + 1] p = (next p).advance d k := by
  induction k with
  | zero => exact (Position.advance_zero _ d).symm
  | succ k ih =>
      have hcell := hnext _ (hin (k + 1) (by omega) (by omega))
      have hahead := hin (k + 1 + 1) (by omega) (by omega)
      rw [Function.iterate_succ_apply'] at hahead ⊢
      rw [hcell.eq (hcell.inBounds_iff.mp hahead), ih (by omega), Position.step_advance]

/-- No line on the board is longer than its rows and columns together. -/
theorem LeadsAhead.le_defaultLimit (hnext : b.LeadsAhead next d)
    (hin : ∀ k, 0 < k → k ≤ n → b.InBounds (next^[k] p)) : n ≤ b.defaultLimit := by
  by_contra hlong
  have hfar : b.rows + b.cols < n := Nat.lt_of_not_le hlong
  have hlast := hin (b.rows + b.cols + 1) (by omega) hfar
  rw [hnext.iterate_eq hin hfar] at hlast
  exact not_inBounds_advance_of_le (hin 1 Nat.one_pos (by omega)) (by omega) hlast

/-! ## Cells that yield -/

/-- A chain goes on over a cell of the board that holds nothing that blocks and something that can
be pushed. -/
def Yields (b : Board) (t : CapabilityTable) (q : Position) : Prop :=
  b.InBounds q ∧ (∀ x ∈ b.stackAt q, (t.ofPiece x).blocking = false) ∧
    ∃ x ∈ b.stackAt q, (t.ofPiece x).pushable = true

instance (b : Board) (t : CapabilityTable) (q : Position) : Decidable (b.Yields t q) := by
  unfold Yields; infer_instance

/-- Exactly `n` cells ahead of `p` yield, one after the other. -/
structure YieldsFor (b : Board) (t : CapabilityTable) (next : Position → Position) (p : Position)
    (n : Nat) : Prop where
  yields : ∀ k, 0 < k → k ≤ n → b.Yields t (next^[k] p)
  ends : ¬ b.Yields t (next^[n + 1] p)

theorem yieldsFor_zero_iff : b.YieldsFor t next p 0 ↔ ¬ b.Yields t (next p) :=
  ⟨fun h => h.ends, fun h => ⟨fun k hk hk0 => by omega, h⟩⟩

/-- The first cell ahead yields, and from there on one cell less does. -/
theorem yieldsFor_succ_iff :
    b.YieldsFor t next p (n + 1) ↔ b.Yields t (next p) ∧ b.YieldsFor t next (next p) n := by
  constructor
  · intro h
    exact ⟨h.yields 1 Nat.one_pos (by omega),
      fun k hk hkn => h.yields (k + 1) (by omega) (by omega), h.ends⟩
  · rintro ⟨hfirst, hrest⟩
    refine ⟨fun k hk hkn => ?_, hrest.ends⟩
    obtain ⟨j, rfl⟩ : ∃ j, k = j + 1 := ⟨k - 1, by omega⟩
    rcases Nat.eq_zero_or_pos j with rfl | hj
    · exact hfirst
    · exact hrest.yields j hj (by omega)

theorem YieldsFor.eq {m : Nat} (h : b.YieldsFor t next p n) (h' : b.YieldsFor t next p m) :
    n = m := by
  rcases Nat.lt_trichotomy n m with hlt | heq | hgt
  · exact absurd (h'.yields (n + 1) (by omega) hlt) h.ends
  · exact heq
  · exact absurd (h.yields (m + 1) (by omega) hgt) h'.ends

/-- A line that yields has not left the board, so it is not longer than the default limit. -/
theorem YieldsFor.le_defaultLimit (hnext : b.LeadsAhead next d) (h : b.YieldsFor t next p n) :
    n ≤ b.defaultLimit :=
  hnext.le_defaultLimit fun k hk hkn => (h.yields k hk hkn).1

/-- From every position the cells that yield come to an end. -/
theorem LeadsAhead.exists_yieldsFor (hnext : b.LeadsAhead next d) (t : CapabilityTable)
    (p : Position) : ∃ n, b.YieldsFor t next p n := by
  have hends : ∃ n, ¬ b.Yields t (next^[n + 1] p) := by
    by_contra hall
    simp only [not_exists, not_not] at hall
    have hlong : b.defaultLimit + 1 ≤ b.defaultLimit := by
      apply hnext.le_defaultLimit (p := p)
      intro k hk _
      obtain ⟨j, rfl⟩ : ∃ j, k = j + 1 := ⟨k - 1, by omega⟩
      exact (hall j).1
    omega
  refine ⟨Nat.find hends, fun k hk hkn => ?_, Nat.find_spec hends⟩
  obtain ⟨j, rfl⟩ : ∃ j, k = j + 1 := ⟨k - 1, by omega⟩
  exact not_not.mp (Nat.find_min hends (by omega))

/-! ## The walk -/

/-- Why a chain stops before a cell that does not yield; if for no reason, the step is free. -/
def stop? (b : Board) (t : CapabilityTable) (q : Position) : Option Refusal :=
  if ¬ b.InBounds q then some .edge
  else if ∃ x ∈ b.stackAt q, (t.ofPiece x).blocking = true then some .blocked
  else none

theorem stop?_eq_none_iff :
    b.stop? t q = none ↔
      b.InBounds q ∧ ∀ x ∈ b.stackAt q, (t.ofPiece x).blocking = false := by
  unfold stop?
  by_cases hin : b.InBounds q
  · by_cases hblocks : ∃ x ∈ b.stackAt q, (t.ofPiece x).blocking = true
    · simp [hin, hblocks]
    · simp only [hin, hblocks, not_true_eq_false, if_false, true_and, true_iff]
      simpa using hblocks
  · simp [hin]

/-- What can be pushed in the `n` cells ahead of `p`, nearest cell first and bottom to top within a
cell, each piece with its place in its stack. -/
def pushedAhead (b : Board) (t : CapabilityTable) (next : Position → Position) (p : Position)
    (n : Nat) : List Pushed :=
  (List.range n).flatMap fun k =>
    ((b.stackAt (next^[k + 1] p)).zipIdx.filter fun e => (t.ofPiece e.1).pushable).map
      fun e => ⟨e.1, e.2⟩

theorem pushedAhead_succ (b : Board) (t : CapabilityTable) (next : Position → Position)
    (p : Position) (n : Nat) :
    b.pushedAhead t next p (n + 1) =
      t.pushables (b.stackAt (next p)) ++ b.pushedAhead t next (next p) n := by
  unfold pushedAhead
  rw [List.range_succ_eq_map, List.flatMap_cons, List.flatMap_map]
  rfl

/-- A cell that does not yield ends the walk, whatever the limit. -/
theorem chainAlong_of_not_yields (h : ¬ b.Yields t (next p)) (limit : Nat) :
    b.chainAlong t next limit p =
      match b.stop? t (next p) with
      | some reason => .error reason
      | none => .ok [] := by
  have hblocks : t.blocks (b.stackAt (next p)) = true ↔
      ∃ x ∈ b.stackAt (next p), (t.ofPiece x).blocking = true := List.any_eq_true
  rw [chainAlong.eq_def, stop?]
  simp only [← hblocks]
  by_cases hin : b.InBounds (next p)
  · by_cases hblocked : t.blocks (b.stackAt (next p)) = true
    · simp [hin, hblocked]
    -- as the cell does not yield, there is nothing to push in it
    · rw [Bool.not_eq_true] at hblocked
      have hempty : t.pushables (b.stackAt (next p)) = [] := by
        by_contra hload
        exact h ⟨hin, CapabilityTable.blocks_eq_false_iff.mp hblocked,
          CapabilityTable.loaded_iff.mpr hload⟩
      simp [hin, hblocked, hempty]
  · simp [hin]

/-- A cell that yields takes one off the limit, if there is something left of it. -/
theorem chainAlong_of_yields (h : b.Yields t (next p)) (limit : Nat) :
    b.chainAlong t next limit p =
      match limit with
      | 0 => .error .tooLong
      | limit + 1 =>
        (b.chainAlong t next limit (next p)).map (t.pushables (b.stackAt (next p)) ++ ·) := by
  obtain ⟨hin, hclear, hload⟩ := h
  have hblocks := CapabilityTable.blocks_eq_false_iff.mpr hclear
  have hload' := CapabilityTable.loaded_iff.mp hload
  cases limit <;> simp [chainAlong, hin, hblocks, hload']

/-- The walk over `n` cells that yield is refused if the limit is smaller, and otherwise ends as
the next cell says, with all that can be pushed in those it went over. -/
theorem chainAlong_eq (h : b.YieldsFor t next p n) (limit : Nat) :
    b.chainAlong t next limit p =
      if limit < n then .error .tooLong
      else
        match b.stop? t (next^[n + 1] p) with
        | some reason => .error reason
        | none => .ok (b.pushedAhead t next p n) := by
  -- every cell gone over takes one off the limit and off the number of cells that are left
  induction n generalizing p limit with
  | zero =>
      rw [chainAlong_of_not_yields (yieldsFor_zero_iff.mp h), if_neg (Nat.not_lt_zero limit)]
      rfl
  | succ n ih =>
      obtain ⟨hfirst, hrest⟩ := yieldsFor_succ_iff.mp h
      rw [chainAlong_of_yields hfirst]
      cases limit with
      | zero => rw [if_pos (Nat.succ_pos n)]
      | succ limit =>
          simp only [ih hrest limit, Nat.add_lt_add_iff_right, ← Function.iterate_succ_apply,
            pushedAhead_succ]
          split
          · rfl
          · cases b.stop? t (next^[n + 1 + 1] p) <;> rfl

theorem Valid.nodup_pushedAhead (hb : b.Valid) (hnext : b.LeadsAhead next d)
    (h : b.YieldsFor t next p n) : ((b.pushedAhead t next p n).map (·.piece.id)).Nodup := by
  have hcell : ∀ s : Stack, (s.map (·.id)).Nodup →
      (((s.zipIdx.filter fun e => (t.ofPiece e.1).pushable).map fun e =>
        (⟨e.1, e.2⟩ : Pushed)).map (·.piece.id)).Nodup := by
    intro s hs
    rw [← List.zipIdx_map_fst 0 s, List.map_map] at hs
    rw [List.map_map]
    exact (List.filter_sublist.map _).nodup hs
  have hline : ∀ k < n, next^[k + 1] p = (next p).advance d k := fun k hk =>
    hnext.iterate_eq (fun i hi hin => (h.yields i hi hin).1) hk
  unfold pushedAhead
  rw [List.map_flatMap, List.nodup_flatMap]
  refine ⟨fun k _ => hcell _ (hb.nodup_stackAt _),
    List.nodup_range.imp_of_mem fun {j k} hj hk hjk => ?_⟩
  rw [List.mem_range] at hj hk
  -- an identity stands in one cell only, and the cells ahead are different ones
  intro id hidj hidk
  simp only [List.mem_map, List.mem_filter, Prod.exists,
    List.mk_mem_zipIdx_iff_getElem?] at hidj hidk
  obtain ⟨-, ⟨x, i, ⟨hx, -⟩, rfl⟩, rfl⟩ := hidj
  obtain ⟨-, ⟨y, i', ⟨hy, -⟩, rfl⟩, hid⟩ := hidk
  have hcells := hb.cell_eq_of_id_eq (List.mem_of_getElem? hx) (List.mem_of_getElem? hy) hid.symm
  rw [hline j hj, hline k hk] at hcells
  have hprogress := congrArg (·.progress d) hcells
  simp only [Position.progress_advance] at hprogress
  omega

/-! ## Whether a piece can move -/

/-- A piece at `p` can move when the cell ahead is on the board, nothing there blocks, and every
piece there that can be pushed can move from where it stands. -/
inductive CanMove (b : Board) (t : CapabilityTable) (next : Position → Position) : Position → Prop
  | step {p : Position} (inBounds : b.InBounds (next p))
      (clear : ∀ x ∈ b.stackAt (next p), (t.ofPiece x).blocking = false)
      (pushed : ∀ x ∈ b.stackAt (next p), (t.ofPiece x).pushable = true →
        CanMove b t next x.position) : CanMove b t next p

theorem Valid.canMove_of_yields (hb : b.Valid) (h : b.Yields t (next p)) :
    b.CanMove t next p ↔ b.CanMove t next (next p) := by
  obtain ⟨hin, hclear, y, hy, hpush⟩ := h
  constructor
  · rintro ⟨-, -, hpushed⟩
    rw [← hb.position_of_mem hy]
    exact hpushed y hy hpush
  · intro hnext
    refine .step hin hclear fun x hx _ => ?_
    rw [hb.position_of_mem hx]
    exact hnext

theorem canMove_of_not_yields (h : ¬ b.Yields t (next p)) :
    b.CanMove t next p ↔ b.stop? t (next p) = none := by
  rw [stop?_eq_none_iff]
  constructor
  · rintro ⟨hin, hclear, -⟩
    exact ⟨hin, hclear⟩
  · rintro ⟨hin, hclear⟩
    exact .step hin hclear fun x hx hpush => absurd ⟨hin, hclear, x, hx, hpush⟩ h

/-- Whether a piece can move is decided by the first cell that does not yield. -/
theorem Valid.canMove_iff (hb : b.Valid) (h : b.YieldsFor t next p n) :
    b.CanMove t next p ↔ b.stop? t (next^[n + 1] p) = none := by
  induction n generalizing p with
  | zero => exact canMove_of_not_yields (yieldsFor_zero_iff.mp h)
  | succ n ih =>
      obtain ⟨hfirst, hrest⟩ := yieldsFor_succ_iff.mp h
      rw [hb.canMove_of_yields hfirst, ih hrest, ← Function.iterate_succ_apply]

theorem canStep_iff :
    b.canStep t d limit p = true ↔ ∃ pushed, b.pushChain t d limit p = .ok pushed := by
  rw [canStep]
  cases b.pushChain t d limit p with
  | error e => simp [Except.isOk, Except.toBool]
  | ok pushed => simp [Except.isOk, Except.toBool]

theorem Valid.canStep_iff_canMove (hb : b.Valid) (hnext : b.LeadsAhead next d)
    (hchain : ∀ limit, b.pushChain t d limit p = b.chainAlong t next limit p) :
    b.canStep t d b.defaultLimit p = true ↔ b.CanMove t next p := by
  obtain ⟨n, h⟩ := hnext.exists_yieldsFor t p
  rw [canStep_iff, hb.canMove_iff h, hchain, chainAlong_eq h,
    if_neg (Nat.not_lt.mpr (h.le_defaultLimit hnext))]
  cases b.stop? t (next^[n + 1] p) with
  | none => simp
  | some reason => simp

/-! ## The exact answer

The row that the result is tried on begins with two rocks that have a flag between them, and goes on
with a tile, a flag, and an empty cell. -/

/-- What push chains from `p` are, where `next` leads from cell to cell. There is one number of
cells ahead that yield one after the other. A smaller limit refuses the chain. Any other limit
leaves it to the next cell: the chain is refused if that cell is off the board, or else if something
there blocks, and otherwise it takes along all that can be pushed in the cells it went over, each
piece once. The default limit never refuses a chain, and with it the chain is allowed exactly when
the recursion says that a piece can move. -/
structure ChainsExactly (b : Board) (t : CapabilityTable) (d : Direction)
    (next : Position → Position) (p : Position) : Prop where
  existsUnique : ∃! n, b.YieldsFor t next p n
  eq : ∀ n, b.YieldsFor t next p n →
    let stop := next^[n + 1] p
    ∀ limit, b.pushChain t d limit p =
      if limit < n then .error .tooLong
      else if ¬ b.InBounds stop then .error .edge
      else if ∃ x ∈ b.stackAt stop, (t.ofPiece x).blocking = true then .error .blocked
      else .ok (b.pushedAhead t next p n)
  nodup : ∀ n, b.YieldsFor t next p n → ((b.pushedAhead t next p n).map (·.piece.id)).Nodup
  ne_tooLong : b.pushChain t d b.defaultLimit p ≠ .error .tooLong
  ok_iff : (∃ pushed, b.pushChain t d b.defaultLimit p = .ok pushed) ↔ b.CanMove t next p

theorem Valid.chainsExactly (hb : b.Valid) (hnext : b.LeadsAhead next d)
    (hchain : ∀ limit, b.pushChain t d limit p = b.chainAlong t next limit p) :
    b.ChainsExactly t d next p := by
  obtain ⟨n, h⟩ := hnext.exists_yieldsFor t p
  constructor
  case existsUnique => exact ⟨n, h, fun m hm => hm.eq h⟩
  case eq =>
    intro m hm stop limit
    rw [hchain, chainAlong_eq hm, stop?]
    split_ifs <;> rfl
  case nodup => exact fun m hm => hb.nodup_pushedAhead hnext hm
  case ne_tooLong =>
    rw [hchain, chainAlong_eq h, if_neg (Nat.not_lt.mpr (h.le_defaultLimit hnext)), stop?]
    split_ifs <;> simp
  case ok_iff => rw [← canStep_iff, hb.canStep_iff_canMove hnext hchain]

/-- Rocks and a tile in a row, with flags among them and behind them. -/
def freightRow : Board :=
  ⟨1, 4, #[
    [⟨.ofNat 1, .thing .rock, ⟨0, 0⟩, .right⟩, ⟨.ofNat 2, .thing .flag, ⟨0, 0⟩, .right⟩,
      ⟨.ofNat 3, .thing .rock, ⟨0, 0⟩, .up⟩],
    [⟨.ofNat 4, .tile "IS", ⟨0, 1⟩, .right⟩],
    [⟨.ofNat 5, .thing .flag, ⟨0, 2⟩, .left⟩],
    []]⟩

/-- Rocks can be pushed. -/
def freightTable : CapabilityTable := .build ⟨[⟨[.rock], .is, .action .push⟩]⟩ freightRow

/-- **How far a push chain goes, and how it ends**, from every position that can be held, on the
board or off it. The cells ahead are those that coordinates of 32 bits lead to, which can all be
held. If the neighbour of the position can be held, the cells that lie ahead on integers tell the
same; with fewer than `2 ^ 31` rows and columns the walk then never comes upon a coordinate that
would have to wrap around. -/
theorem pushChain_exact {b : Board} (hb : b.validate = .ok ()) (t : CapabilityTable)
    (d : Direction) {p : Position} (hp : p.Representable) :
    (∀ k, ((·.wrappedStep d)^[k] p).Representable) ∧
      b.ChainsExactly t d (·.wrappedStep d) p ∧
      ((p.step d).Representable →
        (∀ k, (·.step d)^[k] p = p.advance d k) ∧ b.ChainsExactly t d (·.step d) p ∧
          (b.rows < 2 ^ 31 → b.cols < 2 ^ 31 →
            ∀ limit, b.pushChain? t d limit p = some (b.pushChain t d limit p))) := by
  rw [validate_eq_ok_iff] at hb
  refine ⟨Position.representable_iterate_wrappedStep hp d,
    hb.chainsExactly (hb.leadsAhead_wrappedStep d) fun _ => rfl, fun hstep => ?_⟩
  refine ⟨p.iterate_step d, hb.chainsExactly (b.leadsAhead_step d) fun _ => ?_,
    fun hrows hcols _ => pushChain?_eq hrows hcols hstep⟩
  exact hb.pushChain_eq_of_sameCell (.inl (Position.wrappedStep_eq hstep))

/-- From before the row two cells yield rightward, which is more than a limit of one; the rocks are
taken along from under and over the flag, and no coordinate wraps around. Leftward from the flag at
its end the row goes to the edge. Rightward from the greatest column there is, wrapping around is
needed, and leads off the board as well. -/
theorem pushChain_freightRow :
    freightRow.validate = .ok () ∧ Position.Representable ⟨0, -1⟩ ∧
      freightRow.YieldsFor freightTable (·.step .right) ⟨0, -1⟩ 2 ∧
      freightRow.pushChain freightTable .right 1 ⟨0, -1⟩ = .error .tooLong ∧
      freightRow.pushChain freightTable .right 2 ⟨0, -1⟩ =
        .ok [⟨⟨.ofNat 1, .thing .rock, ⟨0, 0⟩, .right⟩, 0⟩,
          ⟨⟨.ofNat 3, .thing .rock, ⟨0, 0⟩, .up⟩, 2⟩,
          ⟨⟨.ofNat 4, .tile "IS", ⟨0, 1⟩, .right⟩, 0⟩] ∧
      freightRow.pushChain? freightTable .right 2 ⟨0, -1⟩ =
        some (freightRow.pushChain freightTable .right 2 ⟨0, -1⟩) ∧
      freightRow.pushChain freightTable .left 2 ⟨0, 2⟩ = .error .edge ∧
      freightRow.CanMove freightTable (·.step .right) ⟨0, -1⟩ ∧
      freightRow.pushChain freightTable .right 2 ⟨0, Position.greatest⟩ = .error .edge ∧
      freightRow.pushChain? freightTable .right 2 ⟨0, Position.greatest⟩ = none := by
  have hvalid : freightRow.validate = .ok () := by decide
  have hyields : ∀ d p, (∀ k < 2, freightRow.Yields freightTable (p.advance d (k + 1))) →
      ¬ freightRow.Yields freightTable (p.advance d 3) →
        freightRow.YieldsFor freightTable (·.step d) p 2 := by
    intro d p hfirst hends
    refine ⟨fun k hk hk2 => ?_, by rw [Position.iterate_step]; exact hends⟩
    obtain ⟨j, rfl⟩ : ∃ j, k = j + 1 := ⟨k - 1, by omega⟩
    rw [Position.iterate_step]
    exact hfirst j (by omega)
  have hright := hyields .right ⟨0, -1⟩ (by decide) (by decide)
  have hleft := hyields .left ⟨0, 2⟩ (by decide) (by decide)
  have hstart : Position.Representable ⟨0, -1⟩ := by decide
  obtain ⟨-, -, hexact⟩ := pushChain_exact hvalid freightTable .right hstart
  obtain ⟨-, -, hback⟩ := pushChain_exact (p := ⟨0, 2⟩) hvalid freightTable .left (by decide)
  obtain ⟨-, hfar, -⟩ :=
    pushChain_exact (p := ⟨0, Position.greatest⟩) hvalid freightTable .right (by decide)
  obtain ⟨-, hchain, hheld⟩ := hexact (by decide)
  obtain ⟨-, hchain', -⟩ := hback (by decide)
  refine ⟨hvalid, hstart, hright, (hchain.eq 2 hright 1).trans (by decide),
    (hchain.eq 2 hright 2).trans (by decide), hheld (by decide) (by decide) 2,
    (hchain'.eq 2 hleft 2).trans (by decide),
    hchain.ok_iff.mp ⟨freightRow.pushedAhead freightTable (·.step .right) ⟨0, -1⟩ 2, ?_⟩,
    (hfar.eq 0 (yieldsFor_zero_iff.mpr (by decide)) 2).trans (by decide), by decide⟩
  exact (hchain.eq 2 hright freightRow.defaultLimit).trans (by decide)

end Board

end WordTiles
