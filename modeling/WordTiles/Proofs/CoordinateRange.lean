import WordTiles.Hazard
import WordTiles.Proofs.Board.Editing
import WordTiles.Proofs.Move.Plan
import WordTiles.Reading

/-!
# Coordinates of 32 bits

Here scans, push chains, plans, their execution and hazards are carried out once more, and nothing
wraps around: every sum, product and cell number that a coordinate of 32 bits cannot hold ends the
computation (`none`). On a board with fewer than `2 ^ 31` rows and columns none of them ever ends
so, and each gives what it gives when coordinates wrap around; the cells next to the board are among
the positions that are computed, and can be held as well (`Board.StaysInRange`).

A board may have `2 ^ 31` rows or columns and still be valid, as its last cell can be held. The cell
beyond that one cannot (`Board.not_staysInRange_lastTile`).

The main statement is `Board.staysInRange_iff`.
-/

set_option autoImplicit false

namespace WordTiles

/-! ## Arithmetic -/

namespace Position

variable {p : Position} {d : Direction} {rows cols : Nat}

def held? (i : Int) : Option Int := if least ≤ i ∧ i ≤ greatest then some i else none

def step? (p : Position) (d : Direction) : Option Position := do
  let row ← held? (p.row + d.rowStep)
  let col ← held? (p.col + d.colStep)
  return ⟨row, col⟩

def progress? (p : Position) (d : Direction) : Option Int := do
  let down ← held? (p.row * d.rowStep)
  let along ← held? (p.col * d.colStep)
  held? (down + along)

theorem held?_eq {i : Int} (h : least ≤ i ∧ i ≤ greatest) : held? i = some i := if_pos h

theorem step?_eq (p : Position) (d : Direction) :
    p.step? d = if (p.step d).Representable then some (p.step d) else none := by
  by_cases h : (p.step d).Representable
  · have hrow : held? (p.row + d.rowStep) = some (p.step d).row := if_pos h.1
    have hcol : held? (p.col + d.colStep) = some (p.step d).col := if_pos h.2
    rw [if_pos h, step?, hrow, hcol]
    rfl
  · rw [if_neg h, step?, held?]
    split
    next hrow =>
      have hcol : held? (p.col + d.colStep) = none := if_neg fun hcol => h ⟨hrow, hcol⟩
      rw [hcol]
      rfl
    · rfl

/-- Next to a position that is counted from zero there is one that can be held, unless it is counted
by `2 ^ 31`. -/
theorem Within.representable_step (h : p.Within rows cols) (hrows : rows < 2 ^ 31)
    (hcols : cols < 2 ^ 31) : (p.step d).Representable := by
  obtain ⟨hr, hc, hr', hc'⟩ := h
  cases d
  all_goals
    simp only [Representable, step, Direction.rowStep, Direction.colStep, least, greatest]
    omega

theorem step?_of_within (h : p.Within rows cols) (hrows : rows < 2 ^ 31) (hcols : cols < 2 ^ 31) :
    p.step? d = some (p.step d) := by
  rw [step?_eq, if_pos (h.representable_step hrows hcols)]

theorem step?_eq_wrappedStep (h : (p.step d).Representable) :
    p.step? d = some (p.wrappedStep d) := by
  rw [step?_eq, if_pos h, wrappedStep_eq h]

theorem progress?_of_within (h : p.Within rows cols) (hrows : rows ≤ 2 ^ 31)
    (hcols : cols ≤ 2 ^ 31) : p.progress? d = some (p.progress d) := by
  obtain ⟨hr, hc, hr', hc'⟩ := h
  have hdown : held? (p.row * d.rowStep) = some (p.row * d.rowStep) := by
    apply held?_eq
    cases d
    all_goals
      simp only [Direction.rowStep, least, greatest]
      omega
  have halong : held? (p.col * d.colStep) = some (p.col * d.colStep) := by
    apply held?_eq
    cases d
    all_goals
      simp only [Direction.colStep, least, greatest]
      omega
  rw [progress?, hdown, halong]
  apply held?_eq
  cases d
  all_goals
    simp only [Direction.rowStep, Direction.colStep, least, greatest]
    omega

end Position

/-! ## Computations that may end early -/

section

variable {α β : Type}

/-- A list for each of whose entries there is a result. -/
theorem mapM_eq_some_map {f : α → Option β} {g : α → β} {as : List α}
    (h : ∀ a ∈ as, f a = some (g a)) : as.mapM f = some (as.map g) := by
  induction as with
  | nil => rfl
  | cons a as ih =>
      obtain ⟨ha, hrest⟩ := List.forall_mem_cons.mp h
      rw [List.mapM_cons, ha, ih hrest]
      rfl

/-- A list for one of whose entries there is none. -/
theorem mapM_eq_none {f : α → Option β} {a : α} {as : List α} (ha : a ∈ as) (h : f a = none) :
    as.mapM f = none := by
  induction as with
  | nil => cases ha
  | cons a' as ih =>
      rw [List.mapM_cons]
      rcases List.mem_cons.mp ha with rfl | hrest
      · rw [h]
        rfl
      · rw [ih hrest]
        cases f a' <;> rfl

end

namespace Board

variable {b : Board} {t : CapabilityTable} {d : Direction} {p : Position} {limit : Nat}

/-! ## The computations -/

def positions? (b : Board) : Option (List Position) :=
  (List.range b.cells.size).mapM fun i => Position.ofIndices? (i / b.cols) (i % b.cols)

/-- The words of the topmost tiles from a position on, up to the first cell without text. -/
def wordsFrom? (b : Board) (d : Direction) : (limit : Nat) → Position → Option (List String)
  | 0, _ => some []
  | limit + 1, p =>
    match (b.stackAt p).topWord? with
    | some w => do
      let next ← p.step? d
      return w :: (← b.wordsFrom? d limit next)
    | none => some []

def runFrom? (b : Board) (origin : Position) (word : String) (d : Direction) : Option Run := do
  let first ← origin.step? d
  return ⟨origin, d, word :: (← b.wordsFrom? d (b.rows + b.cols) first)⟩

def runsAt? (b : Board) (p : Position) : Option (List Run) :=
  (((b.stackAt p).filterMap (·.kind.word?)).mapM fun w =>
    Run.directions.mapM (b.runFrom? p w)).map List.flatten

def runs? (b : Board) : Option (List Run) := do
  let ps ← b.positions?
  return (← ps.mapM b.runsAt?).flatten

def pushChain? (b : Board) (t : CapabilityTable) (d : Direction) :
    (limit : Nat) → (p : Position) → Option (Except Refusal (List Pushed))
  | limit, p => do
    let next ← p.step? d
    if ¬ b.InBounds next then return .error .edge
    else if t.blocks (b.stackAt next) then return .error .blocked
    else if (t.pushables (b.stackAt next)).isEmpty then return .ok []
    else
      match limit with
      | 0 => return .error .tooLong
      | limit + 1 =>
        return (← b.pushChain? t d limit next).map (t.pushables (b.stackAt next) ++ ·)

def controlled? (b : Board) (t : CapabilityTable) : Option (List (Position × Pushed)) :=
  b.positions?.map fun ps => ps.flatMap fun p =>
    ((b.stackAt p).zipIdx.filter fun (piece, _) => (t.ofPiece piece).controllable).map
      fun (piece, layer) => (p, ⟨piece, layer⟩)

def attempt? (b : Board) (t : CapabilityTable) (d : Direction) (limit : Nat)
    (c : Position × Pushed) : Option Attempt :=
  (b.pushChain? t d limit c.1).map fun
    | .ok _ => ⟨c.2.piece.id, c.1, .committed⟩
    | .error reason => ⟨c.2.piece.id, c.1, .refused reason⟩

def moversOf? (b : Board) (t : CapabilityTable) (d : Direction) (limit : Nat)
    (c : Position × Pushed) : Option (List Mover) :=
  (b.pushChain? t d limit c.1).map fun
    | .ok pushed => (pushed.reverse ++ [c.2]).map Mover.ofPushed
    | .error _ => []

def plan? (b : Board) (t : CapabilityTable) (d : Direction) (limit : Nat) : Option MovePlan := do
  let cs ← b.controlled? t
  let attempts ← cs.mapM (b.attempt? t d limit)
  let movers ← cs.mapM (b.moversOf? t d limit)
  return ⟨some d, attempts, Mover.distinct movers.flatten⟩

def step? (b : Board) (id : PieceId) (d : Direction) :
    Option (Except BoardError (Board × Position)) :=
  match b.find? id with
  | none => some (.error (.pieceNotFound id))
  | some piece => do
    let target ← piece.position.step? d
    return do
      let moved ← b.move id piece.position target
      return (moved.modifyAt target (Stack.update · id ({ · with facing := d })), target)

def stepAll? (d : Direction) :
    List Mover → Board × List Step → Option (Except BoardError (Board × List Step))
  | [], state => some (.ok state)
  | m :: rest, state => do
    match ← state.1.step? m.piece d with
    | .error e => return .error e
    | .ok (b, target) =>
      stepAll? d rest (b, state.2 ++ [⟨m.piece, m.kind, m.position, target⟩])

/-- Whether one mover may step before another, by the progress that was computed for them. -/
def precedes? (k k' : Int × Mover) : Bool :=
  if k.1 ≠ k'.1 then decide (k'.1 < k.1)
  else if k.2.position.row ≠ k'.2.position.row then
    decide (k.2.position.row < k'.2.position.row)
  else if k.2.position.col ≠ k'.2.position.col then
    decide (k.2.position.col < k'.2.position.col)
  else decide (k.2.layer ≤ k'.2.layer)

def commit? (b : Board) (plan : MovePlan) : Option (Except BoardError (Board × List Step)) :=
  match plan.direction with
  | none => some (.ok (b, []))
  | some d => do
    let keyed ← plan.movers.mapM fun m => (m.position.progress? d).map (·, m)
    stepAll? d ((keyed.mergeSort precedes?).map Prod.snd) (b, [])

def resolveMove? (b : Board) (t : CapabilityTable) (d : Direction) (limit : Option Nat) :
    Option (Except BoardError (Board × MoveReport)) := do
  let plan ← b.plan? t d (limit.getD b.defaultLimit)
  return (← b.commit? plan).map fun (b', steps) => (b', ⟨plan.attempts, steps⟩)

def resolveHazards? (b : Board) (t : CapabilityTable) :
    Option (Except BoardError (Board × List Destruction)) := do
  let ps ← b.positions?
  let destroyed := ps.flatMap fun p => Destruction.ofCell t p (b.stackAt p)
  return (destroyed.foldlM Destruction.apply b).map (·, destroyed)

/-- All coordinates that are computed on a board can be held: those of its cells, those next to them
in every direction, the progress of its pieces, and those that scans, push chains, plans, their
execution and hazards come upon. A plan may have been made for another valid board. -/
structure StaysInRange (b : Board) : Prop where
  positions : b.positions? = some b.positions
  step : ∀ p d, b.InBounds p → p.step? d = some (p.step d)
  progress : ∀ x ∈ b.pieces, ∀ d, x.position.progress? d = some (x.position.progress d)
  runs : b.runs? = some b.runs
  pushChain : ∀ t d limit p, b.InBounds p →
    b.pushChain? t d limit p = some (b.pushChain t d limit p)
  plan : ∀ t d limit, b.plan? t d limit = some (b.plan t d limit)
  commit : ∀ (b₀ : Board) t d limit, b₀.validate = .ok () →
    b.commit? (b₀.plan t d limit) = some (b.commit (b₀.plan t d limit))
  resolveMove : ∀ t d limit, b.resolveMove? t d limit = some (b.resolveMove t d limit)
  resolveHazards : ∀ t, b.resolveHazards? t = some (b.resolveHazards t)

/-! ## Scans -/

theorem positions?_eq (hb : b.Sized) (hrows : b.rows ≤ 2 ^ 31) (hcols : b.cols ≤ 2 ^ 31) :
    b.positions? = some b.positions := by
  apply mapM_eq_some_map
  intro i hi
  rw [List.mem_range, show b.cells.size = b.rows * b.cols from hb] at hi
  obtain ⟨-, -, hrow, hcol⟩ := inBounds_positionAt hi
  simp only [positionAt] at hrow hcol
  apply if_pos
  rw [Position.greatest]
  omega

theorem wordsFrom?_eq (hrows : b.rows < 2 ^ 31) (hcols : b.cols < 2 ^ 31) (limit : Nat)
    (p : Position) : b.wordsFrom? d limit (p.wrappedStep d) =
      some (b.wordsAlong (·.wrappedStep d) limit p) := by
  induction limit generalizing p with
  | zero => rfl
  | succ limit ih =>
      rw [wordsFrom?, wordsAlong]
      cases hword : (b.stackAt (p.wrappedStep d)).topWord? with
      | none => rfl
      | some w =>
          -- a cell with text is on the board, so the next one can be named
          have hin : b.InBounds (p.wrappedStep d) := by
            by_contra hout
            rw [stackAt_of_not_inBounds hout] at hword
            cases hword
          have hahead := Position.Within.representable_step (d := d) hin hrows hcols
          simp only [Position.step?_eq_wrappedStep hahead, Option.bind_eq_bind, Option.bind_some,
            ih (p.wrappedStep d)]
          rfl

theorem runs?_eq (hb : b.Sized) (hrows : b.rows < 2 ^ 31) (hcols : b.cols < 2 ^ 31) :
    b.runs? = some b.runs := by
  have hrun : ∀ p w d, b.InBounds p → b.runFrom? p w d = some (b.runFrom p w d) := by
    intro p w d hp
    rw [runFrom?, Position.step?_eq_wrappedStep (hp.representable_step hrows hcols)]
    simp only [Option.bind_eq_bind, Option.bind_some, wordsFrom?_eq hrows hcols]
    rfl
  have hat : ∀ p ∈ b.positions, b.runsAt? p = some
      (((b.stackAt p).filterMap (·.kind.word?)).flatMap fun w =>
        Run.directions.map (b.runFrom p w)) := by
    intro p hp
    have hin := (mem_positions_iff hb).mp hp
    rw [runsAt?, mapM_eq_some_map fun w _ => mapM_eq_some_map fun d _ => hrun p w d hin,
      Option.map_some, List.flatMap_def]
  rw [runs?, positions?_eq hb hrows.le hcols.le]
  simp only [Option.bind_eq_bind, Option.bind_some, mapM_eq_some_map hat]
  rfl

/-- A scan ends early at a tile beside which there is a cell that cannot be named. -/
theorem runs?_eq_none {x : Piece} {w : String} (hb : b.Sized) (hrows : b.rows ≤ 2 ^ 31)
    (hcols : b.cols ≤ 2 ^ 31) (hx : x ∈ b.stackAt p) (hw : x.kind.word? = some w)
    (hd : d ∈ Run.directions) (hstep : p.step? d = none) : b.runs? = none := by
  have hrun : b.runFrom? p w d = none := by
    rw [runFrom?, hstep]
    rfl
  have hruns : Run.directions.mapM (b.runFrom? p w) = none := mapM_eq_none hd hrun
  have hat : b.runsAt? p = none := by
    rw [runsAt?, Option.map_eq_none_iff]
    exact mapM_eq_none (List.mem_filterMap.mpr ⟨x, hx, hw⟩) hruns
  have hp : p ∈ b.positions := (mem_positions_iff hb).mpr (inBounds_of_mem hx)
  rw [runs?, positions?_eq hb hrows hcols]
  simp only [Option.bind_eq_bind, Option.bind_some, mapM_eq_none hp hat]
  rfl

/-! ## Chains and plans -/

/-- Of the positions on a chain only the first one, which may lie anywhere, could be one that cannot
be held. -/
theorem pushChain?_eq (hrows : b.rows < 2 ^ 31) (hcols : b.cols < 2 ^ 31)
    (hp : (p.step d).Representable) :
    b.pushChain? t d limit p = some (b.pushChain t d limit p) := by
  induction limit generalizing p with
  | zero =>
      rw [pushChain?, pushChain, chainAlong, Position.step?_eq_wrappedStep hp]
      simp only [Option.bind_eq_bind, Option.bind_some]
      repeat' split
      all_goals rfl
  | succ limit ih =>
      rw [pushChain?, pushChain, chainAlong, Position.step?_eq_wrappedStep hp]
      simp only [Option.bind_eq_bind, Option.bind_some]
      split
      · rfl
      next hin =>
        rw [ih (Position.Within.representable_step (not_not.mp hin) hrows hcols)]
        repeat' split
        all_goals rfl

theorem plan?_eq (hb : b.Sized) (hrows : b.rows < 2 ^ 31) (hcols : b.cols < 2 ^ 31) :
    b.plan? t d limit = some (b.plan t d limit) := by
  have hchain : ∀ c ∈ b.controlled t,
      b.pushChain? t d limit c.1 = some (b.pushChain t d limit c.1) := by
    intro c hc
    have hin := inBounds_of_mem (List.mem_of_getElem? ((mem_controlled_iff hb).mp hc).1)
    exact pushChain?_eq hrows hcols (hin.representable_step hrows hcols)
  have hattempts : ∀ c ∈ b.controlled t, b.attempt? t d limit c = some (b.attempt t d limit c) := by
    intro c hc
    rw [attempt?, hchain c hc, attempt]
    cases b.pushChain t d limit c.1 <;> rfl
  have hmovers : ∀ c ∈ b.controlled t,
      b.moversOf? t d limit c = some (b.moversOf t d limit c) := by
    intro c hc
    rw [moversOf?, hchain c hc, moversOf]
    cases b.pushChain t d limit c.1 <;> rfl
  have hcontrolled : b.controlled? t = some (b.controlled t) := by
    rw [controlled?, positions?_eq hb hrows.le hcols.le]
    rfl
  rw [plan?, hcontrolled]
  simp only [Option.bind_eq_bind, Option.bind_some, mapM_eq_some_map hattempts,
    mapM_eq_some_map hmovers]
  rfl

/-! ## Carrying out plans -/

theorem Orderly.step?_eq (hb : b.Orderly) (hrows : b.rows < 2 ^ 31) (hcols : b.cols < 2 ^ 31)
    (id : PieceId) : b.step? id d = some (b.step id d) := by
  rw [step?, Board.step]
  cases hx : b.find? id with
  | none => rfl
  | some x =>
      obtain ⟨p, hp⟩ := (mem_pieces_iff hb.sized).mp (mem_pieces_of_find? hx)
      have hin : b.InBounds x.position := by
        rw [hb.position_eq p x hp]
        exact inBounds_of_mem hp
      simp only [Position.step?_eq_wrappedStep (hin.representable_step hrows hcols)]
      rfl

/-- The board changes from step to step, but it keeps its size, and its pieces stay on it. -/
theorem Orderly.stepAll?_eq (hb : b.Orderly) (hrows : b.rows < 2 ^ 31) (hcols : b.cols < 2 ^ 31)
    (ms : List Mover) (steps : List Step) :
    stepAll? d ms (b, steps) = some (ms.foldlM (Mover.step d) (b, steps)) := by
  induction ms generalizing b steps with
  | nil => rfl
  | cons m rest ih =>
      rw [stepAll?, List.foldlM_cons, Mover.step, hb.step?_eq hrows hcols]
      cases hstep : b.step m.piece d with
      | error e => rfl
      | ok moved =>
          obtain ⟨b', target⟩ := moved
          have hexchanges := hb.step hstep
          exact ih hexchanges.orderly (hexchanges.rows_eq ▸ hrows) (hexchanges.cols_eq ▸ hcols) _

/-- Movers that are sorted by the progress that was computed for them are in order. -/
theorem map_mergeSort_precedes? (d : Direction) (ms : List Mover) :
    ((ms.map fun m => (m.position.progress d, m)).mergeSort precedes?).map Prod.snd =
      Mover.inOrder d ms := by
  have hsort : (ms.mergeSort (Mover.precedes d)).map (fun m => (m.position.progress d, m)) =
      (ms.map fun m => (m.position.progress d, m)).mergeSort precedes? :=
    List.map_mergeSort fun m _ m' _ => rfl
  rw [← hsort, List.map_map, Mover.inOrder]
  exact List.map_id' _

theorem Orderly.commit?_eq {plan : MovePlan} (hb : b.Orderly) (hrows : b.rows < 2 ^ 31)
    (hcols : b.cols < 2 ^ 31)
    (hprogress : ∀ m ∈ plan.movers, ∀ d, m.position.progress? d = some (m.position.progress d)) :
    b.commit? plan = some (b.commit plan) := by
  rw [commit?, commit]
  cases plan.direction with
  | none => rfl
  | some d =>
      have hkeys : ∀ m ∈ plan.movers,
          (m.position.progress? d).map (·, m) = some (m.position.progress d, m) := by
        intro m hm
        rw [hprogress m hm d]
        rfl
      simp only [Option.bind_eq_bind, Option.bind_some, mapM_eq_some_map hkeys,
        map_mergeSort_precedes?, hb.stepAll?_eq hrows hcols]

/-- Those who move by the plan of a valid board are on it, so their progress can be held. -/
theorem Valid.progress?_of_mem_movers (hb : b.Valid) {m : Mover}
    (hm : m ∈ (b.plan t d limit).movers) (d' : Direction) :
    m.position.progress? d' = some (m.position.progress d') := by
  obtain ⟨x, hlayer, -, -, hposition, -⟩ := hb.of_mem_movers hm
  have hin : b.InBounds x.position := inBounds_of_mem (List.mem_of_getElem? hlayer)
  rw [← hposition]
  exact Position.progress?_of_within hin hb.rows_le hb.cols_le

/-! ## Columns -/

def lastRow (rows : Nat) : Position := ⟨(rows - 1 : Nat), 0⟩

def tileOfLastRow (rows : Nat) : Piece := ⟨.ofNat 1, .tile "IS", lastRow rows, .up⟩

/-- A column of cells with a text tile in the last of them. -/
def lastTile (rows : Nat) : Board :=
  (empty rows 1).modifyAt (lastRow rows) (· ++ [tileOfLastRow rows])

variable {rows : Nat}

theorem inBounds_lastRow (hpos : 0 < rows) : (empty rows 1).InBounds (lastRow rows) :=
  Position.within_natCast (Nat.sub_lt hpos Nat.one_pos) Nat.one_pos

theorem mem_stackAt_lastTile (hpos : 0 < rows) :
    tileOfLastRow rows ∈ (lastTile rows).stackAt (lastRow rows) := by
  rw [lastTile, stackAt_modifyAt (sized_empty rows 1), if_pos ⟨rfl, inBounds_lastRow hpos⟩]
  exact List.mem_append_right _ (List.mem_singleton.mpr rfl)

theorem lastTile_exchanges (hpos : 0 < rows) :
    (empty rows 1).Exchanges (lastTile rows) {.ofNat 1} 0 :=
  (orderly_empty rows 1).push (inBounds_lastRow hpos) rfl

/-- The column is valid as long as its last cell can be held. -/
theorem validate_lastTile (hpos : 0 < rows) (hfits : rows ≤ Position.greatest + 1) :
    (lastTile rows).validate = .ok () := by
  have hexchanges := lastTile_exchanges hpos
  apply validate_eq_ok_iff.mpr
  apply hexchanges.valid hpos Nat.one_pos hfits (show 1 ≤ Position.greatest + 1 by decide)
  have hids : (lastTile rows).ids = {.ofNat 1} := by
    have h := hexchanges.ids_eq
    rw [ids_empty, zero_add, add_zero] at h
    exact h
  rw [hids]
  exact Multiset.nodup_singleton _

/-! ## The range -/

/-- **A valid board stays in the range of coordinates exactly when it has fewer than `2 ^ 31` rows
and columns.** -/
theorem staysInRange_iff (h : b.validate = .ok ()) :
    b.StaysInRange ↔ b.rows < 2 ^ 31 ∧ b.cols < 2 ^ 31 := by
  have hb := validate_eq_ok_iff.mp h
  constructor
  · intro hstays
    have hrows := hb.rows_pos
    have hcols := hb.cols_pos
    have hlast : b.InBounds ⟨(b.rows - 1 : Nat), (b.cols - 1 : Nat)⟩ :=
      Position.within_natCast (Nat.sub_lt hrows Nat.one_pos) (Nat.sub_lt hcols Nat.one_pos)
    -- the cells beyond the last one, below it and beside it, can be held
    have hbelow := hstays.step _ .down hlast
    have hbeside := hstays.step _ .right hlast
    rw [Position.step?_eq, Option.ite_none_right_eq_some] at hbelow hbeside
    simp only [Position.Representable, Position.step, Direction.rowStep, Direction.colStep,
      Position.least, Position.greatest] at hbelow hbeside
    omega
  · rintro ⟨hrows, hcols⟩
    have hplan : ∀ t d limit, b.plan? t d limit = some (b.plan t d limit) := fun t d limit =>
      plan?_eq hb.sized hrows hcols
    have hcommit : ∀ (b₀ : Board) t d limit, b₀.validate = .ok () →
        b.commit? (b₀.plan t d limit) = some (b.commit (b₀.plan t d limit)) := by
      intro b₀ t d limit h₀
      apply Orderly.commit?_eq hb.orderly hrows hcols
      intro m hm d'
      exact (validate_eq_ok_iff.mp h₀).progress?_of_mem_movers hm d'
    constructor
    case positions => exact positions?_eq hb.sized hrows.le hcols.le
    case step => exact fun p d hp => Position.step?_of_within hp hrows hcols
    case progress =>
      intro x hx d
      have hin := inBounds_of_mem (hb.mem_stackAt_of_mem_pieces hx)
      exact Position.progress?_of_within hin hrows.le hcols.le
    case runs => exact runs?_eq hb.sized hrows hcols
    case pushChain =>
      exact fun t d limit p hp => pushChain?_eq hrows hcols (hp.representable_step hrows hcols)
    case plan => exact hplan
    case commit => exact hcommit
    case resolveMove =>
      intro t d limit
      rw [resolveMove?, hplan]
      simp only [Option.bind_eq_bind, Option.bind_some, hcommit b t d _ h]
      rfl
    case resolveHazards =>
      intro t
      rw [resolveHazards?, positions?_eq hb.sized hrows.le hcols.le]
      rfl

/-- A column of three cells does, with a tile in the last of them. -/
theorem staysInRange_column_of_three :
    (lastTile 3).validate = .ok () ∧ (lastTile 3).StaysInRange := by
  have hvalid : (lastTile 3).validate = .ok () := validate_lastTile (by decide) (by decide)
  exact ⟨hvalid, (staysInRange_iff hvalid).mpr (by decide)⟩

/-- A valid board on which a scan comes upon a coordinate that cannot be held: it has `2 ^ 31` rows,
and from the tile in the last of them it looks one row further. -/
theorem not_staysInRange_lastTile :
    (lastTile (2 ^ 31)).validate = .ok () ∧ (lastTile (2 ^ 31)).runs? = none ∧
      ¬ (lastTile (2 ^ 31)).StaysInRange := by
  have hpos : 0 < 2 ^ 31 := by decide
  have hexchanges := lastTile_exchanges hpos
  have hstep : (lastRow (2 ^ 31)).step? .down = none := by
    rw [Position.step?_eq]
    exact if_neg (by decide)
  have hscan : (lastTile (2 ^ 31)).runs? = none :=
    runs?_eq_none hexchanges.orderly.sized hexchanges.rows_eq.le
      (hexchanges.cols_eq.le.trans (by decide)) (mem_stackAt_lastTile hpos) rfl (by decide) hstep
  refine ⟨validate_lastTile hpos (by decide), hscan, fun hstays => ?_⟩
  rw [hstays.runs] at hscan
  cases hscan

end Board

end WordTiles
