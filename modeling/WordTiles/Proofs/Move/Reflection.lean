import WordTiles.Proofs.Move.Symmetry

/-!
# Moves in a mirror

No direction is preferred to another one. A board and its mirror image, left to right or top to
bottom, are moved to boards that are mirror images again, if the one is moved in the direction that
the mirror makes of the other's. The steps are made in another order then: farthest along the
direction means another end of the board, but among pieces as far as each other reading order
decides on both. So attempts and steps agree as lists only up to their order. Of this only the
mirrors themselves are special; it holds for every symmetry (`Board.Related.resolveMove_image`).
-/

set_option autoImplicit false

namespace WordTiles

/-! ## Mirrors -/

/-- The two mirrors that keep the rows and columns of a board. -/
inductive Mirror where
  /-- Exchanges left and right. -/
  | leftRight
  /-- Exchanges top and bottom. -/
  | topBottom
  deriving DecidableEq

namespace Mirror

/-- The cell opposite to a cell on a board of a given size, and opposite to it off the board,
too. -/
def cell (m : Mirror) (rows cols : Nat) (p : Position) : Position :=
  match m with
  | .leftRight => ⟨p.row, cols - 1 - p.col⟩
  | .topBottom => ⟨rows - 1 - p.row, p.col⟩

def turn : Mirror → Direction → Direction
  | .leftRight, .left => .right
  | .leftRight, .right => .left
  | .topBottom, .up => .down
  | .topBottom, .down => .up
  | _, d => d

/-- A mirror as a symmetry of the grid. -/
def symmetry (m : Mirror) (rows cols : Nat) : Symmetry where
  cell := m.cell rows cols
  turn := m.turn
  cell_step := by
    rintro ⟨row, col⟩ d
    cases m <;> cases d <;>
      simp only [cell, turn, Position.step, Direction.rowStep, Direction.colStep,
        Position.mk.injEq, true_and, and_true] <;>
      omega
  cell_cell := by
    rintro ⟨row, col⟩
    cases m <;> simp only [cell, Position.mk.injEq, true_and, and_true] <;> omega

theorem within_cell_iff (m : Mirror) (rows cols : Nat) (p : Position) :
    (m.cell rows cols p).Within rows cols ↔ p.Within rows cols := by
  cases m <;> simp only [cell, Position.Within] <;> omega

end Mirror

def Symmetry.onStep (σ : Symmetry) (s : Step) : Step :=
  { s with source := σ.cell s.source, target := σ.cell s.target }

namespace Board

variable {σ : Symmetry} {b b' : Board} {t : CapabilityTable} {d : Direction}

/-- A move keeps the size of a board, and leaves it valid. -/
theorem Valid.of_resolveMove (hb : b.Valid) {limit : Option Nat} {report : MoveReport}
    (h : b.resolveMove t d limit = .ok (b', report)) :
    b'.rows = b.rows ∧ b'.cols = b.cols ∧ b'.Valid := by
  rw [hb.resolveMove_eq] at h
  cases h
  exact ⟨rfl, rfl, hb.shift d _⟩

/-! ## Moves of images -/

namespace Related

/-- The pieces that move on the image of a board are the images of those that move on it. -/
theorem moving_perm (h : Image σ b b') (hb : b.Valid) (hb' : b'.Valid) (t : CapabilityTable)
    (d : Direction) (limit : Nat) :
    (b'.pieces.filter fun x => (b'.plan t (σ.turn d) limit).moves x.id).Perm
      ((b.pieces.filter fun x => (b.plan t d limit).moves x.id).map σ.onPiece) := by
  have hperm := (h.pieces_perm hb.sized hb'.sized).filter fun x =>
    (b'.plan t (σ.turn d) limit).moves x.id
  rw [List.filter_map] at hperm
  have himage : b.pieces.filter ((fun x => (b'.plan t (σ.turn d) limit).moves x.id) ∘ σ.onPiece) =
      b.pieces.filter fun x => (b.plan t d limit).moves x.id :=
    List.filter_congr fun x hx => by
      -- a piece keeps its identity in its image
      change (b'.plan t (σ.turn d) limit).moves x.id = _
      rw [h.moves_plan_image hb hb' t d limit hx]
  rwa [himage] at hperm

/-- On the image of a board the images of the steps are made. -/
theorem steps_perm (h : Image σ b b') (hb : b.Valid) (hb' : b'.Valid) (t : CapabilityTable)
    (d : Direction) (limit : Nat) :
    ((Mover.inOrder (σ.turn d) (b'.plan t (σ.turn d) limit).movers).map
        (Mover.stepTo (σ.turn d))).Perm
      (((Mover.inOrder d (b.plan t d limit).movers).map (Mover.stepTo d)).map σ.onStep) := by
  have hmoving := (h.moving_perm hb hb' t d limit).map fun x =>
    (⟨x.id, x.kind, x.position, x.position.step (σ.turn d)⟩ : Step)
  have hsteps := (hb.steps_perm t d limit).map σ.onStep
  -- the image of a step leads from the image of its source to that of its target
  have himage : ∀ x : Piece,
      (⟨x.id, x.kind, σ.cell x.position, (σ.cell x.position).step (σ.turn d)⟩ : Step) =
        σ.onStep ⟨x.id, x.kind, x.position, x.position.step d⟩ := fun x => by
    rw [← σ.cell_step]
    rfl
  refine ((hb'.steps_perm t (σ.turn d) limit).trans hmoving).trans (.trans ?_ hsteps.symm)
  rw [List.map_map, List.map_map]
  exact .of_eq (List.map_congr_left fun x _ => himage x)

/-- A move of the image of a board, in the image of the direction, is the image of the move. -/
theorem resolveMove_image (h : Image σ b b') (hb : b.Valid) (hb' : b'.Valid)
    (hdefault : b'.defaultLimit = b.defaultLimit) (t : CapabilityTable) (d : Direction)
    (limit : Option Nat) :
    ∃ moved moved' report report', b.resolveMove t d limit = .ok (moved, report) ∧
      b'.resolveMove t (σ.turn d) limit = .ok (moved', report') ∧ Image σ moved moved' ∧
      report'.attempts.Perm (report.attempts.map σ.onAttempt) ∧
      report'.steps.Perm (report.steps.map σ.onStep) := by
  refine ⟨_, _, _, _, hb.resolveMove_eq t d limit, hb'.resolveMove_eq t (σ.turn d) limit, ?_⟩
  rw [hdefault]
  exact ⟨h.shift hb.sized hb'.sized d fun x hx => h.moves_plan_image hb hb' t d _ hx,
    h.attempts_perm hb hb' t d _, h.steps_perm hb hb' t d _⟩

end Related

/-! ## Mirror images of boards -/

/-- The mirror image of a board: each stack, in its order, in the opposite cell, and each of its
pieces facing as it does in the mirror. -/
def mirrored (m : Mirror) (b : Board) : Board := b.image (m.symmetry b.rows b.cols) b.rows b.cols

theorem image_mirrored (m : Mirror) (b : Board) :
    Image (m.symmetry b.rows b.cols) b (b.mirrored m) :=
  image_image b (m.within_cell_iff b.rows b.cols)

theorem Valid.mirrored (hb : b.Valid) (m : Mirror) : (b.mirrored m).Valid :=
  (b.image_mirrored m).valid hb (sized_image ..) hb.rows_pos hb.cols_pos hb.rows_le hb.cols_le

/-- **Mirrors exchange directions and nothing else.** The mirror image of a board has its size, and
the stacks of the board in the opposite cells. A move on it in the mirrored direction, with the same
capabilities and the same limit, gives the mirror image of the board that the move on the original
gives, with the same attempts, mirrored and ending in the same way, and the same steps, mirrored. -/
theorem resolveMove_mirrored {b : Board} (hb : b.validate = .ok ()) (m : Mirror)
    (t : CapabilityTable) (d : Direction) (limit : Option Nat) :
    let σ := m.symmetry b.rows b.cols
    ((b.mirrored m).validate = .ok () ∧ (b.mirrored m).rows = b.rows ∧
      (b.mirrored m).cols = b.cols ∧
      ∀ p, (b.mirrored m).stackAt (m.cell b.rows b.cols p) = (b.stackAt p).map σ.onPiece) ∧
      ∃ b' report report', b.resolveMove t d limit = .ok (b', report) ∧
        (b.mirrored m).resolveMove t (m.turn d) limit = .ok (b'.mirrored m, report') ∧
        report'.attempts.Perm (report.attempts.map σ.onAttempt) ∧
        report'.steps.Perm (report.steps.map σ.onStep) := by
  intro σ
  rw [validate_eq_ok_iff] at hb
  have himage : Image σ b (b.mirrored m) := b.image_mirrored m
  have hb' : (b.mirrored m).Valid := hb.mirrored m
  refine ⟨⟨validate_eq_ok_iff.mpr hb', rfl, rfl, himage.stackAt_eq⟩, ?_⟩
  obtain ⟨moved, moved', report, report', hmove, hmove', hmoved, hattempts, hsteps⟩ :=
    himage.resolveMove_image hb hb' rfl t d limit
  obtain ⟨hrows, hcols, -⟩ := hb.of_resolveMove hmove
  obtain ⟨hrows', hcols', hvalid'⟩ := hb'.of_resolveMove hmove'
  -- the board made of the mirror image has its size, and an image of that size is the only one
  have hmirrored : moved' = moved.mirrored m := by
    have hσ : σ = m.symmetry moved.rows moved.cols := by rw [hrows, hcols]
    have hsize : moved'.rows = moved.rows ∧ moved'.cols = moved.cols :=
      ⟨hrows'.trans hrows.symm, hcols'.trans hcols.symm⟩
    calc moved' = moved.image σ moved'.rows moved'.cols := hmoved.eq_image hvalid'.sized
      _ = moved.mirrored m := by rw [hsize.1, hsize.2, hσ, mirrored]
  exact ⟨moved, report, report', hmove, hmirrored ▸ hmove', hattempts, hsteps⟩

/-- Seen in a mirror, the two rows are pushed to the left: the rock of the upper row comes to the
flag at the left edge, and the baba of the lower one stays refused at the right edge. -/
theorem resolveMove_mirrored_pushingRows :
    pushingRows.validate = .ok () ∧
      ∃ b' report, (pushingRows.mirrored .leftRight).resolveMove pushingTable .left none =
          .ok (b', report) ∧
        b'.stackAt ⟨0, 0⟩ = [⟨.ofNat 5, .thing .flag, ⟨0, 0⟩, .left⟩,
          ⟨.ofNat 4, .thing .rock, ⟨0, 0⟩, .left⟩] ∧
        report.attempts.Perm [⟨.ofNat 1, ⟨0, 3⟩, .committed⟩, ⟨.ofNat 3, ⟨0, 2⟩, .committed⟩,
          ⟨.ofNat 6, ⟨1, 3⟩, .refused .blocked⟩] := by
  have hvalid : pushingRows.validate = .ok () := by decide
  obtain ⟨-, b', report, report', hok, hok', hattempts, -⟩ :=
    resolveMove_mirrored hvalid .leftRight pushingTable .right none
  have hshift := (validate_eq_ok_iff.mp hvalid).resolveMove_eq pushingTable .right none
  obtain ⟨rfl, rfl⟩ := Prod.mk.inj (Except.ok.inj (hok.symm.trans hshift))
  refine ⟨hvalid, _, report', hok', ?_, ?_⟩
  · decide
  · refine hattempts.trans (.of_eq ?_)
    decide

end Board

end WordTiles
