import WordTiles.Move.Commit
import WordTiles.Proofs.Board.Restack

/-!
# Steps as one simultaneous shift

`Board.shift` moves a set of pieces one cell in a direction, all at once: every stack keeps the
pieces that stay, in their order, and gets on top of them the pieces that arrive from the cell
behind, in the order they had there.

A step of one piece is the shift of that piece (`Valid.step_eq`), and a piece that steps after
all moving pieces below it and before all those above it adds itself to the shift that was made
so far (`Valid.shift_shift`). So movers that step one after the other, bottom to top within a
cell, make the shift of all of them (`Valid.commit_eq`). The order between cells, farthest
first, decides how the steps are listed, and not where the pieces end.
-/

set_option autoImplicit false

namespace WordTiles

/-- The piece after its arrival at a position by a step in a direction. -/
def Piece.arrive (x : Piece) (p : Position) (d : Direction) : Piece :=
  { x with position := p, facing := d }

namespace Position

theorem step_reverse_step (p : Position) (d : Direction) : (p.step d).step d.reverse = p := by
  obtain ⟨row, col⟩ := p
  cases d <;>
    simp only [step, Direction.reverse, Direction.rowStep, Direction.colStep, mk.injEq] <;>
    omega

theorem step_step_reverse (p : Position) (d : Direction) : (p.step d.reverse).step d = p := by
  obtain ⟨row, col⟩ := p
  cases d <;>
    simp only [step, Direction.reverse, Direction.rowStep, Direction.colStep, mk.injEq] <;>
    omega

theorem step_ne_self (p : Position) (d : Direction) : p.step d ≠ p := by
  intro h
  have hprogress := progress_step p d
  rw [h] at hprogress
  omega

theorem step_reverse_eq_iff {p q : Position} {d : Direction} :
    q.step d.reverse = p ↔ p.step d = q := by
  constructor
  · rintro rfl
    exact step_step_reverse q d
  · rintro rfl
    exact step_reverse_step p d

end Position

namespace Stack

variable {s : Stack} {x : Piece} {id : PieceId}

theorem filter_id_eq_nil (h : ∀ x ∈ s, x.id ≠ id) : s.filter (fun x => x.id == id) = [] := by
  apply List.filter_eq_nil_iff.mpr
  intro x hx
  simpa using h x hx

/-- A stack is what is below a place, the piece there, and what is above. -/
theorem eq_append_of_getElem? {i : Nat} (h : s[i]? = some x) :
    s = s.take i ++ x :: s.drop (i + 1) := by
  obtain ⟨hi, rfl⟩ := List.getElem?_eq_some_iff.mp h
  rw [← List.drop_eq_getElem_cons hi, List.take_append_drop]

/-- Without twins on a stack, no piece below or above another one has its identity. -/
theorem id_ne_of_nodup {below above : Stack} (h : ((below ++ x :: above).map (·.id)).Nodup) :
    (∀ y ∈ below, y.id ≠ x.id) ∧ ∀ y ∈ above, y.id ≠ x.id := by
  simp only [List.map_append, List.map_cons, List.nodup_append, List.nodup_cons, List.mem_cons,
    List.mem_map] at h
  obtain ⟨-, ⟨habove, -⟩, hbelow⟩ := h
  exact ⟨fun y hy => hbelow y.id ⟨y, hy, rfl⟩ x.id (.inl rfl),
    fun y hy hid => habove ⟨y, hy, hid⟩⟩

/-- A piece without a twin on its stack has one place in it. -/
theorem layer_eq_of_nodup (h : (s.map (·.id)).Nodup) {i j : Nat} (hi : s[i]? = some x)
    (hj : s[j]? = some x) : i = j := by
  have hi' : (s.map (·.id))[i]? = some x.id := by
    rw [List.getElem?_map, hi]
    rfl
  have hj' : (s.map (·.id))[j]? = some x.id := by
    rw [List.getElem?_map, hj]
    rfl
  obtain ⟨hlt, -⟩ := List.getElem?_eq_some_iff.mp hi'
  exact (List.getElem?_inj hlt h).mp (hi'.trans hj'.symm)

/-- Of a piece without a twin on its stack, the identity picks it out alone. -/
theorem filter_id_eq_singleton (h : (s.map (·.id)).Nodup) (hx : x ∈ s) :
    s.filter (fun y => y.id == x.id) = [x] := by
  obtain ⟨below, above, rfl⟩ := List.append_of_mem hx
  obtain ⟨hbelow, habove⟩ := id_ne_of_nodup h
  rw [List.filter_append, List.filter_cons_of_pos (by simp), filter_id_eq_nil hbelow,
    filter_id_eq_nil habove]
  rfl

/-- Of the pieces that move, one that stands above the others that do comes last. -/
theorem filter_or_id_eq {moving : PieceId → Bool} {below above : Stack}
    (h : ((below ++ x :: above).map (·.id)).Nodup) (hnot : moving x.id = false)
    (hstill : ∀ y ∈ above, moving y.id = false) :
    (below ++ x :: above).filter (fun y => moving y.id || y.id == x.id) =
      (below ++ x :: above).filter (fun y => moving y.id) ++ [x] := by
  obtain ⟨hbelow, habove⟩ := id_ne_of_nodup h
  have hlow : below.filter (fun y => moving y.id || y.id == x.id) =
      below.filter fun y => moving y.id := by
    apply List.filter_congr
    intro y hy
    simp [hbelow y hy]
  have hhigh : above.filter (fun y => moving y.id || y.id == x.id) = [] := by
    apply List.filter_eq_nil_iff.mpr
    intro y hy
    simp [hstill y hy, habove y hy]
  have hhigh' : above.filter (fun y => moving y.id) = [] := by
    apply List.filter_eq_nil_iff.mpr
    intro y hy
    simp [hstill y hy]
  rw [List.filter_append, List.filter_append, List.filter_cons_of_pos (by simp),
    List.filter_cons_of_neg (by simp [hnot]), hlow, hhigh, hhigh', List.append_nil]

/-- Changing a piece that was put on top leaves the others alone. -/
theorem update_append_singleton (h : ∀ y ∈ s, y.id ≠ x.id) (f : Piece → Piece) :
    Stack.update (s ++ [x]) x.id f = s ++ [f x] := by
  induction s with
  | nil => simp [update, List.findIdx_cons]
  | cons y rest ih =>
      rw [List.forall_mem_cons] at h
      have hfalse : (y.id == x.id) = false := by simp [h.1]
      have ih' := ih h.2
      rw [List.cons_append, update, List.findIdx_cons, hfalse]
      show y :: Stack.update (rest ++ [x]) x.id f = _
      rw [ih', List.cons_append]

end Stack

namespace Board

variable {b : Board} {p q : Position} {x y : Piece} {d : Direction} {moving : PieceId → Bool}

/-- All moving pieces one cell further, at once: a stack keeps what stays and gets on top what
arrives from the cell behind. -/
def shift (b : Board) (d : Direction) (moving : PieceId → Bool) : Board :=
  b.restack fun q =>
    (b.stackAt q).filter (fun x => !moving x.id) ++
      ((b.stackAt (q.step d.reverse)).filter fun x => moving x.id).map (·.arrive q d)

theorem stackAt_shift (hb : b.Sized) (hq : b.InBounds q) :
    (b.shift d moving).stackAt q =
      (b.stackAt q).filter (fun x => !moving x.id) ++
        ((b.stackAt (q.step d.reverse)).filter fun x => moving x.id).map (·.arrive q d) :=
  stackAt_restack hb hq

/-- What stands in a cell after a shift stood there before and stayed, or has come from the
cell behind. -/
theorem mem_stackAt_shift (hb : b.Sized) :
    x ∈ (b.shift d moving).stackAt q ↔ b.InBounds q ∧
      ((x ∈ b.stackAt q ∧ moving x.id = false) ∨
        ∃ y ∈ b.stackAt (q.step d.reverse), moving y.id = true ∧ y.arrive q d = x) := by
  rw [shift, mem_stackAt_restack hb]
  simp only [List.mem_append, List.mem_filter, List.mem_map, Bool.not_eq_true', and_assoc]

theorem shift_false (hb : b.Sized) (d : Direction) : b.shift d (fun _ => false) = b := by
  symm
  apply eq_restack hb hb rfl rfl
  intro q _
  simp

namespace Valid

theorem shift (hb : b.Valid) (d : Direction) (moving : PieceId → Bool) :
    (b.shift d moving).Valid := by
  refine hb.of_stackAt rfl rfl (sized_restack hb.sized _) ?_ ?_ ?_
  · intro q x hx
    obtain ⟨-, ⟨hx, -⟩ | ⟨y, -, -, rfl⟩⟩ := (mem_stackAt_shift hb.sized).mp hx
    · exact hb.position_of_mem hx
    · rfl
  · intro q
    by_cases hq : b.InBounds q
    · have hstay : (((b.stackAt q).filter fun x => !moving x.id).map (·.id)).Nodup :=
        (List.filter_sublist.map _).nodup (hb.nodup_stackAt q)
      have harrive : (((b.stackAt (q.step d.reverse)).filter fun x => moving x.id).map
          (·.id)).Nodup :=
        (List.filter_sublist.map _).nodup (hb.nodup_stackAt _)
      rw [stackAt_shift hb.sized hq, List.map_append, List.map_map, List.nodup_append']
      refine ⟨hstay, harrive, ?_⟩
      -- who stays is not moving, and who arrives is
      intro id hs ha
      obtain ⟨x, hx, rfl⟩ := List.mem_map.mp hs
      obtain ⟨y, hy, hyx⟩ := List.mem_map.mp ha
      have hid : y.id = x.id := hyx
      have hxm := (List.mem_filter.mp hx).2
      have hym := (List.mem_filter.mp hy).2
      rw [← hid, hym] at hxm
      cases hxm
    · rw [stackAt_of_not_inBounds (b := b.shift d moving) hq]
      exact List.nodup_nil
  · intro p q x y hx hy hid
    obtain ⟨-, ⟨hx', hxm⟩ | ⟨x', hx', hxm, rfl⟩⟩ := (mem_stackAt_shift hb.sized).mp hx <;>
      obtain ⟨-, ⟨hy', hym⟩ | ⟨y', hy', hym, rfl⟩⟩ := (mem_stackAt_shift hb.sized).mp hy
    · exact hb.cell_eq_of_id_eq hx' hy' hid
    · exact absurd (show moving x.id = true from hid ▸ hym) (by simp [hxm])
    · exact absurd (show moving y.id = true from hid ▸ hxm) (by simp [hym])
    · have hpq : p.step d.reverse = q.step d.reverse := hb.cell_eq_of_id_eq hx' hy' hid
      rw [← Position.step_step_reverse p d, hpq, Position.step_step_reverse]

/-- The identity of a piece picks it out in its stack, and nothing in another one. -/
theorem filter_id_eq (hb : b.Valid) (hx : x ∈ b.pieces) (q : Position) :
    (b.stackAt q).filter (fun y => y.id == x.id) = if x.position = q then [x] else [] := by
  have hstack := hb.mem_stackAt_of_mem_pieces hx
  split
  next hq =>
    rw [hq] at hstack
    exact Stack.filter_id_eq_singleton (hb.nodup_stackAt q) hstack
  next hq =>
    apply Stack.filter_id_eq_nil
    intro y hy hid
    exact hq (hb.cell_eq_of_id_eq hstack hy hid.symm)

/-- Other cells than its own do not have the identity of a piece. -/
theorem id_ne_of_mem (hb : b.Valid) (hx : x ∈ b.pieces) (hq : x.position ≠ q)
    (hy : y ∈ b.stackAt q) : y.id ≠ x.id := by
  intro hid
  exact hq (hb.cell_eq_of_id_eq (hb.mem_stackAt_of_mem_pieces hx) hy hid.symm)

/-! ## One step, and one step more -/

/-- Taking a piece away, putting it on top of the next cell and turning it is a shift. -/
theorem edits_eq_shift (hb : b.Valid) (hx : x ∈ b.pieces)
    (hin : b.InBounds (x.position.step d)) :
    ((b.modifyAt x.position (Stack.remove · x.id)).modifyAt (x.position.step d)
      (· ++ [{ x with position := x.position.step d }])).modifyAt (x.position.step d)
        (Stack.update · x.id ({ · with facing := d })) = b.shift d (· == x.id) := by
  have hsource : b.InBounds x.position := inBounds_of_mem (hb.mem_stackAt_of_mem_pieces hx)
  have hne : x.position.step d ≠ x.position := Position.step_ne_self x.position d
  have htaken : (b.modifyAt x.position (Stack.remove · x.id)).Sized := sized_modifyAt hb.sized _ _
  have hmoved := sized_modifyAt htaken (x.position.step d)
    (· ++ [{ x with position := x.position.step d }])
  apply eq_restack hb.sized (sized_modifyAt hmoved _ _)
  · rw [rows_modifyAt, rows_modifyAt, rows_modifyAt]
  · rw [cols_modifyAt, cols_modifyAt, cols_modifyAt]
  intro q hq
  rw [stackAt_modifyAt hmoved, stackAt_modifyAt htaken, stackAt_modifyAt hb.sized]
  simp only [inBounds_modifyAt, hin, hsource, and_true]
  rw [hb.filter_id_eq hx]
  by_cases htarget : x.position.step d = q
  -- the cell that the piece comes to
  · have hother : ∀ y ∈ b.stackAt q, y.id ≠ x.id := fun y hy =>
      hb.id_ne_of_mem hx (by rw [← htarget]; exact hne.symm) hy
    subst htarget
    rw [if_pos rfl, if_pos rfl, if_neg hne.symm,
      if_pos (Position.step_reverse_step x.position d).symm, Stack.filter_id_ne_eq_self hother]
    exact Stack.update_append_singleton
      (x := { x with position := x.position.step d }) hother ({ · with facing := d })
  · have hback : x.position ≠ q.step d.reverse := fun h =>
      htarget (Position.step_reverse_eq_iff.mp h.symm)
    rw [if_neg htarget, if_neg htarget, if_neg hback, List.map_nil, List.append_nil]
    split
    · exact Stack.remove_eq_filter (hb.nodup_stackAt q) x.id
    next hpq =>
      symm
      apply Stack.filter_id_ne_eq_self
      intro y hy
      exact hb.id_ne_of_mem hx hpq hy

theorem step_eq (hb : b.Valid) (hx : x ∈ b.pieces) (hin : b.InBounds (x.position.step d)) :
    b.step x.id d = .ok (b.shift d (· == x.id), x.position.step d) := by
  have hstack := hb.mem_stackAt_of_mem_pieces hx
  have hsource : b.InBounds x.position := inBounds_of_mem hstack
  have htarget : x.position.wrappedStep d = x.position.step d :=
    (hb.sameCell_wrappedStep hsource).eq hin
  rw [step, hb.find?_eq hstack]
  simp only [htarget, move, hin, hsource, not_true_eq_false, if_false,
    Stack.find?_of_mem (hb.nodup_stackAt x.position) hstack]
  rw [← hb.edits_eq_shift hx hin]
  rfl

/-- In a stack, a piece comes on top of those that move if it stands above them there. -/
theorem filter_or_id_eq (hb : b.Valid) (hx : x ∈ b.pieces) (hnot : moving x.id = false) {i : Nat}
    (hi : (b.stackAt x.position)[i]? = some x)
    (habove : ∀ j y, i < j → (b.stackAt x.position)[j]? = some y → moving y.id = false)
    (q : Position) :
    (b.stackAt q).filter (fun y => moving y.id || y.id == x.id) =
      (b.stackAt q).filter (fun y => moving y.id) ++ if x.position = q then [x] else [] := by
  split
  next hq =>
    subst hq
    have hstill : ∀ y ∈ (b.stackAt x.position).drop (i + 1), moving y.id = false := by
      intro y hy
      obtain ⟨j, hj⟩ := List.mem_iff_getElem?.mp hy
      rw [List.getElem?_drop] at hj
      exact habove (i + 1 + j) y (by omega) hj
    have hnodup := hb.nodup_stackAt x.position
    rw [Stack.eq_append_of_getElem? hi] at hnodup ⊢
    exact Stack.filter_or_id_eq hnodup hnot hstill
  next hq =>
    rw [List.append_nil]
    apply List.filter_congr
    intro y hy
    simp [hb.id_ne_of_mem hx hq hy]

/-- A piece that stays in a shift is on the board after it. -/
theorem mem_pieces_shift (hb : b.Valid) (hx : x ∈ b.pieces) (hnot : moving x.id = false) :
    x ∈ (b.shift d moving).pieces := by
  have hstack := hb.mem_stackAt_of_mem_pieces hx
  rw [mem_pieces_iff (hb.shift d moving).sized]
  exact ⟨x.position, (mem_stackAt_shift hb.sized).mpr
    ⟨inBounds_of_mem hstack, .inl ⟨hstack, hnot⟩⟩⟩

/-- Shifting one piece more, which stands above those of its cell that were shifted. -/
theorem shift_shift (hb : b.Valid) (hx : x ∈ b.pieces) (hnot : moving x.id = false) {i : Nat}
    (hi : (b.stackAt x.position)[i]? = some x)
    (habove : ∀ j y, i < j → (b.stackAt x.position)[j]? = some y → moving y.id = false) :
    (b.shift d moving).shift d (· == x.id) = b.shift d fun id => moving id || id == x.id := by
  have hb' : (b.shift d moving).Valid := hb.shift d moving
  apply eq_restack hb.sized (hb'.shift d _).sized rfl rfl
  intro q hq
  rw [stackAt_shift hb'.sized hq, hb'.filter_id_eq (hb.mem_pieces_shift hx hnot),
    hb.filter_or_id_eq hx hnot hi habove, List.map_append, stackAt_shift hb.sized hq,
    List.filter_append, List.filter_filter, List.append_assoc]
  congr 1
  · apply List.filter_congr
    intro y _
    rw [Bool.not_or, Bool.and_comm]
  -- those that have arrived have other identities
  · congr 1
    apply List.filter_eq_self.mpr
    intro y hy
    obtain ⟨z, hz, rfl⟩ := List.mem_map.mp hy
    have hne : z.id ≠ x.id := by
      intro hid
      have hmoving := (List.mem_filter.mp hz).2
      rw [hid, hnot] at hmoving
      cases hmoving
    simpa [Piece.arrive] using hne

end Valid

end Board

/-! ## Movers one after the other -/

namespace Mover

variable {b : Board} {d : Direction} {m m' : Mover} {moved : PieceId → Bool}

/-- A mover names a piece of the board and its place. -/
def On (b : Board) (m : Mover) : Prop :=
  ∃ x, (b.stackAt m.position)[m.layer]? = some x ∧ x.id = m.piece ∧ x.kind = m.kind

def stepTo (d : Direction) (m : Mover) : Step :=
  ⟨m.piece, m.kind, m.position, m.position.step d⟩

theorem On.eq_of_piece_eq (hb : b.Valid) (hm : m.On b) (hm' : m'.On b)
    (h : m.piece = m'.piece) : m = m' := by
  obtain ⟨x, hx, hxid, hxkind⟩ := hm
  obtain ⟨y, hy, hyid, hykind⟩ := hm'
  have hxmem := List.mem_of_getElem? hx
  have hymem := List.mem_of_getElem? hy
  have hid : x.id = y.id := by rw [hxid, hyid, h]
  have hxy : x = y := hb.eq_of_id_eq hxmem hymem hid
  have hposition : m.position = m'.position := hb.cell_eq_of_id_eq hxmem hymem hid
  have hlayer : m.layer = m'.layer := by
    rw [hposition, hxy] at hx
    exact Stack.layer_eq_of_nodup (hb.nodup_stackAt _) hx hy
  cases m
  cases m'
  simp only at h hposition hlayer hxkind hykind
  simp only [h, hposition, hlayer, ← hxkind, ← hykind, hxy]

theorem On.eq_of_place (hm : m.On b) (hm' : m'.On b) (hposition : m.position = m'.position)
    (hlayer : m.layer = m'.layer) : m = m' := by
  obtain ⟨x, hx, hxid, hxkind⟩ := hm
  obtain ⟨y, hy, hyid, hykind⟩ := hm'
  rw [hposition, hlayer, hy] at hx
  cases m
  cases m'
  simp only at hposition hlayer hxid hyid hxkind hykind
  simp only [hposition, hlayer, ← hxid, ← hyid, ← hxkind, ← hykind, Option.some.inj hx]

/-- Each piece that stands above a mover in its cell is still there. -/
def ClearAbove (b : Board) (moved : PieceId → Bool) (m : Mover) : Prop :=
  ∀ j y, m.layer < j → (b.stackAt m.position)[j]? = some y → moved y.id = false

/-- The step of a mover adds it to the shift that was made so far. -/
theorem step_shift (hb : b.Valid) (hon : m.On b) (hin : b.InBounds (m.position.step d))
    (hstill : moved m.piece = false) (hclear : m.ClearAbove b moved) (steps : List Step) :
    step d (b.shift d moved, steps) m =
      .ok (b.shift d (fun id => moved id || id == m.piece), steps ++ [stepTo d m]) := by
  obtain ⟨x, hx, hid, -⟩ := hon
  have hstack : x ∈ b.stackAt m.position := List.mem_of_getElem? hx
  have hposition : x.position = m.position := hb.position_of_mem hstack
  have hmem : x ∈ b.pieces := (Board.mem_pieces_iff hb.sized).mpr ⟨_, hstack⟩
  have hnot : moved x.id = false := by rw [hid]; exact hstill
  rw [ClearAbove, ← hposition] at hclear
  rw [← hposition] at hx hin
  have htarget : (b.shift d moved).InBounds (x.position.step d) := hin
  have hshift := (hb.shift d moved).step_eq (hb.mem_pieces_shift hmem hnot) htarget
  rw [hb.shift_shift hmem hnot hx hclear] at hshift
  rw [step, stepTo, ← hid, hshift, hposition]
  rfl

/-- A mover that has stepped does not stand above one that is still to step. -/
theorem ClearAbove.step (hb : b.Valid) (hon : m.On b) (hclear : m'.ClearAbove b moved)
    (hle : m.position = m'.position → m.layer ≤ m'.layer) :
    m'.ClearAbove b fun id => moved id || id == m.piece := by
  intro j y hj hy
  have hne : y.id ≠ m.piece := by
    intro h
    have hon' : Mover.On b ⟨y.id, y.kind, m'.position, j⟩ := ⟨y, hy, rfl, rfl⟩
    have heq := hon'.eq_of_piece_eq hb hon h
    rw [← heq] at hle
    exact absurd hj (Nat.not_lt.mpr (hle rfl))
  simp [hclear j y hj hy, hne]

/-- Movers that step one after the other, each before those that stand above it, shift all of
them, after those that have stepped before. -/
theorem foldlM_step_eq (hb : b.Valid) {ms : List Mover} (moved : PieceId → Bool)
    (steps : List Step) (hon : ∀ m ∈ ms, m.On b)
    (hin : ∀ m ∈ ms, b.InBounds (m.position.step d)) (hnodup : (ms.map (·.piece)).Nodup)
    (horder : ms.Pairwise fun m m' => m.position = m'.position → m.layer ≤ m'.layer)
    (hstill : ∀ m ∈ ms, moved m.piece = false) (hclear : ∀ m ∈ ms, m.ClearAbove b moved) :
    ms.foldlM (step d) (b.shift d moved, steps) =
      .ok (b.shift d (fun id => moved id || ms.any (·.piece == id)),
        steps ++ ms.map (stepTo d)) := by
  -- `moved` takes in every mover that has stepped; the board the movers are on stays the same
  induction ms generalizing moved steps with
  | nil =>
      simp only [List.any_nil, Bool.or_false, List.map_nil, List.append_nil]
      rfl
  | cons m rest ih =>
      rw [List.forall_mem_cons] at hon hin hstill hclear
      rw [List.map_cons, List.nodup_cons] at hnodup
      rw [List.pairwise_cons] at horder
      rw [List.foldlM_cons, step_shift hb hon.1 hin.1 hstill.1 hclear.1]
      show List.foldlM (step d) _ rest = _
      rw [ih (fun id => moved id || id == m.piece) (steps ++ [stepTo d m]) hon.2 hin.2 hnodup.2
        horder.2]
      · simp only [List.map_cons, List.append_assoc, List.singleton_append, List.any_cons,
          Bool.or_assoc, Bool.beq_comm (a := m.piece)]
      · intro m' hm'
        have hne : m'.piece ≠ m.piece := fun h => hnodup.1 (List.mem_map.mpr ⟨m', hm', h⟩)
        simp [hstill.2 m' hm', hne]
      · intro m' hm'
        exact (hclear.2 m' hm').step hb hon.1 (horder.1 m' hm')

/-! ## The order of steps -/

theorem precedes_total (m m' : Mover) : (precedes d m m' || precedes d m' m) = true := by
  unfold precedes
  split_ifs <;> simp <;> omega

theorem precedes_trans (m₁ m₂ m₃ : Mover) (h₁₂ : precedes d m₁ m₂ = true)
    (h₂₃ : precedes d m₂ m₃ = true) : precedes d m₁ m₃ = true := by
  unfold precedes at *
  split_ifs at * <;> simp at * <;> omega

theorem layer_le_of_precedes (h : precedes d m m' = true) (hposition : m.position = m'.position) :
    m.layer ≤ m'.layer := by
  simpa [precedes, hposition] using h

/-- Movers that may step in either order are at one place. -/
theorem eq_of_precedes (h : precedes d m m' = true) (h' : precedes d m' m = true) :
    m.position = m'.position ∧ m.layer = m'.layer := by
  obtain ⟨id, kind, ⟨row, col⟩, layer⟩ := m
  obtain ⟨id', kind', ⟨row', col'⟩, layer'⟩ := m'
  unfold precedes at h h'
  split_ifs at h h' <;> simp at * <;> omega

theorem inOrder_perm (d : Direction) (ms : List Mover) : (inOrder d ms).Perm ms :=
  List.mergeSort_perm ms _

theorem nodup_steps (d : Direction) {ms : List Mover} (h : (ms.map (·.piece)).Nodup) :
    (((inOrder d ms).map (stepTo d)).map (·.piece)).Nodup := by
  rw [List.map_map]
  exact ((inOrder_perm d ms).map _).nodup_iff.mpr h

theorem sorted_inOrder (d : Direction) (ms : List Mover) :
    (inOrder d ms).Pairwise fun m m' => precedes d m m' = true :=
  List.pairwise_mergeSort precedes_trans precedes_total ms

/-- Movers in different places have one order only. -/
theorem inOrder_eq_of_perm {ms ms' : List Mover} (h : ms.Perm ms')
    (hplaces : ∀ m ∈ ms', ∀ m' ∈ ms', m.position = m'.position → m.layer = m'.layer → m = m')
    (d : Direction) : inOrder d ms = inOrder d ms' := by
  have hperm := inOrder_perm d ms
  have hperm' := inOrder_perm d ms'
  apply List.Perm.eq_of_pairwise _ (sorted_inOrder d ms) (sorted_inOrder d ms')
  · exact (hperm.trans h).trans hperm'.symm
  · intro m m' hm hm' hbefore hafter
    obtain ⟨hposition, hlayer⟩ := eq_of_precedes hbefore hafter
    exact hplaces m ((hperm.trans h).mem_iff.mp hm) m' (hperm'.mem_iff.mp hm') hposition hlayer

theorem pairwise_inOrder (d : Direction) (ms : List Mover) :
    (inOrder d ms).Pairwise fun m m' => m.position = m'.position → m.layer ≤ m'.layer := by
  refine (sorted_inOrder d ms).imp ?_
  intro m m' h
  exact layer_le_of_precedes h

/-- Movers that step one after the other, each before those that stand above it, make the shift
of all of them. -/
theorem foldlM_step_eq_shift (hb : b.Valid) {ms : List Mover} (hon : ∀ m ∈ ms, m.On b)
    (hin : ∀ m ∈ ms, b.InBounds (m.position.step d)) (hnodup : (ms.map (·.piece)).Nodup)
    (horder : ms.Pairwise fun m m' => m.position = m'.position → m.layer ≤ m'.layer) :
    ms.foldlM (step d) (b, []) =
      .ok (b.shift d (fun id => ms.any (·.piece == id)), ms.map (stepTo d)) := by
  have hfold := foldlM_step_eq hb (fun _ => false) [] hon hin hnodup horder (fun _ _ => rfl)
    fun _ _ _ _ _ _ => rfl
  rw [Board.shift_false hb.sized, List.nil_append] at hfold
  simpa only [Bool.false_or] using hfold

end Mover

namespace Board

variable {b : Board} {d : Direction} {plan : MovePlan}

/-- Carrying out a plan of pieces that can all step is the shift of these pieces. -/
theorem Valid.commit_eq (hb : b.Valid) (hdirection : plan.direction = some d)
    (hon : ∀ m ∈ plan.movers, m.On b)
    (hin : ∀ m ∈ plan.movers, b.InBounds (m.position.step d))
    (hnodup : (plan.movers.map (·.piece)).Nodup) :
    b.commit plan =
      .ok (b.shift d plan.moves, (Mover.inOrder d plan.movers).map (Mover.stepTo d)) := by
  have hperm := Mover.inOrder_perm d plan.movers
  have hfold := Mover.foldlM_step_eq_shift hb (fun m hm => hon m (hperm.mem_iff.mp hm))
    (fun m hm => hin m (hperm.mem_iff.mp hm)) ((hperm.map _).nodup_iff.mpr hnodup)
    (Mover.pairwise_inOrder d plan.movers)
  have hmoves : (fun id => (Mover.inOrder d plan.movers).any (·.piece == id)) = plan.moves := by
    funext id
    rw [MovePlan.moves, hperm.any_eq]
  rw [hmoves] at hfold
  rw [commit, hdirection]
  exact hfold

end Board

end WordTiles
