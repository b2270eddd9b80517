import Mathlib.Algebra.Order.Group.Multiset
import WordTiles.Proofs.Board.InPlace

/-!
# Boards that are edited

A board starts empty and is changed by one operation after the other, whatever they are asked to do
and whether or not they are refused. Each of them keeps every piece in the cell that its position
names (`Board.Orderly`), and exchanges identities for others: putting a piece down adds one, taking
a piece away drops one, and the others leave them as they are (`Board.Exchanges`). This needs no
identity to be the only one of its kind.

The main statement is `Board.edited_in_order`.
-/

set_option autoImplicit false

namespace WordTiles

namespace Stack

variable {s : Stack} {x : Piece} {id : PieceId} {f : Piece → Piece}

/-- A piece that is found is what removing its identity takes away. -/
theorem perm_cons_remove (h : s.find? id = some x) : s.Perm (x :: s.remove id) := by
  induction s with
  | nil => cases h
  | cons y rest ih =>
      by_cases hy : y.id = id
      · have hxy : y = x := by simpa [find?, hy] using h
        rw [remove, List.eraseP_cons_of_pos (by simp [hy]), hxy]
      · have hrest : find? rest id = some x := by simpa [find?, hy] using h
        rw [remove, List.eraseP_cons_of_neg (by simp [hy])]
        exact ((ih hrest).cons y).trans (List.Perm.swap ..)

theorem mem_of_mem_remove {y : Piece} (h : y ∈ s.remove id) : y ∈ s :=
  List.mem_of_mem_eraseP h

theorem exists_of_mem_update {y : Piece} (h : y ∈ s.update id f) : ∃ x ∈ s, y = x ∨ y = f x := by
  obtain ⟨i, hi⟩ := List.mem_iff_getElem?.mp h
  rw [update, List.getElem?_modify] at hi
  obtain ⟨x, hx, hxy⟩ := Option.map_eq_some_iff.mp hi
  refine ⟨x, List.mem_of_getElem? hx, ?_⟩
  split at hxy
  · exact .inr hxy.symm
  · exact .inl hxy.symm

theorem map_id_update (hf : ∀ x, (f x).id = x.id) (s : Stack) (id : PieceId) :
    (s.update id f).map (·.id) = s.map (·.id) := by
  apply List.ext_getElem?
  intro i
  rw [update, List.getElem?_map, List.getElem?_map, List.getElem?_modify]
  cases s[i]? with
  | none => rfl
  | some x =>
      apply congrArg some
      split
      · exact hf x
      · rfl

end Stack

namespace Board

variable {b b' : Board} {p : Position} {x : Piece} {id : PieceId} {f : Stack → Stack}

/-! ## Identities -/

def idsOf (xs : List Piece) : Multiset PieceId := (xs.map (·.id) : List PieceId)

/-- The identities on a board, each as often as it occurs. -/
def ids (b : Board) : Multiset PieceId := idsOf b.pieces

theorem idsOf_append (xs ys : List Piece) : idsOf (xs ++ ys) = idsOf xs + idsOf ys := by
  rw [idsOf, List.map_append, ← Multiset.coe_add]
  rfl

theorem idsOf_perm {xs ys : List Piece} (h : xs.Perm ys) : idsOf xs = idsOf ys :=
  Multiset.coe_eq_coe.mpr (h.map _)

/-- Changing one of some lists exchanges its entries for others. -/
theorem flatten_modify_perm {α : Type} {ls : List (List α)} {i : Nat} {l : List α}
    (h : ls[i]? = some l) (g : List α → List α) :
    (l ++ (ls.modify i g).flatten).Perm (g l ++ ls.flatten) := by
  induction ls generalizing i with
  | nil => cases h
  | cons m rest ih =>
      cases i with
      | zero =>
          cases h
          rw [List.modify_zero_cons, List.flatten_cons, List.flatten_cons]
          exact List.perm_append_comm_assoc ..
      | succ i =>
          rw [List.modify_succ_cons, List.flatten_cons, List.flatten_cons]
          calc
            (l ++ (m ++ (rest.modify i g).flatten)).Perm (m ++ (l ++ (rest.modify i g).flatten)) :=
              List.perm_append_comm_assoc ..
            List.Perm _ (m ++ (g l ++ rest.flatten)) := (ih h).append_left m
            List.Perm _ (g l ++ (m ++ rest.flatten)) := List.perm_append_comm_assoc ..

/-! ## Orderly boards -/

/-- A board with one cell for each row and column, on which every piece is in the cell that its
position names. Identities may occur more than once. -/
structure Orderly (b : Board) : Prop where
  sized : b.Sized
  position_eq : ∀ p x, x ∈ b.stackAt p → x.position = p

/-- An orderly board made of another one: the size is kept, and on the way some identities were put
down and some were taken away. -/
structure Exchanges (b b' : Board) (placed removed : Multiset PieceId) : Prop where
  rows_eq : b'.rows = b.rows
  cols_eq : b'.cols = b.cols
  orderly : b'.Orderly
  ids_eq : removed + b'.ids = placed + b.ids

theorem Valid.orderly (hb : b.Valid) : b.Orderly :=
  ⟨hb.sized, fun _ _ hx => hb.position_of_mem hx⟩

theorem orderly_empty (rows cols : Nat) : (empty rows cols).Orderly where
  sized := sized_empty rows cols
  position_eq := fun p x hx => absurd hx (by rw [stackAt_empty]; exact List.not_mem_nil)

theorem ids_empty (rows cols : Nat) : (empty rows cols).ids = 0 := by
  rw [ids, pieces_eq_flatMap (sized_empty rows cols)]
  simp [stackAt_empty, idsOf]

namespace Exchanges

variable {placed removed placed' removed' m : Multiset PieceId}

theorem refl (hb : b.Orderly) : b.Exchanges b 0 0 := ⟨rfl, rfl, hb, rfl⟩

theorem trans {b'' : Board} (h : b.Exchanges b' placed removed)
    (h' : b'.Exchanges b'' placed' removed') :
    b.Exchanges b'' (placed + placed') (removed + removed') where
  rows_eq := h'.rows_eq.trans h.rows_eq
  cols_eq := h'.cols_eq.trans h.cols_eq
  orderly := h'.orderly
  ids_eq := by
    calc
      removed + removed' + b''.ids = removed + (placed' + b'.ids) := by
        rw [add_assoc, h'.ids_eq]
      _ = placed' + (placed + b.ids) := by rw [add_left_comm, h.ids_eq]
      _ = placed + placed' + b.ids := by rw [add_left_comm, add_assoc]

/-- What is both put down and taken away need not be told. -/
theorem cancel (h : b.Exchanges b' placed' removed') (m : Multiset PieceId)
    (hplaced : placed' = m + placed) (hremoved : removed' = m + removed) :
    b.Exchanges b' placed removed where
  rows_eq := h.rows_eq
  cols_eq := h.cols_eq
  orderly := h.orderly
  ids_eq := by
    have hids := h.ids_eq
    rw [hplaced, hremoved, add_assoc, add_assoc] at hids
    exact add_left_cancel hids

end Exchanges

namespace Orderly

/-- Changing the stack of a cell exchanges its pieces for others, all of which must name the
cell. -/
theorem modifyAt (hb : b.Orderly) (hp : b.InBounds p)
    (hf : ∀ x ∈ f (b.stackAt p), x.position = p) :
    b.Exchanges (b.modifyAt p f) (idsOf (f (b.stackAt p))) (idsOf (b.stackAt p)) where
  rows_eq := rows_modifyAt ..
  cols_eq := cols_modifyAt ..
  orderly := by
    refine ⟨sized_modifyAt hb.sized p f, ?_⟩
    intro q x hx
    rw [stackAt_modifyAt hb.sized] at hx
    split at hx
    next hpq =>
      obtain ⟨rfl, -⟩ := hpq
      exact hf x hx
    · exact hb.position_eq q x hx
  ids_eq := by
    have hi := index?_eq_some hp
    have hcell : b.cells.toList[p.row.toNat * b.cols + p.col.toNat]? = some (b.stackAt p) := by
      rw [Array.getElem?_toList, getElem?_cells hb.sized, if_pos (index?_lt hi),
        positionAt_of_index? hi]
    rw [ids, ids, ← idsOf_append, ← idsOf_append, pieces, pieces, modifyAt_eq hi]
    simp only [Array.toList_modify]
    exact idsOf_perm (flatten_modify_perm hcell f)

theorem push (hb : b.Orderly) (hp : b.InBounds p) (hx : x.position = p) :
    b.Exchanges (b.modifyAt p (· ++ [x])) {x.id} 0 := by
  have hnames : ∀ y ∈ b.stackAt p ++ [x], y.position = p := by
    intro y hy
    rcases List.mem_append.mp hy with hy | hy
    · exact hb.position_eq p y hy
    · rw [List.mem_singleton.mp hy, hx]
  apply (hb.modifyAt (f := (· ++ [x])) hp hnames).cancel (idsOf (b.stackAt p))
  · exact idsOf_append _ _
  · exact (add_zero _).symm

theorem take (hb : b.Orderly) (hx : (b.stackAt p).find? id = some x) :
    b.Exchanges (b.modifyAt p (Stack.remove · id)) 0 {id} := by
  have hp : b.InBounds p := inBounds_of_mem (List.mem_of_find?_eq_some hx)
  obtain rfl : x.id = id := by simpa using List.find?_some hx
  have hnames : ∀ y ∈ (b.stackAt p).remove x.id, y.position = p := fun y hy =>
    hb.position_eq p y (Stack.mem_of_mem_remove hy)
  apply (hb.modifyAt (f := (Stack.remove · x.id)) hp hnames).cancel
    (idsOf ((b.stackAt p).remove x.id))
  · exact (add_zero _).symm
  · rw [add_comm]
    exact (idsOf_perm (Stack.perm_cons_remove hx)).trans (idsOf_append [x] _)

theorem change {g : Piece → Piece} (hb : b.Orderly) (hp : b.InBounds p) (id : PieceId)
    (hid : ∀ x, (g x).id = x.id) (hposition : ∀ x, (g x).position = x.position) :
    b.Exchanges (b.modifyAt p (Stack.update · id g)) 0 0 := by
  have hnames : ∀ y ∈ (b.stackAt p).update id g, y.position = p := by
    intro y hy
    obtain ⟨x, hx, hxy⟩ := Stack.exists_of_mem_update hy
    have hxp := hb.position_eq p x hx
    rcases hxy with rfl | rfl
    · exact hxp
    · rw [hposition, hxp]
  apply (hb.modifyAt (f := (Stack.update · id g)) hp hnames).cancel (idsOf (b.stackAt p))
  · rw [add_zero, idsOf, idsOf, Stack.map_id_update hid]
  · exact (add_zero _).symm

theorem place (hb : b.Orderly) (h : b.place x = .ok b') : b.Exchanges b' {x.id} 0 := by
  rw [Board.place] at h
  split at h
  next hx =>
    cases h
    exact hb.push hx rfl
  · cases h

/-- Moving a piece, in its cell or to another one, keeps all identities. The piece is on the board
again at the end. -/
theorem move {source target : Position} (hb : b.Orderly) (h : b.move id source target = .ok b') :
    b.Exchanges b' 0 0 ∧ b'.InBounds target := by
  rw [Board.move] at h
  split at h
  · cases h
  next htarget =>
    split at h
    · cases h
    split at h
    · cases h
    next piece hpiece =>
      cases h
      have hid : piece.id = id := by simpa using List.find?_some hpiece
      have hin : (b.modifyAt source (Stack.remove · id)).InBounds target :=
        (inBounds_modifyAt ..).mpr (not_not.mp htarget)
      have htake := hb.take hpiece
      have hpush := htake.orderly.push (x := { piece with position := target }) hin rfl
      refine ⟨(htake.trans hpush).cancel {id} ?_ ?_, (inBounds_modifyAt ..).mpr hin⟩
      · rw [← hid, add_comm]
      · rfl

theorem step {d : Direction} {target : Position} (hb : b.Orderly)
    (h : b.step id d = .ok (b', target)) : b.Exchanges b' 0 0 := by
  rw [Board.step] at h
  split at h
  · cases h
  next piece hpiece =>
    cases hmove : b.move id piece.position (piece.position.wrappedStep d) with
    | error e =>
        simp only [hmove] at h
        cases h
    | ok moved =>
        simp only [hmove] at h
        cases h
        obtain ⟨hmoved, hin⟩ := hb.move hmove
        exact hmoved.trans <|
          hmoved.orderly.change (g := ({ · with facing := d })) hin id (fun _ => rfl) fun _ => rfl

theorem setKind {kind old : Kind} (hb : b.Orderly) (h : b.setKind id kind = .ok (b', old)) :
    b.Exchanges b' 0 0 := by
  rw [Board.setKind] at h
  split at h
  · cases h
  split at h
  · cases h
  next found hfound =>
    cases h
    exact hb.change (inBounds_of_mem (List.mem_of_find?_eq_some hfound)) id (fun _ => rfl)
      fun _ => rfl

theorem remove (hb : b.Orderly) (h : b.remove id = .ok (b', x)) : b.Exchanges b' 0 {id} := by
  rw [Board.remove] at h
  split at h
  · cases h
  split at h
  · cases h
  split at h
  · cases h
  next found hfound =>
    cases h
    exact hb.take hfound

end Orderly

end Board

/-! ## Operations one after the other -/

inductive Edit where
  | place (piece : Piece)
  | move (id : PieceId) (source target : Position)
  | step (id : PieceId) (direction : Direction)
  | setKind (id : PieceId) (kind : Kind)
  | remove (id : PieceId)
  deriving DecidableEq

namespace Edit

variable {b b' : Board} {e : Edit}

/-- The board that an operation makes of a board, or why it is refused. -/
def result (b : Board) : Edit → Except BoardError Board
  | .place piece => b.place piece
  | .move id source target => b.move id source target
  | .step id d => (b.step id d).map Prod.fst
  | .setKind id kind => (b.setKind id kind).map Prod.fst
  | .remove id => (b.remove id).map Prod.fst

def inPlace : Edit → InPlace Unit
  | .place piece => InPlace.place piece
  | .move id source target => InPlace.move id source target
  | .step id d => do let _ ← InPlace.step id d
  | .setKind id kind => do let _ ← InPlace.setKind id kind
  | .remove id => do let _ ← InPlace.remove id

/-- The board after an operation: that of before, if it is refused. -/
def after (b : Board) (e : Edit) : Board :=
  match e.result b with
  | .ok b' => b'
  | .error _ => b

def placed? : Edit → Option PieceId
  | .place piece => some piece.id
  | _ => none

def removed? : Edit → Option PieceId
  | .remove id => some id
  | _ => none

theorem run_inPlace (b : Board) (e : Edit) :
    e.inPlace.run b = InPlace.settle b ((e.result b).map (·, ())) := by
  cases e with
  | place piece => exact InPlace.run_place b piece
  | move id source target => exact InPlace.run_move b id source target
  | step id d =>
      show (InPlace.step id d >>= fun _ => pure ()).run b = _
      rw [EStateM.run_bind, InPlace.run_step, result]
      cases b.step id d <;> rfl
  | setKind id kind =>
      show (InPlace.setKind id kind >>= fun _ => pure ()).run b = _
      rw [EStateM.run_bind, InPlace.run_setKind, result]
      cases b.setKind id kind <;> rfl
  | remove id =>
      show (InPlace.remove id >>= fun _ => pure ()).run b = _
      rw [EStateM.run_bind, InPlace.run_remove, result]
      cases b.remove id <;> rfl

theorem exists_of_map_fst {α : Type} {r : Except BoardError (Board × α)}
    (h : r.map Prod.fst = .ok b') : ∃ a, r = .ok (b', a) := by
  cases r with
  | error refusal => cases h
  | ok ba =>
      cases h
      exact ⟨ba.2, rfl⟩

/-- An operation that is not refused exchanges the identities that it names. -/
theorem exchanges_of_result (hb : b.Orderly) (h : e.result b = .ok b') :
    b.Exchanges b' (e.placed?.toList : List PieceId) (e.removed?.toList : List PieceId) := by
  cases e with
  | place piece => exact hb.place h
  | move id source target => exact (hb.move h).1
  | step id d =>
      obtain ⟨target, hstep⟩ := exists_of_map_fst h
      exact hb.step hstep
  | setKind id kind =>
      obtain ⟨old, hset⟩ := exists_of_map_fst h
      exact hb.setKind hset
  | remove id =>
      obtain ⟨piece, hremove⟩ := exists_of_map_fst h
      exact hb.remove hremove

end Edit

namespace Board

variable {b b' : Board} {e : Edit} {edits : List Edit}

/-- The board after some operations, one after the other. -/
def edited (b : Board) (edits : List Edit) : Board := edits.foldl Edit.after b

/-- The operations, each with the board that it finds. -/
def attempted (b : Board) : List Edit → List (Board × Edit)
  | [] => []
  | e :: rest => (b, e) :: (e.after b).attempted rest

/-- The operations that are not refused. -/
def accepted (b : Board) (edits : List Edit) : List Edit :=
  ((b.attempted edits).filter fun t => (t.2.result t.1).isOk).map Prod.snd

def placedIds (edits : List Edit) : Multiset PieceId :=
  (edits.filterMap Edit.placed? : List PieceId)

def removedIds (edits : List Edit) : Multiset PieceId :=
  (edits.filterMap Edit.removed? : List PieceId)

theorem placedIds_append (es es' : List Edit) :
    placedIds (es ++ es') = placedIds es + placedIds es' := by
  rw [placedIds, List.filterMap_append, ← Multiset.coe_add]
  rfl

theorem removedIds_append (es es' : List Edit) :
    removedIds (es ++ es') = removedIds es + removedIds es' := by
  rw [removedIds, List.filterMap_append, ← Multiset.coe_add]
  rfl

/-- Whether an operation is refused, only the board that it finds decides. -/
theorem accepted_cons (b : Board) (e : Edit) (edits : List Edit) :
    b.accepted (e :: edits) = b.accepted [e] ++ (e.after b).accepted edits := by
  simp only [accepted, attempted, List.filter_cons, List.filter_nil]
  split <;> rfl

/-- What one operation keeps and does, whether or not it is refused. -/
theorem Orderly.exchanges_after (hb : b.Orderly) (e : Edit) :
    b.Exchanges (e.after b) (placedIds (b.accepted [e])) (removedIds (b.accepted [e])) := by
  cases h : e.result b with
  | error refusal =>
      have hnone : b.accepted [e] = [] := by
        simp [accepted, attempted, h, Except.isOk, Except.toBool]
      rw [hnone, Edit.after, h]
      exact .refl hb
  | ok b' =>
      have hone : b.accepted [e] = [e] := by
        simp [accepted, attempted, h, Except.isOk, Except.toBool]
      have hplaced : placedIds [e] = (e.placed?.toList : List PieceId) := by cases e <;> rfl
      have hremoved : removedIds [e] = (e.removed?.toList : List PieceId) := by cases e <;> rfl
      rw [hone, hplaced, hremoved, Edit.after, h]
      exact Edit.exchanges_of_result hb h

/-- What one operation keeps and does, any number of them keep and do. -/
theorem Orderly.exchanges_edited (hb : b.Orderly) (edits : List Edit) :
    b.Exchanges (b.edited edits) (placedIds (b.accepted edits))
      (removedIds (b.accepted edits)) := by
  induction edits generalizing b with
  | nil => exact .refl hb
  | cons e rest ih =>
      have hfirst := hb.exchanges_after e
      rw [accepted_cons, placedIds_append, removedIds_append]
      exact hfirst.trans (ih hfirst.orderly)

/-- An operation that puts down no identity a second time leaves none there twice. -/
theorem Orderly.nodup_ids_after (hb : b.Orderly) (hnodup : b.ids.Nodup)
    (hfresh : ∀ x, e = .place x → b.InBounds x.position → x.id ∉ b.ids) :
    (e.after b).ids.Nodup := by
  rw [Edit.after]
  cases h : e.result b with
  | error refusal => exact hnodup
  | ok b' =>
      have hplaced : ((e.placed?.toList : List PieceId) + b.ids).Nodup := by
        cases e with
        | place x =>
            have hx : b.InBounds x.position := by
              by_contra hout
              rw [Edit.result, Board.place, if_neg hout] at h
              cases h
            exact Multiset.nodup_cons.mpr ⟨hfresh x rfl hx, hnodup⟩
        | move | step | setKind | remove => exact hnodup
      rw [← (Edit.exchanges_of_result hb h).ids_eq] at hplaced
      exact Multiset.nodup_of_le (Multiset.le_add_left _ _) hplaced

theorem Orderly.nodup_ids_edited (hb : b.Orderly) (hnodup : b.ids.Nodup)
    (hfresh : ∀ before x, (before, Edit.place x) ∈ b.attempted edits →
      before.InBounds x.position → x.id ∉ before.ids) : (b.edited edits).ids.Nodup := by
  induction edits generalizing b with
  | nil => exact hnodup
  | cons e rest ih =>
      apply ih (hb.exchanges_after e).orderly
      · apply hb.nodup_ids_after hnodup
        rintro x rfl
        exact hfresh b x List.mem_cons_self
      · intro before x hx
        exact hfresh before x (List.mem_cons_of_mem _ hx)

/-- An orderly board made of a board of playable size is valid if no identity occurs twice. -/
theorem Exchanges.valid {placed removed : Multiset PieceId} (h : b.Exchanges b' placed removed)
    (hrows : 0 < b.rows) (hcols : 0 < b.cols) (hrows' : b.rows ≤ Position.greatest + 1)
    (hcols' : b.cols ≤ Position.greatest + 1) (hnodup : b'.ids.Nodup) : b'.Valid where
  rows_pos := h.rows_eq ▸ hrows
  cols_pos := h.cols_eq ▸ hcols
  rows_le := h.rows_eq ▸ hrows'
  cols_le := h.cols_eq ▸ hcols'
  sized := h.orderly.sized
  position_eq := fun ⟨p, x⟩ hx =>
    h.orderly.position_eq p x ((mem_placements_iff h.orderly.sized).mp hx)
  ids_nodup := Multiset.coe_nodup.mp hnodup

theorem Orderly.index?_position {x : Piece} {s : Stack} {i : Nat} (hb : b.Orderly)
    (hs : b.cells[i]? = some s) (hx : x ∈ s) : b.index? x.position = some i := by
  rw [getElem?_cells hb.sized] at hs
  split at hs
  next hi =>
    cases hs
    rw [hb.position_eq _ x hx]
    exact index?_positionAt hi
  · cases hs

/-- **Every operation keeps a board in order.** Whatever operations are tried on an empty board, one
after the other, every piece is stored in the cell that its position names, and the identities on
the board are those that were put down without those that were taken away, each as often as that. An
operation that is refused leaves the board that it found exactly as it was, although it is carried
out in place. And if the board has rows and columns and no piece was put down with an identity that
was there already, then no identity is there twice and the board is valid. -/
theorem edited_in_order {rows cols : Nat} (hrows : rows ≤ Position.greatest + 1)
    (hcols : cols ≤ Position.greatest + 1) (edits : List Edit) :
    let start := empty rows cols
    let b := start.edited edits
    (∀ i s, b.cells[i]? = some s → ∀ x ∈ s, b.index? x.position = some i) ∧
    (removedIds (start.accepted edits) ≤ placedIds (start.accepted edits) ∧
      b.ids = placedIds (start.accepted edits) - removedIds (start.accepted edits)) ∧
    (∀ before e, (before, e) ∈ start.attempted edits →
      match e.result before with
      | .ok changed => e.inPlace.run before = .ok () changed
      | .error refusal => e.inPlace.run before = .error refusal before) ∧
    (0 < rows → 0 < cols →
      (∀ before x, (before, .place x) ∈ start.attempted edits →
        before.InBounds x.position → x.id ∉ before.ids) →
      b.ids.Nodup ∧ b.validate = .ok ()) := by
  intro start b
  -- the run lemma, told from a board on which there is nothing
  have hstart : start.Orderly := orderly_empty rows cols
  have hb : start.Exchanges b _ _ := hstart.exchanges_edited edits
  have hids : removedIds (start.accepted edits) + b.ids = placedIds (start.accepted edits) := by
    rw [hb.ids_eq, ids_empty, add_zero]
  refine ⟨fun i s hs x hx => hb.orderly.index?_position hs hx, ⟨?_, ?_⟩, ?_, ?_⟩
  · rw [← hids]
    exact Multiset.le_add_right _ _
  · rw [← hids, add_tsub_cancel_left]
  · intro before e _
    rw [Edit.run_inPlace]
    cases e.result before <;> rfl
  · intro hrows' hcols' hfresh
    have hnodup : b.ids.Nodup := by
      apply hstart.nodup_ids_edited _ hfresh
      rw [ids_empty]
      exact Multiset.nodup_zero
    exact ⟨hnodup, validate_eq_ok_iff.mpr (hb.valid hrows' hcols' hrows hcols hnodup)⟩

/-- Two pieces come, one goes, and three operations are refused. -/
def busyEdits : List Edit :=
  [.place ⟨.ofNat 1, .thing .baba, ⟨0, 0⟩, .right⟩, .place ⟨.ofNat 2, .tile "IS", ⟨0, 0⟩, .up⟩,
    .place ⟨.ofNat 3, .thing .rock, ⟨1, 0⟩, .right⟩, .move (.ofNat 1) ⟨0, 0⟩ ⟨0, 0⟩,
    .step (.ofNat 1) .right, .step (.ofNat 1) .right, .setKind (.ofNat 1) (.thing .keke),
    .remove (.ofNat 2), .remove (.ofNat 2)]

/-- On a row of two cells they leave one piece, and the board is valid. -/
theorem edited_busyEdits :
    (1 ≤ Position.greatest + 1 ∧ 2 ≤ Position.greatest + 1) ∧
      ((empty 1 2).accepted busyEdits).length = 6 ∧
      ((empty 1 2).edited busyEdits).ids = {.ofNat 1} ∧
      ((empty 1 2).edited busyEdits).validate = .ok () := by
  have hrows : 1 ≤ Position.greatest + 1 := by decide
  have hcols : 2 ≤ Position.greatest + 1 := by decide
  obtain ⟨-, ⟨-, hids⟩, -, hvalid⟩ := edited_in_order hrows hcols busyEdits
  refine ⟨⟨hrows, hcols⟩, by decide, ?_, (hvalid (by decide) (by decide) ?_).2⟩
  · rw [hids]
    decide
  · have hfresh : ∀ t ∈ (empty 1 2).attempted busyEdits, ∀ id ∈ t.2.placed?, id ∉ t.1.ids := by
      decide
    exact fun before x hx _ => hfresh _ hx x.id rfl

end Board

end WordTiles
