import WordTiles.Proofs.Board.Editing
import WordTiles.Proofs.Board.Restack

/-!
# What each operation does to a valid board

Moving a piece, stepping it, giving it another kind and taking it away: when each of them is
refused and why, and otherwise which stacks it leaves behind. All of them alter one piece only. The
other pieces keep their kinds, their cells and the order in which they lie, and what looking the
identity up finds afterwards is the piece as it was altered (`Board.Alters`).

The main statement is `Board.operations_exact`.
-/

set_option autoImplicit false

namespace WordTiles

namespace Stack

variable {s : Stack} {x : Piece} {id : PieceId} {f : Piece → Piece}

def without (s : Stack) (id : PieceId) : Stack := s.filter fun x => !(x.id == id)

/-- A stack in which the pieces of an identity are changed where they lie. -/
def changed (s : Stack) (id : PieceId) (f : Piece → Piece) : Stack :=
  s.map fun x => if x.id = id then f x else x

theorem without_without (s : Stack) (id : PieceId) : (s.without id).without id = s.without id := by
  rw [without, without, List.filter_filter]
  simp only [Bool.and_self]

theorem without_append_singleton (hid : x.id = id) : without (s ++ [x]) id = s.without id := by
  rw [without, List.filter_append, List.filter_cons_of_neg (by simp [hid]), List.filter_nil,
    List.append_nil, without]

theorem id_ne_of_mem_without (h : x ∈ s.without id) : x.id ≠ id := by
  simpa using (List.mem_filter.mp h).2

theorem changed_eq_self (h : ∀ x ∈ s, x.id ≠ id) : s.changed id f = s := by
  have hrest : ∀ x ∈ s, (if x.id = id then f x else x) = x := fun x hx => if_neg (h x hx)
  rw [changed, List.map_congr_left hrest, List.map_id']

/-- What is changed of one identity is nothing to the pieces of others. -/
theorem without_changed (hf : ∀ x, (f x).id = x.id) :
    (s.changed id f).without id = s.without id := by
  induction s with
  | nil => rfl
  | cons x rest ih =>
      rw [changed, List.map_cons, without, without]
      by_cases hid : x.id = id
      · rw [if_pos hid, List.filter_cons_of_neg (by simp [hf, hid]),
          List.filter_cons_of_neg (by simp [hid])]
        exact ih
      · rw [if_neg hid, List.filter_cons_of_pos (by simp [hid]),
          List.filter_cons_of_pos (by simp [hid])]
        exact congrArg (x :: ·) ih

end Stack

namespace Board

variable {b b' : Board} {p q source target : Position} {x : Piece} {id : PieceId} {d : Direction}

/-! ## One piece altered -/

/-- How an operation on the piece of one identity alters a board: which stacks it leaves behind,
and what looking the identity up finds then. The pieces of other identities are the same in every
cell, in the same order. -/
structure Alters (b b' : Board) (id : PieceId) (stackOf : Position → Stack)
    (found? : Option Piece) : Prop where
  rows_eq : b'.rows = b.rows
  cols_eq : b'.cols = b.cols
  sized : b'.Sized
  stackAt_eq : ∀ q, b'.stackAt q = stackOf q
  others_eq : ∀ q, (b'.stackAt q).without id = (b.stackAt q).without id
  find?_eq : b'.find? id = found?

/-- The stacks after the piece of an identity was taken out of a cell. -/
def taken (b : Board) (cell : Position) (id : PieceId) (q : Position) : Stack :=
  if q = cell then (b.stackAt q).without id else b.stackAt q

/-- The stacks after a piece was taken out of the cell `source` and put, as it is then, on top of
the cell `target`. -/
def carried (b : Board) (source target : Position) (x : Piece) (q : Position) : Stack :=
  b.taken source x.id q ++ if q = target then [x] else []

/-- The stacks after the piece of an identity was changed in its cell. -/
def retouched (b : Board) (cell : Position) (id : PieceId) (f : Piece → Piece) (q : Position) :
    Stack :=
  if q = cell then (b.stackAt q).changed id f else b.stackAt q

theorem without_taken (b : Board) (cell : Position) (id : PieceId) (q : Position) :
    Stack.without (b.taken cell id q) id = (b.stackAt q).without id := by
  rw [taken]
  split
  · exact Stack.without_without _ _
  · rfl

theorem without_carried (b : Board) (source target : Position) (x : Piece) (q : Position) :
    Stack.without (b.carried source target x q) x.id = (b.stackAt q).without x.id := by
  rw [carried]
  split
  · rw [Stack.without_append_singleton rfl, without_taken]
  · rw [List.append_nil, without_taken]

theorem without_retouched {f : Piece → Piece} (hf : ∀ x, (f x).id = x.id) (b : Board)
    (cell : Position) (id : PieceId) (q : Position) :
    Stack.without (b.retouched cell id f q) id = (b.stackAt q).without id := by
  rw [retouched]
  split
  · exact Stack.without_changed hf
  · rfl

/-- An operation that exchanges identities alters one piece if the stacks that it leaves behind hold
the same other pieces as before. -/
theorem Exchanges.alters {placed removed : Multiset PieceId} {stackOf : Position → Stack}
    {found? : Option Piece} (h : b.Exchanges b' placed removed)
    (hstacks : ∀ q, b'.stackAt q = stackOf q)
    (hothers : ∀ q, (stackOf q).without id = (b.stackAt q).without id)
    (hfound : b'.find? id = found?) : b.Alters b' id stackOf found? where
  rows_eq := h.rows_eq
  cols_eq := h.cols_eq
  sized := h.orderly.sized
  stackAt_eq := hstacks
  others_eq := fun q => (congrArg (Stack.without · id) (hstacks q)).trans (hothers q)
  find?_eq := hfound

namespace Valid

theorem of_exchanges (hb : b.Valid) (h : b.Exchanges b' 0 0) : b'.Valid := by
  apply h.valid hb.rows_pos hb.cols_pos hb.rows_le hb.cols_le
  have hids : b'.ids = b.ids := by simpa using h.ids_eq
  rw [hids]
  exact Multiset.coe_nodup.mpr hb.ids_nodup

/-- Once its identity is gone, a piece is not found any more. -/
theorem find?_eq_none_of_exchanges (hb : b.Valid) (h : b.Exchanges b' 0 {id}) :
    b'.find? id = none := by
  have hnodup : (({id} : Multiset PieceId) + b'.ids).Nodup := by
    rw [h.ids_eq, zero_add]
    exact Multiset.coe_nodup.mpr hb.ids_nodup
  rw [Multiset.singleton_add] at hnodup
  have hid : id ∉ b'.ids := (Multiset.nodup_cons.mp hnodup).1
  rw [Board.find?_eq, List.find?_eq_none]
  intro x hx hxid
  exact hid (Multiset.mem_coe.mpr (List.mem_map.mpr ⟨x, hx, eq_of_beq hxid⟩))

/-- The piece of an identity is in no other cell. -/
theorem id_ne_of_taken (hb : b.Valid) (hx : x ∈ b.stackAt p) {y : Piece}
    (hy : y ∈ b.taken p x.id q) : y.id ≠ x.id := by
  rw [taken] at hy
  split at hy
  · exact Stack.id_ne_of_mem_without hy
  next hq =>
    intro hid
    exact hq (hb.cell_eq_of_id_eq hy hx hid)

theorem stackAt_remove (hb : b.Valid) (hx : x ∈ b.stackAt p) (q : Position) :
    (b.modifyAt p (Stack.remove · x.id)).stackAt q = b.taken p x.id q := by
  rw [stackAt_modifyAt hb.sized, taken]
  simp only [inBounds_of_mem hx, and_true, eq_comm]
  split
  · exact Stack.remove_eq_filter (hb.nodup_stackAt q) _
  · rfl

/-! ## Moving -/

/-- A move from a cell in which the piece is to a cell of the board. -/
theorem move_alters (hb : b.Valid) (htarget : b.InBounds target) (hx : x ∈ b.stackAt source) :
    ∃ b', b.move x.id source target = .ok b' ∧
      b.Alters b' x.id (b.carried source target { x with position := target })
        (some { x with position := target }) := by
  have hsource : b.InBounds source := inBounds_of_mem hx
  have htaken := sized_modifyAt hb.sized source (Stack.remove · x.id)
  have hmove : b.move x.id source target =
      .ok ((b.modifyAt source (Stack.remove · x.id)).modifyAt target
        (· ++ [{ x with position := target }])) := by
    simp only [move, htarget, hsource, not_true_eq_false, if_false,
      Stack.find?_of_mem (hb.nodup_stackAt source) hx]
  have hexchanges := (hb.orderly.move hmove).1
  have hstacks : ∀ q, ((b.modifyAt source (Stack.remove · x.id)).modifyAt target
      (· ++ [{ x with position := target }])).stackAt q =
        b.carried source target { x with position := target } q := by
    intro q
    rw [stackAt_modifyAt htaken, hb.stackAt_remove hx, carried]
    simp only [inBounds_modifyAt, htarget, and_true, eq_comm]
    split
    · rfl
    · rw [List.append_nil]
  have hmem : { x with position := target } ∈ b.carried source target
      { x with position := target } target := by simp [carried]
  rw [← hstacks] at hmem
  exact ⟨_, hmove, hexchanges.alters hstacks (without_carried b source target _)
    ((hb.of_exchanges hexchanges).find?_eq hmem)⟩

/-! ## Changing a piece in its cell -/

theorem change_alters {f : Piece → Piece} (hb : b.Valid) (hx : x ∈ b.stackAt p)
    (hid : ∀ y, (f y).id = y.id) (hposition : ∀ y, (f y).position = y.position) :
    b.Alters (b.modifyAt p (Stack.update · x.id f)) x.id (b.retouched p x.id f) (some (f x)) := by
  have hp : b.InBounds p := inBounds_of_mem hx
  have hexchanges := hb.orderly.change hp x.id hid hposition
  have hstacks : ∀ q, (b.modifyAt p (Stack.update · x.id f)).stackAt q =
      b.retouched p x.id f q := by
    intro q
    rw [stackAt_modifyAt hb.sized, retouched, Stack.changed,
      ← Stack.update_eq_map (hb.nodup_stackAt q)]
    simp only [hp, and_true, eq_comm]
  have hmem : f x ∈ b.retouched p x.id f p := by
    rw [retouched, if_pos rfl]
    exact List.mem_map.mpr ⟨x, hx, if_pos rfl⟩
  rw [← hstacks] at hmem
  have hfound := (hb.of_exchanges hexchanges).find?_eq hmem
  rw [hid] at hfound
  exact hexchanges.alters hstacks (without_retouched hid b p x.id) hfound

theorem setKind_alters (hb : b.Valid) (hx : x ∈ b.pieces) (kind : Kind) :
    ∃ b', b.setKind x.id kind = .ok (b', x.kind) ∧
      b.Alters b' x.id (b.retouched x.position x.id ({ · with kind })) (some { x with kind }) := by
  have hstack := hb.mem_stackAt_of_mem_pieces hx
  refine ⟨_, ?_, hb.change_alters hstack (fun _ => rfl) fun _ => rfl⟩
  rw [setKind, hb.find?_eq hstack]
  simp only [Stack.find?_of_mem (hb.nodup_stackAt _) hstack]

/-! ## Stepping -/

/-- A step is the move to the next cell, after which the piece is turned in its new cell. -/
theorem step_alters (hb : b.Valid) (hx : x ∈ b.pieces) (hin : b.InBounds (x.position.step d)) :
    ∃ moved b', b.move x.id x.position (x.position.step d) = .ok moved ∧
      b.step x.id d = .ok (b', x.position.step d) ∧
      moved.Alters b' x.id (moved.retouched (x.position.step d) x.id ({ · with facing := d }))
        (some { x with position := x.position.step d, facing := d }) ∧
      b.Alters b' x.id
        (b.carried x.position (x.position.step d)
          { x with position := x.position.step d, facing := d })
        (some { x with position := x.position.step d, facing := d }) := by
  have hstack := hb.mem_stackAt_of_mem_pieces hx
  obtain ⟨moved, hmove, hmoved⟩ := hb.move_alters hin hstack
  have hvalid : moved.Valid := hb.of_exchanges (hb.orderly.move hmove).1
  have htop : { x with position := x.position.step d } ∈ moved.stackAt (x.position.step d) := by
    rw [hmoved.stackAt_eq]
    simp [carried]
  have hturned := hvalid.change_alters (f := ({ · with facing := d })) htop (fun _ => rfl)
    fun _ => rfl
  refine ⟨moved, _, hmove, ?_, hturned, ?_⟩
  · have htarget : x.position.wrappedStep d = x.position.step d :=
      (hb.sameCell_wrappedStep (inBounds_of_mem hstack)).eq hin
    rw [step, hb.find?_eq hstack]
    simp only [htarget, hmove]
    rfl
  refine ⟨hturned.rows_eq.trans hmoved.rows_eq, hturned.cols_eq.trans hmoved.cols_eq,
    hturned.sized, ?_, fun q => (hturned.others_eq q).trans (hmoved.others_eq q),
    hturned.find?_eq⟩
  intro q
  rw [hturned.stackAt_eq, retouched, hmoved.stackAt_eq, carried, carried]
  split
  -- in the new cell the piece lies on top of others
  · have hothers : ∀ y ∈ b.taken x.position x.id q, y.id ≠ x.id := fun y hy =>
      hb.id_ne_of_taken hstack hy
    rw [Stack.changed, List.map_append, List.map_singleton, if_pos rfl]
    exact congrArg (· ++ _) (Stack.changed_eq_self hothers)
  · rfl

/-! ## Taking away -/

theorem remove_alters (hb : b.Valid) (hx : x ∈ b.pieces) :
    ∃ b', b.remove x.id = .ok (b', x) ∧ b.Alters b' x.id (b.taken x.position x.id) none := by
  have hstack := hb.mem_stackAt_of_mem_pieces hx
  have hp : b.InBounds x.position := inBounds_of_mem hstack
  have hremove : b.remove x.id = .ok (b.modifyAt x.position (Stack.remove · x.id), x) := by
    rw [remove, hb.find?_eq hstack]
    simp only [hp, not_true_eq_false, if_false, Stack.find?_of_mem (hb.nodup_stackAt _) hstack]
  have hexchanges := hb.orderly.remove hremove
  exact ⟨_, hremove, hexchanges.alters (hb.stackAt_remove hstack) (without_taken b x.position x.id)
    (hb.find?_eq_none_of_exchanges hexchanges)⟩

end Valid

/-! ## What is granted and what is refused -/

/-- The answer to what an operation was asked to do: when it is granted, what has then been done,
and why it is refused otherwise. -/
structure Answers {α : Type} (answer : Except BoardError α) (granted : Prop) (done : α → Prop)
    (reason : BoardError → Prop) : Prop where
  granted_iff : (∃ a, answer = .ok a) ↔ granted
  done_of_ok : ∀ a, answer = .ok a → done a
  reason_of_error : ∀ e, answer = .error e → reason e

namespace Answers

variable {α : Type} {answer : Except BoardError α} {granted : Prop} {done : α → Prop}
  {reason : BoardError → Prop}

theorem of_ok {a : α} (h : answer = .ok a) (hgranted : granted) (hdone : done a) :
    Answers answer granted done reason where
  granted_iff := ⟨fun _ => hgranted, fun _ => ⟨a, h⟩⟩
  done_of_ok := by
    intro a' h'
    cases h.symm.trans h'
    exact hdone
  reason_of_error := by
    intro e h'
    cases h.symm.trans h'

theorem of_error {e : BoardError} (h : answer = .error e) (hgranted : ¬ granted)
    (hreason : reason e) : Answers answer granted done reason where
  granted_iff := by
    refine ⟨?_, fun hg => absurd hg hgranted⟩
    rintro ⟨a, h'⟩
    cases h.symm.trans h'
  done_of_ok := by
    intro a h'
    cases h.symm.trans h'
  reason_of_error := by
    intro e' h'
    cases h.symm.trans h'
    exact hreason

end Answers

/-- What moving a piece is to do: it is put on top of the cell `target`, which may be its own. -/
def MovesExactly (b : Board) (id : PieceId) (source target : Position) : Prop :=
  Answers (b.move id source target)
    (b.InBounds target ∧ b.InBounds source ∧ ∃ x ∈ b.stackAt source, x.id = id)
    (fun b' => ∃ x ∈ b.stackAt source, x.id = id ∧
      b.Alters b' id (b.carried source target { x with position := target })
        (some { x with position := target }))
    (fun e => e = if ¬ b.InBounds target then .outOfBounds target
      else if ¬ b.InBounds source then .outOfBounds source else .pieceNotFound id)

/-- What a step is to do: it moves the piece to the next cell and turns it. If it is refused for its
target, coordinates of 32 bits name it; they name the next position if they can hold it. -/
def StepsExactly (b : Board) (id : PieceId) (d : Direction) : Prop :=
  Answers (b.step id d) (∃ x ∈ b.pieces, x.id = id ∧ b.InBounds (x.position.step d))
    (fun (b', target) => ∃ x ∈ b.pieces, x.id = id ∧ target = x.position.step d ∧
      b.Alters b' id (b.carried x.position target { x with position := target, facing := d })
        (some { x with position := target, facing := d }) ∧
      ∃ moved, b.move id x.position target = .ok moved ∧
        moved.Alters b' id (moved.retouched target id ({ · with facing := d }))
          (some { x with position := target, facing := d }))
    (fun e => (∀ x ∈ b.pieces, x.id ≠ id) ∧ e = .pieceNotFound id ∨
      ∃ x ∈ b.pieces, x.id = id ∧ e = .outOfBounds (x.position.wrappedStep d) ∧
        ((x.position.step d).Representable → e = .outOfBounds (x.position.step d)))

/-- What giving a piece another kind is to do. The old kind is the answer. -/
def SetsKindExactly (b : Board) (id : PieceId) (kind : Kind) : Prop :=
  Answers (b.setKind id kind) (∃ x ∈ b.pieces, x.id = id)
    (fun (b', old) => ∃ x ∈ b.pieces, x.id = id ∧ old = x.kind ∧
      b.Alters b' id (b.retouched x.position id ({ · with kind })) (some { x with kind }))
    (· = .pieceNotFound id)

/-- What taking a piece away is to do. The piece is the answer. -/
def RemovesExactly (b : Board) (id : PieceId) : Prop :=
  Answers (b.remove id) (∃ x ∈ b.pieces, x.id = id)
    (fun (b', removed) => removed ∈ b.pieces ∧ removed.id = id ∧
      b.Alters b' id (b.taken removed.position id) none)
    (· = .pieceNotFound id)

theorem find?_eq_none_of_absent (h : ¬ ∃ x ∈ b.pieces, x.id = id) : b.find? id = none := by
  rw [find?_eq, List.find?_eq_none]
  intro x hx hid
  exact h ⟨x, hx, eq_of_beq hid⟩

namespace Valid

theorem movesExactly (hb : b.Valid) (id : PieceId) (source target : Position) :
    b.MovesExactly id source target := by
  by_cases htarget : ¬ b.InBounds target
  · exact .of_error (by rw [move, if_pos htarget]) (fun h => htarget h.1) (if_pos htarget).symm
  by_cases hsource : ¬ b.InBounds source
  · apply Answers.of_error (e := .outOfBounds source)
    · rw [move, if_neg htarget, if_pos hsource]
    · exact fun h => hsource h.2.1
    · rw [if_neg htarget, if_pos hsource]
  by_cases hmem : ∃ x ∈ b.stackAt source, x.id = id
  · obtain ⟨x, hx, rfl⟩ := hmem
    obtain ⟨b', hmove, halters⟩ := hb.move_alters (not_not.mp htarget) hx
    exact .of_ok hmove ⟨not_not.mp htarget, not_not.mp hsource, x, hx, rfl⟩ ⟨x, hx, rfl, halters⟩
  · have hnone : (b.stackAt source).find? id = none := by
      rw [Stack.find?, List.find?_eq_none]
      intro x hx hid
      exact hmem ⟨x, hx, eq_of_beq hid⟩
    apply Answers.of_error (e := .pieceNotFound id)
    · rw [move, if_neg htarget, if_neg hsource, hnone]
    · exact fun h => hmem h.2.2
    · rw [if_neg htarget, if_neg hsource]

theorem stepsExactly (hb : b.Valid) (id : PieceId) (d : Direction) : b.StepsExactly id d := by
  by_cases hmem : ∃ x ∈ b.pieces, x.id = id
  · obtain ⟨x, hx, rfl⟩ := hmem
    by_cases hin : b.InBounds (x.position.step d)
    · obtain ⟨moved, b', hmove, hstep, hturned, halters⟩ := hb.step_alters hx hin
      exact .of_ok hstep ⟨x, hx, rfl, hin⟩ ⟨x, hx, rfl, rfl, halters, moved, hmove, hturned⟩
    · have hstack := hb.mem_stackAt_of_mem_pieces hx
      have hout : ¬ b.InBounds (x.position.wrappedStep d) := fun hwrapped =>
        hin ((hb.sameCell_wrappedStep (inBounds_of_mem hstack)).inBounds_iff.mp hwrapped)
      apply Answers.of_error (e := .outOfBounds (x.position.wrappedStep d))
      · rw [step, hb.find?_eq hstack]
        simp only [move, if_pos hout]
        rfl
      · rintro ⟨y, hy, hid, hyin⟩
        obtain rfl := hb.eq_of_id_eq (hb.mem_stackAt_of_mem_pieces hy) hstack hid
        exact hin hyin
      · refine .inr ⟨x, hx, rfl, rfl, fun hstep => ?_⟩
        rw [Position.wrappedStep_eq hstep]
  · apply Answers.of_error (e := .pieceNotFound id)
    · rw [step, find?_eq_none_of_absent hmem]
    · rintro ⟨x, hx, hid, -⟩
      exact hmem ⟨x, hx, hid⟩
    · exact .inl ⟨fun x hx hid => hmem ⟨x, hx, hid⟩, rfl⟩

theorem setsKindExactly (hb : b.Valid) (id : PieceId) (kind : Kind) :
    b.SetsKindExactly id kind := by
  by_cases hmem : ∃ x ∈ b.pieces, x.id = id
  · obtain ⟨x, hx, rfl⟩ := hmem
    obtain ⟨b', hset, halters⟩ := hb.setKind_alters hx kind
    exact .of_ok hset ⟨x, hx, rfl⟩ ⟨x, hx, rfl, rfl, halters⟩
  · exact .of_error (by rw [setKind, find?_eq_none_of_absent hmem]) hmem rfl

theorem removesExactly (hb : b.Valid) (id : PieceId) : b.RemovesExactly id := by
  by_cases hmem : ∃ x ∈ b.pieces, x.id = id
  · obtain ⟨x, hx, rfl⟩ := hmem
    obtain ⟨b', hremove, halters⟩ := hb.remove_alters hx
    exact .of_ok hremove ⟨x, hx, rfl⟩ ⟨hx, rfl, halters⟩
  · exact .of_error (by rw [remove, find?_eq_none_of_absent hmem]) hmem rfl

end Valid

/-- **Every operation does its job and nothing else.** On a valid board each operation is granted
exactly when the piece and the cells that it names are there. Then it alters this one piece as it is
asked to, and otherwise it is refused for the first thing that is wrong. -/
theorem operations_exact (h : b.validate = .ok ()) :
    (∀ id source target, b.MovesExactly id source target) ∧
      (∀ id d, b.StepsExactly id d) ∧
      (∀ id kind, b.SetsKindExactly id kind) ∧
      ∀ id, b.RemovesExactly id := by
  have hb := validate_eq_ok_iff.mp h
  exact ⟨hb.movesExactly, hb.stepsExactly, hb.setsKindExactly, hb.removesExactly⟩

/-- Two pieces in one cell, and a cell beside it. -/
def sharedCell : Board :=
  ⟨1, 2, #[[⟨.ofNat 1, .thing .baba, ⟨0, 0⟩, .right⟩, ⟨.ofNat 2, .tile "IS", ⟨0, 0⟩, .up⟩], []]⟩

/-- The lower one of them, moved to the cell where it is, comes to lie on top. -/
theorem move_sharedCell :
    sharedCell.validate = .ok () ∧ ∃ b', sharedCell.move (.ofNat 1) ⟨0, 0⟩ ⟨0, 0⟩ = .ok b' ∧
      b'.stackAt ⟨0, 0⟩ =
        [⟨.ofNat 2, .tile "IS", ⟨0, 0⟩, .up⟩, ⟨.ofNat 1, .thing .baba, ⟨0, 0⟩, .right⟩] := by
  have hvalid : sharedCell.validate = .ok () := by decide
  have hmoves := (operations_exact hvalid).1 (.ofNat 1) ⟨0, 0⟩ ⟨0, 0⟩
  obtain ⟨b', hb'⟩ := hmoves.granted_iff.mpr (by decide)
  obtain ⟨x, hx, hid, halters⟩ := hmoves.done_of_ok b' hb'
  have hbaba : ∀ x ∈ sharedCell.stackAt ⟨0, 0⟩, x.id = .ofNat 1 →
      x = ⟨.ofNat 1, .thing .baba, ⟨0, 0⟩, .right⟩ := by decide
  obtain rfl := hbaba x hx hid
  refine ⟨hvalid, b', hb', ?_⟩
  rw [halters.stackAt_eq]
  decide

end Board

end WordTiles
