import Mathlib.Data.List.Induction
import WordTiles.Proofs.Board.InPlace
import WordTiles.Proofs.Move.Resolution

/-!
# Carrying out a plan on another board

Between the making of a plan and its execution the board may have changed, so that a mover is gone
or stands at the edge. Each mover then steps from where it stands now (`Board.carry`). Movers do not
get in each other's way: whether one of them can step, and where it goes, does not depend on those
that have stepped before (`Board.Valid.hindrance?_carry`), though the order of the steps decides in
which order pieces lie on top of each other afterwards. So a plan succeeds when none of its movers
is hindered, and otherwise the first one that is hindered says why it fails
(`Board.Valid.foldlM_step_carry`).

The steps are made on a copy of the board, which takes the place of the board only when all of them
have succeeded (`InPlace.commit`).
-/

set_option autoImplicit false

namespace WordTiles

namespace Board

variable {b : Board} {d : Direction} {id : PieceId} {ids : List PieceId} {x y : Piece}
  {p q : Position} {e : BoardError}

/-! ## What hinders a step -/

/-- Why a piece cannot step, if there is a reason: it is not there, or there is no cell ahead. The
position ahead is named in coordinates of 32 bits. -/
def hindrance? (b : Board) (d : Direction) (id : PieceId) : Option BoardError :=
  match b.find? id with
  | none => some (.pieceNotFound id)
  | some x =>
    if b.InBounds (x.position.step d) then none
    else some (.outOfBounds (x.position.wrappedStep d))

theorem hindrance?_eq_none_iff :
    b.hindrance? d id = none ↔ ∃ x, b.find? id = some x ∧ b.InBounds (x.position.step d) := by
  unfold hindrance?
  cases b.find? id with
  | none => simp
  | some x => simp

theorem hindrance?_eq_some_iff :
    b.hindrance? d id = some e ↔
      (b.find? id = none ∧ e = .pieceNotFound id) ∨
        ∃ x, b.find? id = some x ∧ ¬ b.InBounds (x.position.step d) ∧
          e = .outOfBounds (x.position.wrappedStep d) := by
  unfold hindrance?
  cases b.find? id with
  | none => simp [eq_comm]
  | some x =>
      by_cases hin : b.InBounds (x.position.step d)
      · simp [hin]
      · simp [hin, eq_comm]

theorem Valid.step_eq_error (hb : b.Valid) (h : b.hindrance? d id = some e) :
    b.step id d = .error e := by
  unfold step
  rcases hindrance?_eq_some_iff.mp h with ⟨hnone, rfl⟩ | ⟨x, hx, hout, rfl⟩
  · rw [hnone]
  · have hstack := hb.mem_stackAt_of_mem_pieces (mem_pieces_of_find? hx)
    have hcell := hb.sameCell_wrappedStep (d := d) (inBounds_of_mem hstack)
    rw [hx]
    simp only [move, hcell.inBounds_iff, hout, not_false_eq_true, if_true]
    rfl

/-! ## Pieces carried on -/

/-- The pieces that come to a cell when those with the given identities step, in that order. -/
def arrivals (b : Board) (d : Direction) (ids : List PieceId) (q : Position) : Stack :=
  ((ids.filterMap b.find?).filter fun x => x.position.step d = q).map (·.arrive q d)

/-- The board after the steps of the pieces with the given identities, one after the other: a
stack keeps what stays and gets on top what comes, in the order in which it comes. -/
def carry (b : Board) (d : Direction) (ids : List PieceId) : Board :=
  b.restack fun q =>
    (b.stackAt q).filter (fun x => !ids.contains x.id) ++ b.arrivals d ids q

theorem mem_arrivals_iff :
    y ∈ b.arrivals d ids q ↔
      ∃ id ∈ ids, ∃ x, b.find? id = some x ∧ x.position.step d = q ∧ x.arrive q d = y := by
  simp only [arrivals, List.mem_map, List.mem_filter, List.mem_filterMap, decide_eq_true_eq]
  constructor
  · rintro ⟨x, ⟨⟨id, hid, hx⟩, hq⟩, rfl⟩
    exact ⟨id, hid, x, hx, hq, rfl⟩
  · rintro ⟨id, hid, x, hx, hq, rfl⟩
    exact ⟨x, ⟨⟨id, hid, hx⟩, hq⟩, rfl⟩

/-- What comes to a cell is among what was to step. -/
theorem id_mem_of_mem_arrivals (h : y ∈ b.arrivals d ids q) : y.id ∈ ids := by
  obtain ⟨id, hid, x, hx, -, rfl⟩ := mem_arrivals_iff.mp h
  have hxid : x.id = id := id_eq_of_find? hx
  show x.id ∈ ids
  rw [hxid]
  exact hid

theorem mem_stackAt_carry (hb : b.Sized) :
    y ∈ (b.carry d ids).stackAt q ↔ b.InBounds q ∧
      ((y ∈ b.stackAt q ∧ y.id ∉ ids) ∨ y ∈ b.arrivals d ids q) := by
  rw [carry, mem_stackAt_restack hb]
  simp only [List.mem_append, List.mem_filter, Bool.not_eq_true', List.contains_eq_mem,
    decide_eq_false_iff_not]

theorem carry_nil (hb : b.Sized) (d : Direction) : b.carry d [] = b := by
  symm
  apply eq_restack hb hb rfl rfl
  intro q _
  simp [arrivals]

/-- One piece more comes on top of those that have come before. -/
theorem arrivals_concat (hx : b.find? id = some x) (q : Position) :
    b.arrivals d (ids ++ [id]) q =
      b.arrivals d ids q ++ if x.position.step d = q then [x.arrive q d] else [] := by
  unfold arrivals
  rw [List.filterMap_append, List.filter_append, List.map_append]
  by_cases hq : x.position.step d = q <;> simp [hx, hq]

/-- What stays, stays as it was and where it was. -/
theorem filter_stackAt_carry (hb : b.Sized) (d : Direction) (ids : List PieceId) (q : Position) :
    ((b.carry d ids).stackAt q).filter (fun x => !ids.contains x.id) =
      (b.stackAt q).filter fun x => !ids.contains x.id := by
  by_cases hq : b.InBounds q
  · have hnone : (b.arrivals d ids q).filter (fun x => !ids.contains x.id) = [] := by
      apply List.filter_eq_nil_iff.mpr
      intro y hy
      simp [id_mem_of_mem_arrivals hy]
    rw [carry, stackAt_restack hb hq, List.filter_append, hnone, List.append_nil,
      List.filter_filter]
    simp
  · have hq' : ¬ (b.carry d ids).InBounds q := hq
    rw [stackAt_of_not_inBounds hq, stackAt_of_not_inBounds hq']

namespace Valid

theorem mem_pieces_carry (hb : b.Valid) (hx : x ∈ b.pieces) (hnew : x.id ∉ ids) :
    x ∈ (b.carry d ids).pieces := by
  have hstack := hb.mem_stackAt_of_mem_pieces hx
  have hsized : (b.carry d ids).Sized := sized_restack hb.sized _
  exact (mem_pieces_iff hsized).mpr ⟨x.position, (mem_stackAt_carry hb.sized).mpr
    ⟨inBounds_of_mem hstack, .inl ⟨hstack, hnew⟩⟩⟩

/-- The step of one piece more is the shift of that piece. -/
theorem carry_concat (hb : b.Valid) (hc : (b.carry d ids).Valid) (hx : b.find? id = some x)
    (hnew : id ∉ ids) : b.carry d (ids ++ [id]) = (b.carry d ids).shift d (· == id) := by
  obtain rfl := id_eq_of_find? hx
  have hmem := hb.mem_pieces_carry (d := d) (mem_pieces_of_find? hx) hnew
  symm
  apply eq_restack hb.sized (hc.shift d _).sized rfl rfl
  intro q hq
  -- the pieces that have come have other identities, so they stay
  have hcome : (b.arrivals d ids q).filter (fun y => !(y.id == x.id)) = b.arrivals d ids q := by
    apply Stack.filter_id_ne_eq_self
    intro y hy hid
    exact hnew (hid ▸ id_mem_of_mem_arrivals hy)
  have hback : x.position = q.step d.reverse ↔ x.position.step d = q := by
    rw [eq_comm, Position.step_reverse_eq_iff]
  rw [stackAt_shift hc.sized hq, hc.filter_id_eq hmem, arrivals_concat hx, carry,
    stackAt_restack hb.sized hq, List.filter_append, hcome, List.filter_filter, List.append_assoc]
  congr 1
  · apply List.filter_congr
    intro y _
    by_cases hy : y.id = x.id <;> simp [hy]
  · simp only [hback]
    split <;> rfl

/-- Steps of different pieces, none of which is hindered, keep a board valid. -/
theorem carry (hb : b.Valid) (hnodup : ids.Nodup)
    (hfree : ∀ id ∈ ids, b.hindrance? d id = none) : (b.carry d ids).Valid := by
  induction ids using List.reverseRecOn with
  | nil =>
      rw [carry_nil hb.sized]
      exact hb
  | append_singleton ids id ih =>
      have hnew : id ∉ ids := fun h =>
        (List.nodup_append'.mp hnodup).2.2 h (List.mem_singleton_self id)
      have hc := ih (List.nodup_append'.mp hnodup).1 fun i hi =>
        hfree i (List.mem_append_left _ hi)
      obtain ⟨x, hx, -⟩ := hindrance?_eq_none_iff.mp
        (hfree id (List.mem_append_right _ (List.mem_singleton_self id)))
      rw [hb.carry_concat hc hx hnew]
      exact hc.shift d _

/-- A piece that has not stepped is found as it was. -/
theorem find?_carry_of_not_mem (hb : b.Valid) (hc : (b.carry d ids).Valid) (hnew : id ∉ ids) :
    (b.carry d ids).find? id = b.find? id := by
  cases hx : b.find? id with
  | some x =>
      obtain rfl := id_eq_of_find? hx
      have hmem := hb.mem_pieces_carry (d := d) (mem_pieces_of_find? hx) hnew
      exact hc.find?_eq (hc.mem_stackAt_of_mem_pieces hmem)
  | none =>
      rw [Board.find?_eq, List.find?_eq_none]
      intro y hy
      obtain ⟨q, hq⟩ := (mem_pieces_iff hc.sized).mp hy
      obtain ⟨-, ⟨hstay, -⟩ | hcome⟩ := (mem_stackAt_carry hb.sized).mp hq
      · have hmem := (mem_pieces_iff hb.sized).mpr ⟨q, hstay⟩
        simpa using id_ne_of_find?_eq_none hx hmem
      · have hne : y.id ≠ id := fun hid => hnew (hid ▸ id_mem_of_mem_arrivals hcome)
        simpa using hne

/-- A piece that has stepped is found one cell further. -/
theorem find?_carry_of_mem (hc : (b.carry d ids).Valid) (hb : b.Sized) (hid : id ∈ ids)
    (hx : b.find? id = some x) (hin : b.InBounds (x.position.step d)) :
    (b.carry d ids).find? id = some (x.arrive (x.position.step d) d) := by
  have hcome : x.arrive (x.position.step d) d ∈ b.arrivals d ids (x.position.step d) :=
    mem_arrivals_iff.mpr ⟨id, hid, x, hx, rfl, rfl⟩
  have hfind := hc.find?_eq ((mem_stackAt_carry hb).mpr ⟨hin, .inr hcome⟩)
  obtain rfl := id_eq_of_find? hx
  exact hfind

/-- What hinders a piece does not depend on the pieces that have stepped before. -/
theorem hindrance?_carry (hb : b.Valid) (hc : (b.carry d ids).Valid) (hnew : id ∉ ids) :
    (b.carry d ids).hindrance? d id = b.hindrance? d id := by
  unfold hindrance?
  rw [hb.find?_carry_of_not_mem hc hnew]
  rfl

end Valid

/-! ## Movers one after the other -/

/-- The step of a mover to the cell ahead of where its piece stands on a board. -/
def stepNow? (b : Board) (d : Direction) (m : Mover) : Option Step :=
  (b.find? m.piece).map fun x => ⟨m.piece, m.kind, m.position, x.position.step d⟩

/-- Movers of different pieces step one after the other until one of them is hindered, which is
hindered by the board they started from. -/
theorem Valid.foldlM_step_carry (hb : b.Valid) (ms : List Mover) (steps : List Step)
    (hnodup : (ids ++ ms.map (·.piece)).Nodup) (hfree : ∀ id ∈ ids, b.hindrance? d id = none) :
    ms.foldlM (Mover.step d) (b.carry d ids, steps) =
      match ms.findSome? fun m => b.hindrance? d m.piece with
      | some e => .error e
      | none =>
        .ok (b.carry d (ids ++ ms.map (·.piece)), steps ++ ms.filterMap (b.stepNow? d)) := by
  -- `ids` takes in every mover that has stepped; what hinders is asked of `b` all the time
  induction ms generalizing ids steps with
  | nil =>
      simp only [List.findSome?_nil, List.map_nil, List.filterMap_nil, List.append_nil]
      rfl
  | cons m rest ih =>
      have hc : (b.carry d ids).Valid := hb.carry (List.nodup_append'.mp hnodup).1 hfree
      have hnew : m.piece ∉ ids := fun h =>
        (List.nodup_append'.mp hnodup).2.2 h (by simp)
      rw [List.foldlM_cons, List.findSome?_cons]
      cases hm : b.hindrance? d m.piece with
      | some e =>
          have herror := hc.step_eq_error ((hb.hindrance?_carry hc hnew).trans hm)
          rw [Mover.step, herror]
          rfl
      | none =>
          obtain ⟨x, hx, hin⟩ := hindrance?_eq_none_iff.mp hm
          have hid := id_eq_of_find? hx
          have hmem := hb.mem_pieces_carry (d := d) (mem_pieces_of_find? hx) (hid ▸ hnew)
          have hstep := hc.step_eq hmem hin
          rw [hid, ← hb.carry_concat hc hx hnew] at hstep
          have hnow : b.stepNow? d m =
              some ⟨m.piece, m.kind, m.position, x.position.step d⟩ := by rw [stepNow?, hx]; rfl
          have hnext : Mover.step d (b.carry d ids, steps) m =
              .ok (b.carry d (ids ++ [m.piece]),
                steps ++ [⟨m.piece, m.kind, m.position, x.position.step d⟩]) := by
            rw [Mover.step, hstep]
            rfl
          rw [hnext]
          show List.foldlM (Mover.step d) _ rest = _
          rw [ih]
          · simp only [List.map_cons, List.append_assoc, List.singleton_append,
              List.filterMap_cons_some hnow]
          · simpa using hnodup
          · intro i hi
            rcases List.mem_append.mp hi with hi | hi
            · exact hfree i hi
            · rw [List.mem_singleton.mp hi]
              exact hm

/-- A plan for different pieces is carried out unless one of its movers is hindered; if so, the
first one is reported. -/
theorem Valid.commit_carry (hb : b.Valid) {plan : MovePlan} (hdirection : plan.direction = some d)
    (hnodup : (plan.movers.map (·.piece)).Nodup) :
    b.commit plan =
      match (Mover.inOrder d plan.movers).findSome? fun m => b.hindrance? d m.piece with
      | some e => .error e
      | none => .ok (b.carry d ((Mover.inOrder d plan.movers).map (·.piece)),
          (Mover.inOrder d plan.movers).filterMap (b.stepNow? d)) := by
  have hnodup' : ([] ++ (Mover.inOrder d plan.movers).map Mover.piece).Nodup :=
    ((Mover.inOrder_perm d plan.movers).map _).nodup_iff.mpr hnodup
  have hfold := hb.foldlM_step_carry (d := d) (Mover.inOrder d plan.movers) [] hnodup'
    fun _ h => absurd h List.not_mem_nil
  rw [carry_nil hb.sized, List.nil_append, List.nil_append] at hfold
  rw [commit, hdirection]
  exact hfold

/-- A plan for different pieces succeeds when none of its movers is hindered. -/
theorem Valid.commit_eq_ok_iff (hb : b.Valid) {plan : MovePlan}
    (hdirection : plan.direction = some d) (hnodup : (plan.movers.map (·.piece)).Nodup)
    {r : Board × List Step} :
    b.commit plan = .ok r ↔ (∀ m ∈ plan.movers, b.hindrance? d m.piece = none) ∧
      r = (b.carry d ((Mover.inOrder d plan.movers).map (·.piece)),
        (Mover.inOrder d plan.movers).filterMap (b.stepNow? d)) := by
  have hall : ((Mover.inOrder d plan.movers).findSome? fun m => b.hindrance? d m.piece) = none ↔
      ∀ m ∈ plan.movers, b.hindrance? d m.piece = none := by
    simp only [List.findSome?_eq_none_iff, (Mover.inOrder_perm d plan.movers).mem_iff]
  rw [hb.commit_carry hdirection hnodup, ← hall]
  cases (Mover.inOrder d plan.movers).findSome? fun m => b.hindrance? d m.piece with
  | none => simp [eq_comm]
  | some e => simp

/-- A plan for different pieces fails for what hinders the first mover that is hindered. -/
theorem Valid.commit_eq_error_iff (hb : b.Valid) {plan : MovePlan}
    (hdirection : plan.direction = some d) (hnodup : (plan.movers.map (·.piece)).Nodup) :
    b.commit plan = .error e ↔
      ∃ before m after, Mover.inOrder d plan.movers = before ++ m :: after ∧
        b.hindrance? d m.piece = some e ∧ ∀ m' ∈ before, b.hindrance? d m'.piece = none := by
  rw [hb.commit_carry hdirection hnodup, ← List.findSome?_eq_some_iff]
  cases (Mover.inOrder d plan.movers).findSome? fun m => b.hindrance? d m.piece with
  | none => simp
  | some e => simp

/-- The movers of a plan, in the order in which they step, are those that the plan moves. -/
theorem contains_inOrder_eq (d : Direction) (plan : MovePlan) (id : PieceId) :
    ((Mover.inOrder d plan.movers).map (·.piece)).contains id = plan.moves id := by
  rw [MovePlan.moves, Bool.eq_iff_iff, List.contains_iff_mem, List.any_eq_true]
  simp only [List.mem_map, (Mover.inOrder_perm d plan.movers).mem_iff, beq_iff_eq]

/-- A plan for different pieces that succeeds has taken every mover one cell on, and left all other
pieces as they were. -/
theorem Valid.of_commit_eq_ok {plan : MovePlan} {b' : Board} {steps : List Step} (hb : b.Valid)
    (hdirection : plan.direction = some d) (hnodup : (plan.movers.map (·.piece)).Nodup)
    (hok : b.commit plan = .ok (b', steps)) :
    b'.Valid ∧ b'.rows = b.rows ∧ b'.cols = b.cols ∧
      (∀ id, plan.moves id = true → ∃ x, b.find? id = some x ∧
        b'.find? id = some (x.arrive (x.position.step d) d)) ∧
      ∀ q, (b'.stackAt q).filter (fun x => !plan.moves x.id) =
        (b.stackAt q).filter fun x => !plan.moves x.id := by
  have hperm := Mover.inOrder_perm d plan.movers
  obtain ⟨hfree, hr⟩ := (hb.commit_eq_ok_iff hdirection hnodup).mp hok
  obtain ⟨rfl, -⟩ := Prod.mk.inj hr
  have hc : (b.carry d ((Mover.inOrder d plan.movers).map (·.piece))).Valid := by
    apply hb.carry ((hperm.map _).nodup_iff.mpr hnodup)
    intro id hid
    obtain ⟨m, hm, rfl⟩ := List.mem_map.mp hid
    exact hfree m (hperm.mem_iff.mp hm)
  refine ⟨hc, rfl, rfl, ?_, ?_⟩
  · intro id hid
    obtain ⟨m, hm, hpiece⟩ := List.any_eq_true.mp hid
    obtain rfl := eq_of_beq hpiece
    obtain ⟨x, hx, hin⟩ := hindrance?_eq_none_iff.mp (hfree m hm)
    exact ⟨x, hx, hc.find?_carry_of_mem hb.sized
      (List.mem_map_of_mem (hperm.mem_iff.mpr hm)) hx hin⟩
  · intro q
    have hfilter := filter_stackAt_carry hb.sized d ((Mover.inOrder d plan.movers).map (·.piece)) q
    simp only [contains_inOrder_eq] at hfilter
    exact hfilter

end Board

/-! ## Steps on a copy -/

namespace InPlace

variable {b : Board} {d : Direction}

def makeStep (d : Direction) (steps : List Step) (m : Mover) : InPlace (List Step) := do
  let target ← step m.piece d
  return steps ++ [⟨m.piece, m.kind, m.position, target⟩]

/-- Carries out a plan. The steps are made on a copy of the board, which takes its place once all
of them have succeeded. -/
def commit (plan : MovePlan) : InPlace (List Step) := do
  match plan.direction with
  | none => return []
  | some d =>
    match ((Mover.inOrder d plan.movers).foldlM (makeStep d) []).run (← get) with
    | .ok steps staged =>
      set staged
      return steps
    | .error e _ => throw e

theorem run_makeStep (b : Board) (steps : List Step) (m : Mover) :
    (makeStep d steps m).run b = settle b (Mover.step d (b, steps) m) := by
  have hstep := run_step b m.piece d
  rw [Mover.step]
  cases h : b.step m.piece d with
  | error e =>
      rw [h] at hstep
      exact run_bind_error hstep
  | ok r =>
      rw [h] at hstep
      exact run_bind_ok hstep

/-- The copy ends as the board that the steps as values give. What is left of it after a refusal
is not said. -/
theorem run_foldlM_makeStep (b : Board) (steps : List Step) (ms : List Mover) :
    match ms.foldlM (Mover.step d) (b, steps) with
    | .ok (b', steps') => (ms.foldlM (makeStep d) steps).run b = .ok steps' b'
    | .error e => ∃ left, (ms.foldlM (makeStep d) steps).run b = .error e left := by
  induction ms generalizing b steps with
  | nil => rfl
  | cons m rest ih =>
      have hmake := run_makeStep (d := d) b steps m
      rw [List.foldlM_cons, List.foldlM_cons]
      cases h : Mover.step d (b, steps) m with
      | error e =>
          rw [h] at hmake
          exact ⟨b, run_bind_error hmake⟩
      | ok r =>
          rw [h] at hmake
          have hrest := ih r.1 r.2
          rw [run_bind_ok hmake]
          exact hrest

theorem run_commit (b : Board) (plan : MovePlan) :
    (commit plan).run b = settle b (b.commit plan) := by
  rw [commit, Board.commit]
  cases plan.direction with
  | none => rfl
  | some d =>
      have hsteps := run_foldlM_makeStep (d := d) b [] (Mover.inOrder d plan.movers)
      simp only [run_get_bind]
      cases h : (Mover.inOrder d plan.movers).foldlM (Mover.step d) (b, []) with
      | error e =>
          rw [h] at hsteps
          obtain ⟨left, hleft⟩ := hsteps
          rw [hleft]
          rfl
      | ok r =>
          rw [h] at hsteps
          rw [hsteps]
          rfl

end InPlace

namespace Board

/-! ## All or nothing

The results are tried with the plan that is made for two rows of pushing, of which only the pieces
of the upper row move. Of the boards on which it is carried out, one has the movers somewhere else,
in another order and in part of another kind; on the other one two of them are hindered. -/

/-- The pieces of the upper row in other places, one of them a wall by now. -/
def shuffledRows : Board :=
  ⟨2, 4, #[
    [⟨.ofNat 3, .thing .baba, ⟨0, 0⟩, .left⟩],
    [⟨.ofNat 5, .thing .flag, ⟨0, 1⟩, .up⟩, ⟨.ofNat 1, .thing .baba, ⟨0, 1⟩, .down⟩],
    [], [],
    [⟨.ofNat 4, .thing .rock, ⟨1, 0⟩, .right⟩],
    [⟨.ofNat 2, .thing .wall, ⟨1, 1⟩, .right⟩],
    [], []]⟩

/-- One piece of the upper row is gone, and another one stands at the edge. -/
def edgeRow : Board :=
  ⟨1, 4, #[
    [⟨.ofNat 2, .thing .rock, ⟨0, 0⟩, .right⟩],
    [⟨.ofNat 3, .thing .baba, ⟨0, 1⟩, .right⟩],
    [],
    [⟨.ofNat 4, .thing .rock, ⟨0, 3⟩, .right⟩]]⟩

/-- **A plan is carried out as a whole or not at all**, also on another board than the one it was
made for. It succeeds exactly when every mover is there and has a cell ahead. Then every mover has
gone one cell from where it stood and faces the way it went, and all other pieces stay as they
were, each in its cell and in the same order. Otherwise the first mover in the order of the steps
that is not there, or has no cell ahead, says why; and carried out in place, the plan leaves the
board as it was. The position ahead is reported in coordinates of 32 bits. -/
theorem commit_all_or_nothing {b : Board} (hb : b.validate = .ok ()) (origin : Board)
    (t : CapabilityTable) (d : Direction) (limit : Nat) :
    let plan := origin.plan t d limit
    ((∃ b' steps, b.commit plan = .ok (b', steps)) ↔
        ∀ m ∈ plan.movers, ∃ x, b.find? m.piece = some x ∧ b.InBounds (x.position.step d)) ∧
      (∀ b' steps, b.commit plan = .ok (b', steps) →
        (InPlace.commit plan).run b = .ok steps b' ∧
          b'.validate = .ok () ∧ b'.rows = b.rows ∧ b'.cols = b.cols ∧
          (∀ id, plan.moves id = true → ∃ x, b.find? id = some x ∧
            b'.find? id = some { x with position := x.position.step d, facing := d }) ∧
          ∀ q, (b'.stackAt q).filter (fun x => !plan.moves x.id) =
            (b.stackAt q).filter fun x => !plan.moves x.id) ∧
      ∀ e, b.commit plan = .error e →
        (InPlace.commit plan).run b = .error e b ∧
          ∃ before m after, Mover.inOrder d plan.movers = before ++ m :: after ∧
            (∀ m' ∈ before, ∃ x, b.find? m'.piece = some x ∧ b.InBounds (x.position.step d)) ∧
            ((b.find? m.piece = none ∧ e = .pieceNotFound m.piece) ∨
              ∃ x, b.find? m.piece = some x ∧ ¬ b.InBounds (x.position.step d) ∧
                e = .outOfBounds (x.position.wrappedStep d)) := by
  intro plan
  rw [validate_eq_ok_iff] at hb
  have hnodup : (plan.movers.map (·.piece)).Nodup := Mover.nodup_distinct _
  refine ⟨?_, ?_, ?_⟩
  · simp only [hb.commit_eq_ok_iff rfl hnodup, hindrance?_eq_none_iff]
    exact ⟨fun ⟨_, _, hfree, _⟩ => hfree, fun hfree => ⟨_, _, hfree, rfl⟩⟩
  · intro b' steps hok
    have hrun := InPlace.run_commit b plan
    rw [hok] at hrun
    obtain ⟨hb', hrows, hcols, hmoved, hstill⟩ := hb.of_commit_eq_ok rfl hnodup hok
    exact ⟨hrun, validate_eq_ok_iff.mpr hb', hrows, hcols, hmoved, hstill⟩
  · intro e herror
    have hrun := InPlace.run_commit b plan
    rw [herror] at hrun
    obtain ⟨before, m, after, hsplit, hm, hbefore⟩ := (hb.commit_eq_error_iff rfl hnodup).mp herror
    exact ⟨hrun, before, m, after, hsplit,
      fun m' hm' => hindrance?_eq_none_iff.mp (hbefore m' hm'), hindrance?_eq_some_iff.mp hm⟩

/-- On the shuffled rows every mover goes one cell rightward from its new place, the wall too, and
the flag stays; in the row with a piece at its edge the piece that was farthest is refused first. -/
theorem commit_pushingRows_elsewhere :
    (shuffledRows.validate = .ok () ∧
      ∃ b' steps, shuffledRows.commit (pushingRows.plan pushingTable .right 6) = .ok (b', steps) ∧
        b'.find? (.ofNat 2) = some ⟨.ofNat 2, .thing .wall, ⟨1, 2⟩, .right⟩ ∧
        (b'.stackAt ⟨0, 1⟩).filter
            (fun x => !(pushingRows.plan pushingTable .right 6).moves x.id) =
          [⟨.ofNat 5, .thing .flag, ⟨0, 1⟩, .up⟩]) ∧
      edgeRow.validate = .ok () ∧
      edgeRow.commit (pushingRows.plan pushingTable .right 6) = .error (.outOfBounds ⟨0, 4⟩) ∧
      (InPlace.commit (pushingRows.plan pushingTable .right 6)).run edgeRow =
        .error (.outOfBounds ⟨0, 4⟩) edgeRow := by
  have hvalid : shuffledRows.validate = .ok () := by decide
  have hvalid' : edgeRow.validate = .ok () := by decide
  -- of the movers that are hindered on the edge row, the farther rock comes before the rear baba
  have horder : Mover.inOrder .right (pushingRows.plan pushingTable .right 6).movers =
      [⟨.ofNat 4, .thing .rock, ⟨0, 2⟩, 0⟩, ⟨.ofNat 2, .thing .rock, ⟨0, 1⟩, 0⟩,
        ⟨.ofNat 3, .thing .baba, ⟨0, 1⟩, 1⟩, ⟨.ofNat 1, .thing .baba, ⟨0, 0⟩, 0⟩] :=
    (Mover.inOrder_eq_of_perm (by decide) (by decide) .right).trans
      (List.mergeSort_of_pairwise (by decide))
  have hfails : edgeRow.commit (pushingRows.plan pushingTable .right 6) =
      .error (.outOfBounds ⟨0, 4⟩) :=
    ((validate_eq_ok_iff.mp hvalid').commit_eq_error_iff rfl (Mover.nodup_distinct _)).mpr
      ⟨[], _, _, horder, by decide, fun _ h => absurd h List.not_mem_nil⟩
  obtain ⟨hiff, hdone, -⟩ := commit_all_or_nothing hvalid pushingRows pushingTable .right 6
  obtain ⟨-, -, hrefused⟩ := commit_all_or_nothing hvalid' pushingRows pushingTable .right 6
  have hfree : ∀ m ∈ (pushingRows.plan pushingTable .right 6).movers,
      shuffledRows.hindrance? .right m.piece = none := by decide
  have hmovers : ∀ m ∈ (pushingRows.plan pushingTable .right 6).movers,
      ∃ x, shuffledRows.find? m.piece = some x ∧ shuffledRows.InBounds (x.position.step .right) :=
    fun m hm => hindrance?_eq_none_iff.mp (hfree m hm)
  obtain ⟨b', steps, hok⟩ := hiff.mpr hmovers
  obtain ⟨-, -, -, -, hmoved, hstill⟩ := hdone b' steps hok
  obtain ⟨x, hx, hx'⟩ := hmoved (.ofNat 2) (by decide)
  have hwall : shuffledRows.find? (.ofNat 2) =
      some ⟨.ofNat 2, .thing .wall, ⟨1, 1⟩, .right⟩ := by decide
  obtain rfl := Option.some.inj (hwall.symm.trans hx)
  exact ⟨⟨hvalid, b', steps, hok, hx', (hstill ⟨0, 1⟩).trans (by decide)⟩, hvalid', hfails,
    (hrefused _ hfails).1⟩

end Board

end WordTiles
