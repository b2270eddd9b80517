import WordTiles.Proofs.Game.Run

/-!
# Replaying events

The events of a tick tell the whole of it. Each event that is about a change of the board says
which piece it is about, and what and where that piece is just before (`Event.subject?`). To
replay events (`Replay`) is to check this on the board reached so far, and then to make the one
change that the event tells.

The phases of a tick make their changes one after the other, and their events stand in the same
order. So the events of a phase can be replayed if each of them fits the board that the changes
before it have made (`Replay.of_foldlM`), and a tick is replayed phase by phase. The main
statement is `Game.tick_replays`.
-/

set_option autoImplicit false

namespace WordTiles

/-! ## What events say -/

/-- The direction of a step from a position to a neighbouring one. -/
def Direction.between? (p q : Position) : Option Direction :=
  Direction.all.find? fun d => p.step d = q

theorem Direction.between?_step (p : Position) (d : Direction) :
    Direction.between? p (p.step d) = some d := by
  obtain ⟨row, col⟩ := p
  cases d <;> simp [between?, all, Position.step, rowStep, colStep]

/-- A piece as an event describes it. -/
structure Subject where
  piece : PieceId
  kind : Kind
  position : Position

namespace Event

variable {b : Board} {e : Event}

/-- The piece that an event changes, moves or removes, as it is just before. -/
def subject? : Event → Option Subject
  | .transformed piece position source _ => some ⟨piece, .thing source, position⟩
  | .moved piece kind source _ => some ⟨piece, kind, source⟩
  | .destroyed piece kind position _ => some ⟨piece, kind, position⟩
  | .ruleRejected .. => none
  | .moveRejected .. => none
  | .outcomeReached _ => none

/-- An event fits a board on which its piece is as the event says. -/
def Fits (b : Board) (e : Event) : Prop :=
  ∀ s, e.subject? = some s → ∃ x, b.find? s.piece = some x ∧ x.kind = s.kind ∧
    x.position = s.position

/-- Makes the change of the board that an event tells. -/
def replay? (b : Board) : Event → Option Board
  | .transformed piece _ _ target => ((b.setKind piece (.thing target)).map Prod.fst).toOption
  | .moved piece _ source target =>
    (Direction.between? source target).bind fun d => ((b.step piece d).map Prod.fst).toOption
  | .destroyed piece _ _ _ => ((b.remove piece).map Prod.fst).toOption
  | .ruleRejected .. => some b
  | .moveRejected .. => some b
  | .outcomeReached _ => some b

theorem fits_of_subject?_eq_none (h : e.subject? = none) : e.Fits b := by
  intro s hs
  rw [h] at hs
  cases hs

theorem replay?_of_subject?_eq_none (h : e.subject? = none) : e.replay? b = some b := by
  cases e <;> first | rfl | cases h

/-- An event fits a valid board that holds a piece as it describes. -/
theorem Fits.of_mem (hb : b.Valid) {x : Piece} (hx : x ∈ b.pieces)
    (h : e.subject? = some ⟨x.id, x.kind, x.position⟩) : e.Fits b := by
  intro s hs
  rw [h] at hs
  cases hs
  exact ⟨x, hb.find?_eq (hb.mem_stackAt_of_mem_pieces hx), rfl, rfl⟩

end Event

/-- The events lead from one board to another: each one fits the board that those before it
lead to. -/
inductive Replay : Board → List Event → Board → Prop
  | nil (b : Board) : Replay b [] b
  | cons {b next last : Board} {e : Event} {es : List Event} (hfits : e.Fits b)
      (hreplay : e.replay? b = some next) (hrest : Replay next es last) :
      Replay b (e :: es) last

namespace Replay

variable {b b' b'' : Board} {es es' : List Event}

theorem append (h : Replay b es b') (h' : Replay b' es' b'') : Replay b (es ++ es') b'' := by
  induction h with
  | nil b => exact h'
  | cons hfits hreplay _ ih => exact .cons hfits hreplay (ih h')

/-- Events that are about no piece leave the board as it is. -/
theorem of_subject?_eq_none (b : Board) (h : ∀ e ∈ es, e.subject? = none) : Replay b es b := by
  induction es with
  | nil => exact .nil b
  | cons e rest ih =>
      rw [List.forall_mem_cons] at h
      exact .cons (Event.fits_of_subject?_eq_none h.1) (Event.replay?_of_subject?_eq_none h.1)
        (ih h.2)

/-- The events of changes that were made one after the other can be replayed if each event tells
its change, and fits the board that the changes before it have made. -/
theorem of_foldlM {σ α : Type} (board : σ → Board) {change : σ → α → Except BoardError σ}
    {event : α → Event} {l : List α} {s s' : σ}
    (hreplay : ∀ s a s', change s a = .ok s' → (event a).replay? (board s) = some (board s'))
    (hfits : ∀ made a rest t, l = made ++ a :: rest → made.foldlM change s = .ok t →
      (event a).Fits (board t))
    (h : l.foldlM change s = .ok s') : Replay (board s) (l.map event) (board s') := by
  induction l generalizing s with
  | nil =>
      cases h
      exact .nil _
  | cons a rest ih =>
      rw [List.foldlM_cons] at h
      cases ha : change s a with
      | error e =>
          rw [ha] at h
          cases h
      | ok next =>
          rw [ha] at h
          refine .cons (hfits [] a rest s rfl rfl) (hreplay s a next ha) (ih ?_ h)
          -- what was made from the next state on was made after the first change
          intro made a' rest' t hsplit hmade
          apply hfits (a :: made) a' rest' t (by rw [hsplit, List.cons_append])
          rw [List.foldlM_cons, ha]
          exact hmade

end Replay

/-! ## The phases -/

theorem Transformation.subject?_of_ofPiece? {rs : RuleSet} {x : Piece} {c : Transformation}
    (h : ofPiece? rs x = some c) :
    (Event.ofTransformation c).subject? = some ⟨x.id, x.kind, x.position⟩ := by
  obtain ⟨id, kind, position, facing⟩ := x
  cases kind with
  | tile w => simp [ofPiece?, Kind.noun?] at h
  | thing n =>
      obtain ⟨target, -, rfl⟩ : ∃ target, rs.becomes? n = some target ∧ _ = c := by
        simpa [ofPiece?, Kind.noun?] using h
      rfl

theorem Mover.replay?_of_step {d : Direction} {m : Mover} {s s' : Board × List Step}
    (h : step d s m = .ok s') : (Event.ofStep (stepTo d m)).replay? s.1 = some s'.1 := by
  show (Direction.between? m.position (m.position.step d)).bind _ = _
  rw [Direction.between?_step, Option.bind_some]
  rw [step] at h
  cases hstep : s.1.step m.piece d with
  | error e =>
      rw [hstep] at h
      cases h
  | ok moved =>
      rw [hstep] at h
      cases h
      show ((s.1.step m.piece d).map Prod.fst).toOption = some moved.1
      rw [hstep]
      rfl

namespace Board.Valid

variable {b : Board}

/-- The changes that rules call for are told by their events. -/
theorem replay_transformations (hb : b.Valid) (rs : RuleSet) :
    Replay b ((b.transformations rs).map Event.ofTransformation) (b.mapPieces (·.recast rs)) := by
  refine Replay.of_foldlM (fun b => b) ?_ ?_ (hb.foldlM_transformations_eq rs)
  · intro s c s' hc
    show (Transformation.apply s c).toOption = some s'
    rw [hc]
    rfl
  · intro made c rest s hsplit hmade
    obtain ⟨before, after, hpieces, rfl, hafter⟩ := List.filterMap_eq_append_iff.mp hsplit
    obtain ⟨unchanged, x, later, rfl, -, hx, -⟩ := List.filterMap_eq_cons_iff.mp hafter
    have hmem : x ∈ b.pieces := by rw [hpieces]; simp
    have hbefore : ∀ y ∈ before, y ∈ b.pieces := by
      intro y hy
      rw [hpieces]
      exact List.mem_append_left _ hy
    have hnodup := hb.ids_nodup
    rw [hpieces, List.map_append] at hnodup
    -- the piece comes after those that have changed, so its identity is none of theirs
    have hnot : x.id ∉ before.map (·.id) := by
      intro h
      exact List.disjoint_of_nodup_append hnodup h (List.mem_map.mpr ⟨x, by simp, rfl⟩)
    rw [Transformation.foldlM_apply_eq hb hbefore hnodup.of_append_left] at hmade
    cases hmade
    have hs : (b.mapPieces fun y => if y.id ∈ before.map (·.id) then y.recast rs else y).Valid := by
      apply hb.mapPieces
      · intro y
        split <;> rfl
      · intro y
        split <;> rfl
    exact .of_mem hs ((mem_pieces_mapPieces hb.sized).mpr ⟨x, hmem, if_neg hnot⟩)
      (Transformation.subject?_of_ofPiece? hx)

/-- The steps of a move are told by their events. -/
theorem replay_steps (hb : b.Valid) (t : CapabilityTable) (d : Direction) (limit : Nat) :
    Replay b (((Mover.inOrder d (b.plan t d limit).movers).map (Mover.stepTo d)).map Event.ofStep)
      (b.shift d (b.plan t d limit).moves) := by
  rw [List.map_map]
  refine Replay.of_foldlM Prod.fst (fun s m s' hm => Mover.replay?_of_step hm) ?_
    (hb.commit_plan_eq t d limit)
  intro made m rest s hsplit hmade
  have hmovers : ∀ m' ∈ made ++ m :: rest, m' ∈ (b.plan t d limit).movers := by
    rw [← hsplit]
    exact fun m' hm' => (Mover.inOrder_perm d _).mem_iff.mp hm'
  have hnodup : ((made ++ m :: rest).map (·.piece)).Nodup := by
    rw [← hsplit]
    exact ((Mover.inOrder_perm d _).map _).nodup_iff.mpr (Mover.nodup_distinct _)
  have horder := Mover.pairwise_inOrder d (b.plan t d limit).movers
  rw [hsplit] at horder
  have hmade' : ∀ m' ∈ made, m'.On b ∧ b.InBounds (m'.position.step d) := fun m' hm' =>
    hb.on_of_mem_movers (hmovers m' (List.mem_append_left _ hm'))
  rw [List.map_append, List.map_cons] at hnodup
  rw [Mover.foldlM_step_eq_shift hb (fun m' hm' => (hmade' m' hm').1)
    (fun m' hm' => (hmade' m' hm').2) hnodup.of_append_left (List.pairwise_append.mp horder).1]
    at hmade
  cases hmade
  obtain ⟨⟨x, hlayer, hid, hkind⟩, -⟩ := hb.on_of_mem_movers (hmovers m (by simp))
  have hstack := List.mem_of_getElem? hlayer
  have hnot : made.any (·.piece == x.id) = false := by
    rw [List.any_eq_false]
    intro m' hm' heq
    have hmem : m.piece ∈ made.map (·.piece) :=
      List.mem_map.mpr ⟨m', hm', (eq_of_beq heq).trans hid⟩
    exact List.disjoint_of_nodup_append hnodup hmem List.mem_cons_self
  have hmoved : x ∈ (b.shift d fun id => made.any (·.piece == id)).pieces :=
    hb.mem_pieces_shift ((mem_pieces_iff hb.sized).mpr ⟨_, hstack⟩) hnot
  have hshift : (b.shift d fun id => made.any (·.piece == id)).Valid := hb.shift d _
  refine Event.Fits.of_mem hshift hmoved ?_
  rw [hid, hkind, hb.position_of_mem hstack]
  rfl

/-- The removals of what hazards destroy are told by their events. -/
theorem replay_destructions (hb : b.Valid) (t : CapabilityTable) :
    Replay b ((b.destructions t).map Event.ofDestruction)
      (b.filterPieces fun x => !((b.destructions t).map (·.piece)).contains x.id) := by
  refine Replay.of_foldlM (fun b => b) ?_ ?_ (hb.foldlM_destructions_eq t)
  · intro s o s' ho
    show (Destruction.apply s o).toOption = some s'
    rw [ho]
    rfl
  · intro made o rest s hsplit hmade
    have hnodup := hb.nodup_destructions t
    rw [hsplit, List.map_append, List.map_cons] at hnodup
    have hpresent : ∀ o' ∈ made, ∃ x ∈ b.pieces, x.id = o'.piece := by
      intro o' ho'
      obtain ⟨x, hx, hid, -⟩ := hb.exists_of_mem_destructions (t := t) (o := o')
        (by rw [hsplit]; exact List.mem_append_left _ ho')
      exact ⟨x, hx, hid⟩
    rw [Destruction.foldlM_apply_eq hb hpresent hnodup.of_append_left] at hmade
    cases hmade
    obtain ⟨x, hx, hid, hkind, hposition⟩ := hb.exists_of_mem_destructions (t := t) (o := o)
      (by rw [hsplit]; simp)
    have hnot : o.piece ∉ made.map (·.piece) := fun h =>
      List.disjoint_of_nodup_append hnodup h List.mem_cons_self
    refine .of_mem (hb.filterPieces _) (x := x)
      ((mem_pieces_filterPieces hb.sized).mpr ⟨hx, by simpa [hid] using hnot⟩) ?_
    rw [hid, hkind, hposition]
    rfl

end Board.Valid

/-! ## The whole tick -/

namespace Game

variable {g : Game}

theorem replay_steps (hb : g.board.Valid) (input : Input) :
    Replay g.changed ((g.steps input).map Event.ofStep) (g.shifted input) := by
  cases input with
  | move d => exact (valid_changed hb).replay_steps g.tickTable d _
  | wait => exact .nil g.changed

theorem replay_destroyed (hb : g.board.Valid) (input : Input) :
    Replay (g.shifted input) ((g.destroyed input).map Event.ofDestruction) (g.survived input) := by
  have hshifted := valid_shifted hb input
  rw [survived, destroyed]
  split
  · exact hshifted.replay_destructions g.tickTable
  · simp only [List.map_nil, List.contains_nil, Bool.not_false]
    rw [Board.filterPieces_true hshifted.sized]
    exact .nil _

/-- The events of a tick lead through the boards between its phases. -/
theorem replay_tickEvents (hb : g.board.Valid) (input : Input) :
    Replay g.board (g.tickEvents input) (g.survived input) := by
  have hrejected : Replay g.board (g.board.read.rejected.map Event.ofRejectedRun) g.board := by
    apply Replay.of_subject?_eq_none
    intro e he
    obtain ⟨r, -, rfl⟩ := List.mem_map.mp he
    rfl
  have hattempts : Replay (g.shifted input) ((g.movePlan input).attempts.filterMap Event.ofAttempt?)
      (g.shifted input) := by
    apply Replay.of_subject?_eq_none
    intro e he
    obtain ⟨a, -, ha⟩ := List.mem_filterMap.mp he
    obtain ⟨reason, rfl⟩ := Event.eq_of_ofAttempt? ha
    rfl
  have houtcome : Replay (g.survived input) (Event.ofOutcome? (g.played input).outcome).toList
      (g.survived input) := by
    apply Replay.of_subject?_eq_none
    intro e he
    rw [Event.eq_of_mem_ofOutcome? he]
    rfl
  exact ((((hrejected.append (hb.replay_transformations g.board.read.rules)).append
    (replay_steps hb input)).append hattempts).append (replay_destroyed hb input)).append houtcome

/-- **The events tell the whole tick.** Whatever was played before, if events are recorded then
those of the next tick can be replayed on the board as it was before the tick: each of them
finds its piece as it says, with this kind and at this position, and can be made. They lead to
exactly the board after the tick, with every stack in its order. -/
theorem tick_replays {g : Game} (hg : Reachable g) (hrecord : g.config.recordEvents = true)
    (input : Input) :
    ∃ next report, g.tick input = .ok (next, report) ∧
      Replay g.board report.events next.board := by
  have hb := hg.board_valid
  rw [tick_eq hb]
  split
  · exact ⟨g, g.idleReport, rfl, .nil g.board⟩
  · refine ⟨g.played input, g.playReport input, rfl, ?_⟩
    rw [playReport, if_pos hrecord]
    exact replay_tickEvents hb input

/-- Four rules, and below them a baba before a rock before water. -/
def sinkingKeyBoard : Board :=
  ⟨5, 3, #[
    [⟨.ofNat 1, .tile "BABA", ⟨0, 0⟩, .right⟩], [⟨.ofNat 2, .tile "IS", ⟨0, 1⟩, .right⟩],
    [⟨.ofNat 3, .tile "YOU", ⟨0, 2⟩, .right⟩],
    [⟨.ofNat 4, .tile "ROCK", ⟨1, 0⟩, .right⟩], [⟨.ofNat 5, .tile "IS", ⟨1, 1⟩, .right⟩],
    [⟨.ofNat 6, .tile "KEY", ⟨1, 2⟩, .right⟩],
    [⟨.ofNat 7, .tile "KEY", ⟨2, 0⟩, .right⟩], [⟨.ofNat 8, .tile "IS", ⟨2, 1⟩, .right⟩],
    [⟨.ofNat 9, .tile "PUSH", ⟨2, 2⟩, .right⟩],
    [⟨.ofNat 10, .tile "WATER", ⟨3, 0⟩, .right⟩], [⟨.ofNat 11, .tile "IS", ⟨3, 1⟩, .right⟩],
    [⟨.ofNat 12, .tile "SINK", ⟨3, 2⟩, .right⟩],
    [⟨.ofNat 13, .thing .baba, ⟨4, 0⟩, .up⟩], [⟨.ofNat 14, .thing .rock, ⟨4, 1⟩, .left⟩],
    [⟨.ofNat 15, .thing .water, ⟨4, 2⟩, .right⟩]]⟩

/-- The rock becomes a key, is pushed, and sinks with the water, all in one tick. -/
theorem tick_replays_sinkingKeyBoard :
    sinkingKeyBoard.validate = .ok () ∧
      ∃ g next report, ofBoard sinkingKeyBoard {} = .ok g ∧ g.config.recordEvents = true ∧
        g.tick (.move .right) = .ok (next, report) ∧
        Replay sinkingKeyBoard report.events next.board ∧
        next.board.stackAt ⟨4, 1⟩ = [⟨.ofNat 13, .thing .baba, ⟨4, 1⟩, .right⟩] ∧
        next.board.stackAt ⟨4, 2⟩ = [] := by
  have hvalid : sinkingKeyBoard.validate = .ok () := by decide
  have hstart := ofBoard_eq_ok hvalid {}
  have hg : Reachable (opening sinkingKeyBoard {}) := .start (.ofBoard hstart)
  obtain ⟨next, report, htick, hreplay⟩ := tick_replays hg rfl (.move .right)
  have hplayed := htick.symm.trans (tick_eq hg.board_valid (.move .right))
  have hboard : next.board = (opening sinkingKeyBoard {}).survived (.move .right) :=
    congrArg (fun tick => tick.1.board) (Except.ok.inj hplayed)
  refine ⟨hvalid, _, next, report, hstart, rfl, htick, hreplay, ?_, ?_⟩
  · rw [hboard]
    decide
  · rw [hboard]
    decide

end Game

end WordTiles
