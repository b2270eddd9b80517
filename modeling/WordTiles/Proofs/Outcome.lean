import Mathlib.Data.Multiset.Basic
import WordTiles.Outcome
import WordTiles.Proofs.Board.Standing

/-!
# Outcomes of whole boards

The outcome of a board is the gravest one that a cell decides. Said of the whole board: it is lost
when a controllable piece shares a cell with one that defeats, and otherwise won when one shares a
cell with one that wins (`Board.Meets`). So it depends on which kinds share a cell and on nothing
else of the board (`Board.Shares`), and on three capabilities and no others. Going through the cells
one by one and stopping at the first loss finds it (`Board.outcomeAlong`).

The main statement is `Board.outcome_exact`.
-/

set_option autoImplicit false

namespace WordTiles

namespace Outcome

variable {t : CapabilityTable} {s : Stack} {o : Outcome} {os : List Outcome}

/-! ## The gravest of some outcomes -/

theorem foldl_max_loss (os : List Outcome) : os.foldl max .loss = .loss := by
  induction os with
  | nil => rfl
  | cons o rest ih => exact ih

theorem foldl_max_eq_loss_iff : os.foldl max o = .loss ↔ o = .loss ∨ .loss ∈ os := by
  induction os generalizing o with
  | nil => simp
  | cons o' rest ih =>
      rw [List.foldl_cons, ih, List.mem_cons, ← or_assoc]
      exact or_congr_left (by cases o <;> cases o' <;> decide)

theorem foldl_max_eq_ongoing_iff :
    os.foldl max o = .ongoing ↔ o = .ongoing ∧ ∀ o' ∈ os, o' = .ongoing := by
  induction os generalizing o with
  | nil => simp
  | cons o' rest ih =>
      rw [List.foldl_cons, ih, List.forall_mem_cons, ← and_assoc]
      exact and_congr_left' (by cases o <;> cases o' <;> decide)

/-! ## What a cell decides -/

theorem ofCell_eq_loss_iff : ofCell t s = .loss ↔
    (∃ x ∈ s, (t.ofPiece x).controllable = true) ∧ ∃ y ∈ s, (t.ofPiece y).losing = true := by
  rw [← List.any_eq_true, ← List.any_eq_true, ofCell]
  cases s.any fun x => (t.ofPiece x).controllable <;>
    cases s.any fun x => (t.ofPiece x).losing <;>
      cases s.any fun x => (t.ofPiece x).winning <;> decide

theorem ofCell_eq_ongoing_iff : ofCell t s = .ongoing ↔
    (∃ x ∈ s, (t.ofPiece x).controllable = true) →
      ¬ (∃ y ∈ s, (t.ofPiece y).losing = true) ∧ ¬ ∃ y ∈ s, (t.ofPiece y).winning = true := by
  rw [← List.any_eq_true, ← List.any_eq_true, ← List.any_eq_true, ofCell]
  cases s.any fun x => (t.ofPiece x).controllable <;>
    cases s.any fun x => (t.ofPiece x).losing <;>
      cases s.any fun x => (t.ofPiece x).winning <;> decide

end Outcome

namespace Board

variable {b b' : Board} {t t' : CapabilityTable}

/-! ## What shares a cell -/

/-- In some cell a controllable piece stands together with one that has another capability. The two
may be the same piece. -/
def Meets (b : Board) (t : CapabilityTable) (flag : Capabilities → Bool) : Prop :=
  ∃ p, (∃ x ∈ b.stackAt p, (t.ofPiece x).controllable = true) ∧
    ∃ y ∈ b.stackAt p, flag (t.ofPiece y) = true

def Shares (b : Board) (k k' : Kind) : Prop :=
  ∃ p, (∃ x ∈ b.stackAt p, x.kind = k) ∧ ∃ y ∈ b.stackAt p, y.kind = k'

/-- The kinds in each cell, whatever the order of the cells and of the stacks. -/
def company (b : Board) : Multiset (Multiset Kind) :=
  b.cells.toList.map fun s => ((s.map (·.kind) : List Kind) : Multiset Kind)

/-- In which order cells are listed and pieces lie does not matter for what shares a cell. -/
theorem shares_iff (hb : b.Sized) {k k' : Kind} :
    b.Shares k k' ↔ ∃ kinds ∈ b.company, k ∈ kinds ∧ k' ∈ kinds := by
  simp only [company, ← map_stackAt_positions hb, Multiset.mem_coe, List.mem_map,
    mem_positions_iff hb, Function.comp_apply, List.map_map, Shares]
  constructor
  · rintro ⟨p, ⟨x, hx, hk⟩, hk'⟩
    exact ⟨_, ⟨p, inBounds_of_mem hx, rfl⟩, List.mem_map.mpr ⟨x, hx, hk⟩, List.mem_map.mpr hk'⟩
  · rintro ⟨_, ⟨p, -, rfl⟩, hk, hk'⟩
    exact ⟨p, List.mem_map.mp hk, List.mem_map.mp hk'⟩

/-- Only the kinds that share a cell matter. -/
theorem meets_iff {flag : Capabilities → Bool} : b.Meets t flag ↔
    ∃ k k', b.Shares k k' ∧ (t.ofKind k).controllable = true ∧ flag (t.ofKind k') = true := by
  constructor
  · rintro ⟨p, ⟨x, hx, hcontrollable⟩, y, hy, hflag⟩
    exact ⟨x.kind, y.kind, ⟨p, ⟨x, hx, rfl⟩, y, hy, rfl⟩, hcontrollable, hflag⟩
  · rintro ⟨k, k', ⟨p, ⟨x, hx, rfl⟩, y, hy, rfl⟩, hcontrollable, hflag⟩
    exact ⟨p, ⟨x, hx, hcontrollable⟩, y, hy, hflag⟩

/-- Boards on which the same kinds share a cell have the same meetings, by tables that agree about
what meets. -/
theorem meets_congr {flag : Capabilities → Bool} (hshares : ∀ k k', b'.Shares k k' ↔ b.Shares k k')
    (hcontrollable : ∀ n, (t'.get n).controllable = (t.get n).controllable)
    (hflag : ∀ n, flag (t'.get n) = flag (t.get n)) : b'.Meets t' flag ↔ b.Meets t flag := by
  have hkind : ∀ k, (t'.ofKind k).controllable = (t.ofKind k).controllable ∧
      flag (t'.ofKind k) = flag (t.ofKind k) := fun k => by
    cases k with
    | thing n => exact ⟨hcontrollable n, hflag n⟩
    | tile w => exact ⟨rfl, rfl⟩
  simp only [meets_iff, hshares, hkind]

/-! ## The outcome -/

/-- What some cell decides is decided at some position. -/
theorem exists_ofCell_iff (hb : b.Sized) {o : Outcome} :
    o ∈ b.cells.toList.map (Outcome.ofCell t) ↔
      ∃ p, b.InBounds p ∧ Outcome.ofCell t (b.stackAt p) = o := by
  rw [← map_stackAt_positions hb, List.map_map, List.mem_map]
  simp only [mem_positions_iff hb, Function.comp_apply]

theorem outcome_eq_loss_iff (hb : b.Sized) : b.outcome t = .loss ↔ b.Meets t (·.losing) := by
  rw [outcome, Outcome.foldl_max_eq_loss_iff, exists_ofCell_iff hb]
  simp only [Outcome.ofCell_eq_loss_iff, reduceCtorEq, false_or, Meets]
  refine exists_congr fun p => and_iff_right_of_imp ?_
  rintro ⟨⟨x, hx, -⟩, -⟩
  exact inBounds_of_mem hx

theorem outcome_eq_ongoing_iff (hb : b.Sized) :
    b.outcome t = .ongoing ↔ ¬ b.Meets t (·.losing) ∧ ¬ b.Meets t (·.winning) := by
  rw [outcome, Outcome.foldl_max_eq_ongoing_iff]
  constructor
  · rintro ⟨-, h⟩
    have hcell : ∀ p, b.InBounds p → Outcome.ofCell t (b.stackAt p) = .ongoing := fun p hp =>
      h _ ((exists_ofCell_iff hb).mpr ⟨p, hp, rfl⟩)
    simp only [Outcome.ofCell_eq_ongoing_iff] at hcell
    constructor
    · rintro ⟨p, ⟨x, hx, hcontrollable⟩, hlosing⟩
      exact (hcell p (inBounds_of_mem hx) ⟨x, hx, hcontrollable⟩).1 hlosing
    · rintro ⟨p, ⟨x, hx, hcontrollable⟩, hwinning⟩
      exact (hcell p (inBounds_of_mem hx) ⟨x, hx, hcontrollable⟩).2 hwinning
  · rintro ⟨hlosing, hwinning⟩
    refine ⟨rfl, fun o ho => ?_⟩
    obtain ⟨p, -, rfl⟩ := (exists_ofCell_iff hb).mp ho
    rw [Outcome.ofCell_eq_ongoing_iff]
    exact fun hcontrollable =>
      ⟨fun h => hlosing ⟨p, hcontrollable, h⟩, fun h => hwinning ⟨p, hcontrollable, h⟩⟩

/-- What is neither lost nor open is won. -/
theorem outcome_eq_win_iff (hb : b.Sized) :
    b.outcome t = .win ↔ ¬ b.Meets t (·.losing) ∧ b.Meets t (·.winning) := by
  have hloss := outcome_eq_loss_iff (t := t) hb
  have hongoing := outcome_eq_ongoing_iff (t := t) hb
  cases h : b.outcome t with
  | ongoing => exact iff_of_false nofun fun hwon => (hongoing.mp h).2 hwon.2
  | loss => exact iff_of_false nofun fun hwon => hwon.1 (hloss.mp h)
  | win =>
      rw [h] at hloss hongoing
      have hlosing : ¬ b.Meets t (·.losing) := fun hmeets => nomatch hloss.mpr hmeets
      have hwinning : b.Meets t (·.winning) :=
        Classical.byContradiction fun hnot => nomatch hongoing.mpr ⟨hlosing, hnot⟩
      exact iff_of_true rfl ⟨hlosing, hwinning⟩

/-- Boards on which the same kinds share a cell have the same outcome, by tables that agree about
who is controllable, who defeats and who wins. -/
theorem outcome_congr (hb : b.Sized) (hb' : b'.Sized)
    (hshares : ∀ k k', b'.Shares k k' ↔ b.Shares k k')
    (hcontrollable : ∀ n, (t'.get n).controllable = (t.get n).controllable)
    (hlosing : ∀ n, (t'.get n).losing = (t.get n).losing)
    (hwinning : ∀ n, (t'.get n).winning = (t.get n).winning) : b'.outcome t' = b.outcome t := by
  have hlosing' : b'.Meets t' (·.losing) ↔ b.Meets t (·.losing) :=
    meets_congr hshares hcontrollable hlosing
  have hwinning' : b'.Meets t' (·.winning) ↔ b.Meets t (·.winning) :=
    meets_congr hshares hcontrollable hwinning
  cases h : b.outcome t with
  | ongoing =>
      rw [outcome_eq_ongoing_iff hb', hlosing', hwinning', ← outcome_eq_ongoing_iff hb, h]
  | win => rw [outcome_eq_win_iff hb', hlosing', hwinning', ← outcome_eq_win_iff hb, h]
  | loss => rw [outcome_eq_loss_iff hb', hlosing', ← outcome_eq_loss_iff hb, h]

/-! ## Cell by cell -/

/-- The outcome that is found by going through positions. A loss ends the search; a win is kept in
mind until the end. -/
def outcomeAlong (b : Board) (t : CapabilityTable) (won : Bool) : List Position → Outcome
  | [] => if won then .win else .ongoing
  | p :: rest =>
    let s := b.stackAt p
    if ¬ s.any fun x => (t.ofPiece x).controllable then b.outcomeAlong t won rest
    else if s.any fun x => (t.ofPiece x).losing then .loss
    else b.outcomeAlong t (won || s.any fun x => (t.ofPiece x).winning) rest

/-- Keeping a win in mind is taking the graver outcome each time. -/
theorem outcomeAlong_eq (won : Bool) (ps : List Position) :
    b.outcomeAlong t won ps = (ps.map fun p => Outcome.ofCell t (b.stackAt p)).foldl Outcome.max
      (if won then .win else .ongoing) := by
  induction ps generalizing won with
  | nil => rfl
  | cons p rest ih =>
      rw [outcomeAlong, List.map_cons, List.foldl_cons, Outcome.ofCell]
      cases (b.stackAt p).any fun x => (t.ofPiece x).controllable with
      | false =>
          rw [if_pos (by decide), ih]
          cases won <;> rfl
      | true =>
          rw [if_neg (by decide)]
          cases (b.stackAt p).any fun x => (t.ofPiece x).losing with
          | true =>
              cases won <;> exact (Outcome.foldl_max_loss _).symm
          | false =>
              rw [if_neg (by decide), ih]
              cases (b.stackAt p).any fun x => (t.ofPiece x).winning <;> cases won <;> rfl

theorem outcomeAlong_positions (hb : b.Sized) :
    b.outcomeAlong t false b.positions = b.outcome t := by
  rw [outcomeAlong_eq, outcome, ← map_stackAt_positions hb, List.map_map]
  rfl

/-- **Outcomes are exact.** Of a valid board, going through the cells finds the outcome. It is a
loss exactly when somewhere a controllable piece meets one that defeats, a win exactly when there is
no such place but one where it meets a piece that wins, and otherwise open. Any other board, of
whatever size, on which the same kinds share a cell has the same outcome, also by a table that says
something else of the other capabilities. -/
theorem outcome_exact {b : Board} (hb : b.validate = .ok ()) (t : CapabilityTable) :
    b.outcomeAlong t false b.positions = b.outcome t ∧
      (b.outcome t = .loss ↔ b.Meets t (·.losing)) ∧
      (b.outcome t = .win ↔ ¬ b.Meets t (·.losing) ∧ b.Meets t (·.winning)) ∧
      (b.outcome t = .ongoing ↔ ¬ b.Meets t (·.losing) ∧ ¬ b.Meets t (·.winning)) ∧
      ∀ (b' : Board) (t' : CapabilityTable), b'.validate = .ok () →
        (∀ k k', b'.Shares k k' ↔ b.Shares k k') →
        (∀ n, (t'.get n).controllable = (t.get n).controllable) →
        (∀ n, (t'.get n).losing = (t.get n).losing) →
        (∀ n, (t'.get n).winning = (t.get n).winning) → b'.outcome t' = b.outcome t := by
  rw [validate_eq_ok_iff] at hb
  refine ⟨outcomeAlong_positions hb.sized, outcome_eq_loss_iff hb.sized,
    outcome_eq_win_iff hb.sized, outcome_eq_ongoing_iff hb.sized, fun b' t' hb' => ?_⟩
  exact outcome_congr hb.sized (validate_eq_ok_iff.mp hb').sized

/-- A flag that a baba has reached, and a keke on a rock. -/
def flagAndRock : Board :=
  ⟨2, 2, #[
    [⟨.ofNat 1, .thing .baba, ⟨0, 0⟩, .right⟩, ⟨.ofNat 2, .thing .flag, ⟨0, 0⟩, .right⟩],
    [],
    [⟨.ofNat 3, .tile "WIN", ⟨1, 0⟩, .right⟩],
    [⟨.ofNat 4, .thing .rock, ⟨1, 1⟩, .down⟩, ⟨.ofNat 5, .thing .keke, ⟨1, 1⟩, .up⟩]]⟩

/-- The same cells in one row, in another order, and with their stacks turned over. -/
def flagAndRockInRow : Board :=
  ⟨1, 4, #[
    [⟨.ofNat 5, .thing .keke, ⟨0, 0⟩, .up⟩, ⟨.ofNat 4, .thing .rock, ⟨0, 0⟩, .left⟩],
    [⟨.ofNat 3, .tile "WIN", ⟨0, 1⟩, .right⟩],
    [⟨.ofNat 2, .thing .flag, ⟨0, 2⟩, .right⟩, ⟨.ofNat 1, .thing .baba, ⟨0, 2⟩, .right⟩],
    []]⟩

/-- Babas and kekes are controllable, flags win and rocks defeat. -/
def stakes : RuleSet :=
  ⟨[⟨[.baba, .keke], .is, .action .you⟩, ⟨[.flag], .is, .action .win⟩,
    ⟨[.rock], .is, .action .defeat⟩]⟩

/-- The loss outweighs the win, also where it is found first and where rocks float and sink. -/
theorem outcome_flagAndRock :
    flagAndRock.validate = .ok () ∧ flagAndRockInRow.validate = .ok () ∧
      flagAndRock.Meets (.build stakes flagAndRock) (·.winning) ∧
      flagAndRock.outcome (.build stakes flagAndRock) = .loss ∧
      flagAndRockInRow.outcome (.build ⟨⟨[.rock], .is, .action .float⟩ ::
        ⟨[.rock, .baba], .is, .action .sink⟩ :: stakes.rules⟩ flagAndRockInRow) = .loss := by
  have hvalid : flagAndRock.validate = .ok () := by decide
  have hvalid' : flagAndRockInRow.validate = .ok () := by decide
  obtain ⟨-, hloss, -, -, hcongr⟩ :=
    outcome_exact hvalid (.build stakes flagAndRock)
  have hmeets : flagAndRock.Meets (.build stakes flagAndRock) (·.losing) :=
    ⟨⟨1, 1⟩, by decide, by decide⟩
  have hcompany : flagAndRockInRow.company = flagAndRock.company := by decide
  have hshares : ∀ k k', flagAndRockInRow.Shares k k' ↔ flagAndRock.Shares k k' := fun k k' => by
    rw [shares_iff (validate_eq_ok_iff.mp hvalid').sized, hcompany,
      shares_iff (validate_eq_ok_iff.mp hvalid).sized]
  have hlost := hloss.mpr hmeets
  refine ⟨hvalid, hvalid', ⟨⟨0, 0⟩, by decide, by decide⟩, hlost, ?_⟩
  rw [← hlost]
  exact hcongr _ _ hvalid' hshares (fun n => by cases n <;> decide) (fun n => by cases n <;> decide)
    (fun n => by cases n <;> decide)

end Board

end WordTiles
