import WordTiles.Move.Chain
import WordTiles.Proofs.Board.Standing

/-!
# What a push chain reaches

From a cell of a valid board a chain goes over the cells that lie ahead on integers, so wrapping
around goes unnoticed (`Board.Valid.pushChain_eq`). What follows is said of these.

A cell is *loaded* when it holds a pushable piece. A chain goes from cell to cell as long as
they are loaded, and takes all pushable pieces on its way (`Board.mem_chainAlong_iff`). Seen
from a cell that it goes through, the rest of a chain is a chain of its own, with fewer cells
to push (`Board.chainAlong_advance`): this is why two pieces on one line are never judged
differently.
-/

set_option autoImplicit false

namespace WordTiles

variable {b : Board} {t : CapabilityTable} {d : Direction} {p : Position} {limit : Nat}
  {pushed : List Pushed} {next next' : Position → Position}

theorem CapabilityTable.mem_pushables_iff {s : Stack} {c : Pushed} :
    c ∈ t.pushables s ↔ s[c.layer]? = some c.piece ∧ (t.ofPiece c.piece).pushable = true := by
  obtain ⟨x, i⟩ := c
  simp only [pushables, List.mem_map, List.mem_filter, Prod.exists, Pushed.mk.injEq,
    List.mk_mem_zipIdx_iff_getElem?]
  constructor
  · rintro ⟨x', i', h, rfl, rfl⟩
    exact h
  · intro h
    exact ⟨x, i, h, rfl, rfl⟩

def CapabilityTable.Loaded (t : CapabilityTable) (s : Stack) : Prop :=
  ∃ x ∈ s, (t.ofPiece x).pushable = true

theorem CapabilityTable.loaded_iff {s : Stack} : t.Loaded s ↔ t.pushables s ≠ [] := by
  constructor
  · rintro ⟨x, hx, hpush⟩
    obtain ⟨i, hi⟩ := List.mem_iff_getElem?.mp hx
    have hmem : (⟨x, i⟩ : Pushed) ∈ t.pushables s := mem_pushables_iff.mpr ⟨hi, hpush⟩
    exact List.ne_nil_of_mem hmem
  · intro h
    obtain ⟨c, hc⟩ := List.exists_mem_of_ne_nil _ h
    obtain ⟨hlayer, hpush⟩ := mem_pushables_iff.mp hc
    exact ⟨c.piece, List.mem_of_getElem? hlayer, hpush⟩

theorem CapabilityTable.blocks_eq_false_iff {s : Stack} :
    t.blocks s = false ↔ ∀ x ∈ s, (t.ofPiece x).blocking = false := by
  simp [blocks]

namespace Position

/-- Going back and then forth. -/
theorem advance_reverse_advance {j k : Nat} (p : Position) (d : Direction) (h : j ≤ k) :
    (p.advance d.reverse k).advance d j = p.advance d.reverse (k - j) := by
  obtain ⟨row, col⟩ := p
  cases d <;>
    simp only [advance, Direction.reverse, Direction.rowStep, Direction.colStep, mk.injEq] <;>
    omega

/-- Going forth and then back. -/
theorem advance_advance_reverse {j k : Nat} (p : Position) (d : Direction) (h : j ≤ k) :
    (p.advance d k).advance d.reverse j = p.advance d (k - j) := by
  obtain ⟨row, col⟩ := p
  cases d <;>
    simp only [advance, Direction.reverse, Direction.rowStep, Direction.colStep, mk.injEq] <;>
    omega

end Position

namespace Board

/-! ## Chains on integers -/

/-- Chains are the same if each next cell is. -/
theorem chainAlong_congr (hp : b.SameCell (next p) (next' p))
    (hnext : ∀ q, b.InBounds q → b.SameCell (next q) (next' q)) :
    b.chainAlong t next limit p = b.chainAlong t next' limit p := by
  induction limit generalizing p with
  | zero =>
      rw [chainAlong, chainAlong]
      simp only [hp.inBounds_iff, hp.stackAt_eq]
  | succ limit ih =>
      rw [chainAlong, chainAlong]
      by_cases hin : b.InBounds (next' p)
      · rw [hp.eq hin, ih (hnext _ hin)]
      · simp only [hp.inBounds_iff, hin, not_false_eq_true, if_true]

theorem Valid.pushChain_eq_of_sameCell (hb : b.Valid)
    (hp : b.SameCell (p.wrappedStep d) (p.step d)) :
    b.pushChain t d limit p = b.chainAlong t (·.step d) limit p :=
  chainAlong_congr hp fun _ hq => hb.sameCell_wrappedStep hq

theorem Valid.pushChain_eq (hb : b.Valid) (hp : b.InBounds p) :
    b.pushChain t d limit p = b.chainAlong t (·.step d) limit p :=
  hb.pushChain_eq_of_sameCell (hb.sameCell_wrappedStep hp)

/-! ## The first cell of a chain -/

/-- A chain that is not refused enters a cell of the board without a blocking piece. Either it
ends there, or the cell is loaded and the chain goes on from it with one cell less to push. -/
theorem chainAlong_cases (h : b.chainAlong t next limit p = .ok pushed) :
    b.InBounds (next p) ∧ t.blocks (b.stackAt (next p)) = false ∧
      ((t.pushables (b.stackAt (next p)) = [] ∧ pushed = []) ∨
        ∃ limit' rest, limit = limit' + 1 ∧ t.pushables (b.stackAt (next p)) ≠ [] ∧
          b.chainAlong t next limit' (next p) = .ok rest ∧
          pushed = t.pushables (b.stackAt (next p)) ++ rest) := by
  rw [chainAlong.eq_def] at h
  dsimp only at h
  split at h
  · cases h
  next hin =>
    split at h
    · cases h
    next hblocks =>
      rw [Bool.not_eq_true] at hblocks
      refine ⟨not_not.mp hin, hblocks, ?_⟩
      split at h
      next hempty =>
        cases h
        exact .inl ⟨List.isEmpty_iff.mp hempty, rfl⟩
      next hload =>
        rw [List.isEmpty_iff] at hload
        cases limit with
        | zero => cases h
        | succ limit' =>
            cases hrest : b.chainAlong t next limit' (next p) with
            | error e =>
                simp only [hrest] at h
                cases h
            | ok rest =>
                simp only [hrest] at h
                cases h
                exact .inr ⟨limit', rest, rfl, hload, hrest, rfl⟩

theorem chainAlong_of_rest {rest : List Pushed} (hin : b.InBounds (next p))
    (hblocks : t.blocks (b.stackAt (next p)) = false)
    (hload : t.pushables (b.stackAt (next p)) ≠ [])
    (hrest : b.chainAlong t next limit (next p) = .ok rest) :
    b.chainAlong t next (limit + 1) p = .ok (t.pushables (b.stackAt (next p)) ++ rest) := by
  have hempty : (t.pushables (b.stackAt (next p))).isEmpty = false := by
    simpa using hload
  rw [chainAlong]
  simp only [hin, not_true_eq_false, if_false, hblocks, Bool.false_eq_true, hempty, hrest]
  rfl

theorem chainAlong_of_unloaded (hin : b.InBounds (next p))
    (hblocks : t.blocks (b.stackAt (next p)) = false)
    (hload : t.pushables (b.stackAt (next p)) = []) (limit : Nat) :
    b.chainAlong t next limit p = .ok [] := by
  cases limit <;> simp [chainAlong, hin, hblocks, hload]

/-- Nothing is reached over a cell that is not loaded. -/
theorem not_reached_of_unloaded {c : Pushed}
    (hload : t.pushables (b.stackAt (p.step d)) = []) :
    ¬ ∃ k, 0 < k ∧ c ∈ t.pushables (b.stackAt (p.advance d k)) ∧
      ∀ j, 0 < j → j < k → t.Loaded (b.stackAt (p.advance d j)) := by
  rintro ⟨k, hk, hc, hbetween⟩
  rcases Nat.eq_or_lt_of_le hk with rfl | hk'
  · rw [Position.advance_one, hload] at hc
    exact List.not_mem_nil hc
  · have hone := hbetween 1 Nat.one_pos hk'
    rw [Position.advance_one, CapabilityTable.loaded_iff] at hone
    exact hone hload

/-! ## Longer limits and later cells -/

/-- A chain that keeps to a limit keeps to every greater one. -/
theorem chainAlong_mono {limit' : Nat} (h : b.chainAlong t next limit p = .ok pushed)
    (hle : limit ≤ limit') : b.chainAlong t next limit' p = .ok pushed := by
  -- a loaded cell takes one off both limits, so the induction has to vary the greater one
  induction limit generalizing p pushed limit' with
  | zero =>
      obtain ⟨hin, hblocks, ⟨hload, rfl⟩ | ⟨n, rest, hn, -⟩⟩ := chainAlong_cases h
      · exact chainAlong_of_unloaded hin hblocks hload limit'
      · exact absurd hn (by omega)
  | succ limit ih =>
      obtain ⟨hin, hblocks, ⟨hload, rfl⟩ | ⟨n, rest, hn, hload, hrest, rfl⟩⟩ := chainAlong_cases h
      · exact chainAlong_of_unloaded hin hblocks hload limit'
      · obtain rfl : n = limit := by omega
        obtain ⟨more, rfl⟩ : ∃ more, limit' = more + 1 := ⟨limit' - 1, by omega⟩
        exact chainAlong_of_rest hin hblocks hload (ih hrest (by omega))

/-- A line that has left the board after so many cells has no use for a greater limit. -/
theorem chainAlong_succ (hoff : ¬ b.InBounds (p.advance d (limit + 1))) :
    b.chainAlong t (·.step d) (limit + 1) p = b.chainAlong t (·.step d) limit p := by
  induction limit generalizing p with
  | zero =>
      rw [Position.advance_one] at hoff
      rw [chainAlong, chainAlong]
      simp only [hoff, not_false_eq_true, if_true]
  | succ limit ih =>
      rw [← Position.advance_step] at hoff
      rw [chainAlong, ih hoff]
      rfl

/-- A line that starts on the board has left it after as many cells as the board has rows, and as
it has columns. -/
theorem not_inBounds_advance_of_le {k : Nat} (hp : b.InBounds p) (h : max b.rows b.cols ≤ k) :
    ¬ b.InBounds (p.advance d k) := by
  rintro ⟨g1, g2, g3, g4⟩
  obtain ⟨h1, h2, h3, h4⟩ := hp
  cases d <;>
    simp only [Position.advance, Direction.rowStep, Direction.colStep] at * <;>
    omega

/-- No limit from the greater dimension of the board on is ever reached. -/
theorem chainAlong_of_le (hp : b.InBounds p) (h : max b.rows b.cols ≤ limit) :
    b.chainAlong t (·.step d) limit p = b.chainAlong t (·.step d) (max b.rows b.cols) p := by
  obtain ⟨k, rfl⟩ := Nat.exists_eq_add_of_le h
  induction k with
  | zero => rfl
  | succ k ih =>
      have hoff : ¬ b.InBounds (p.advance d (max b.rows b.cols + k + 1)) :=
        not_inBounds_advance_of_le hp (by omega)
      rw [← Nat.add_assoc, chainAlong_succ hoff, ih (Nat.le_add_right _ k)]

/-- From every cell that a chain goes through, the rest of it is a chain. -/
theorem chainAlong_advance {k : Nat} (h : b.chainAlong t (·.step d) limit p = .ok pushed)
    (hload : ∀ j, 0 < j → j ≤ k → t.Loaded (b.stackAt (p.advance d j))) :
    ∃ rest, b.chainAlong t (·.step d) limit (p.advance d k) = .ok rest := by
  induction k with
  | zero =>
      rw [Position.advance_zero]
      exact ⟨pushed, h⟩
  | succ k ih =>
      obtain ⟨rest, hrest⟩ := ih fun j hj hjk => hload j hj (by omega)
      have hnext := hload (k + 1) (by omega) (Nat.le_refl _)
      rw [CapabilityTable.loaded_iff, ← Position.step_advance] at hnext
      obtain ⟨-, -, ⟨hempty, -⟩ | ⟨n, rest', hn, -, hrest', -⟩⟩ := chainAlong_cases hrest
      · exact absurd hempty hnext
      · rw [← Position.step_advance]
        exact ⟨rest', chainAlong_mono hrest' (by omega)⟩

/-- The pieces of a chain are the pushable pieces of the cells that are reached over loaded
cells. -/
theorem mem_chainAlong_iff {c : Pushed} (h : b.chainAlong t (·.step d) limit p = .ok pushed) :
    c ∈ pushed ↔ ∃ k, 0 < k ∧ c ∈ t.pushables (b.stackAt (p.advance d k)) ∧
      ∀ j, 0 < j → j < k → t.Loaded (b.stackAt (p.advance d j)) := by
  induction limit generalizing p pushed with
  | zero =>
      obtain ⟨-, -, ⟨hload, rfl⟩ | ⟨n, rest, hn, -⟩⟩ := chainAlong_cases h
      · exact iff_of_false List.not_mem_nil (not_reached_of_unloaded hload)
      · exact absurd hn (by omega)
  | succ limit ih =>
      obtain ⟨-, -, ⟨hload, rfl⟩ | ⟨n, rest, hn, hload, hrest, rfl⟩⟩ := chainAlong_cases h
      · exact iff_of_false List.not_mem_nil (not_reached_of_unloaded hload)
      · obtain rfl : n = limit := by omega
        rw [List.mem_append, ih hrest]
        -- the pieces of the first cell, and those `k` cells behind it
        constructor
        · rintro (hc | ⟨k, hk, hc, hbetween⟩)
          · rw [← Position.advance_one] at hc
            exact ⟨1, Nat.one_pos, hc, fun j _ _ => by omega⟩
          · rw [Position.advance_step] at hc
            refine ⟨k + 1, by omega, hc, fun j hj hjk => ?_⟩
            obtain ⟨i, rfl⟩ : ∃ i, j = i + 1 := ⟨j - 1, by omega⟩
            rcases Nat.eq_zero_or_pos i with rfl | hi
            · rw [Nat.zero_add, Position.advance_one, CapabilityTable.loaded_iff]
              exact hload
            · rw [← Position.advance_step]
              exact hbetween i hi (by omega)
        · rintro ⟨k, hk, hc, hbetween⟩
          obtain ⟨i, rfl⟩ : ∃ i, k = i + 1 := ⟨k - 1, by omega⟩
          rcases Nat.eq_zero_or_pos i with rfl | hi
          · rw [Nat.zero_add, Position.advance_one] at hc
            exact .inl hc
          · rw [← Position.advance_step] at hc
            refine .inr ⟨i, hi, hc, fun j hj hji => ?_⟩
            rw [Position.advance_step]
            exact hbetween (j + 1) (by omega) (by omega)

end Board

end WordTiles
