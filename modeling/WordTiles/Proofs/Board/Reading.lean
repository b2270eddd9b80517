import Mathlib.Data.List.ProdSigma
import Mathlib.Data.Set.Card
import WordTiles.Proofs.Board.Standing
import WordTiles.Proofs.Rule.Grammar
import WordTiles.Reading

/-!
# What is read from a board

The words that are read from a tile in a direction, said without reading: `Board.Spells` tells
them cell by cell, by what is on the board and where it ends. On integers these are the words in
front of the tile (`spells_iff`), and from a cell of a valid board coordinates of 32 bits find the
same (`runFrom_eq`), once for each tile and direction (`runs_eq`). So the rules and the rejected
runs can be counted by the tiles and directions they are read from (`count_filterMap_runs`).

The main statement is `Board.read_sound_complete`.
-/

set_option autoImplicit false

namespace WordTiles

theorem Kind.word?_eq_some_iff {k : Kind} {w : String} : k.word? = some w ↔ k = .tile w := by
  cases k <;> simp [Kind.word?]

theorem Kind.word?_eq_none_iff {k : Kind} : k.word? = none ↔ k.isTile = false := by
  cases k <;> simp [Kind.word?, Kind.isTile]

/-! ## The word that a stack shows -/

namespace Stack

variable {s : Stack} {w : String}

def Textless (s : Stack) : Prop := ∀ x ∈ s, x.kind.isTile = false

/-- The topmost tile of the stack has this word: above it there is no other tile. -/
def Shows (s : Stack) (w : String) : Prop :=
  ∃ below x above, s = below ++ x :: above ∧ x.kind = .tile w ∧ Textless above

theorem topWord?_concat (s : Stack) (x : Piece) :
    topWord? (s ++ [x]) = x.kind.word?.or (topWord? s) := by
  cases hx : x.kind.word? <;> simp [topWord?, hx]

theorem topWord?_eq_none_iff : s.topWord? = none ↔ s.Textless := by
  simp only [topWord?, List.getLast?_eq_none_iff, List.filterMap_eq_nil_iff,
    Kind.word?_eq_none_iff]
  rfl

theorem topWord?_eq_some_iff : s.topWord? = some w ↔ s.Shows w := by
  constructor
  · intro htop
    induction s using List.reverseRecOn with
    | nil => cases htop
    | append_singleton s x ih =>
        rw [topWord?_concat] at htop
        cases hx : x.kind.word? with
        | some w' =>
            rw [hx, Option.some_or] at htop
            exact ⟨s, x, [], rfl, Kind.word?_eq_some_iff.mp (hx.trans htop), by simp [Textless]⟩
        -- the last piece is no tile, so the topmost tile is the one of the others
        | none =>
            rw [hx, Option.none_or] at htop
            obtain ⟨below, y, above, rfl, hy, habove⟩ := ih htop
            refine ⟨below, y, above ++ [x], by simp, hy, ?_⟩
            intro z hz
            rcases List.mem_append.mp hz with hz | hz
            · exact habove z hz
            · rw [List.mem_singleton.mp hz]
              exact Kind.word?_eq_none_iff.mp hx
  · rintro ⟨below, x, above, rfl, hx, habove⟩
    have hnone : above.filterMap (·.kind.word?) = [] :=
      List.filterMap_eq_nil_iff.mpr fun y hy => Kind.word?_eq_none_iff.mpr (habove y hy)
    simp [topWord?, hnone, Kind.word?_eq_some_iff.mpr hx]

end Stack

namespace Board

variable {b : Board} {p : Position} {x : Piece} {d : Direction} {ws : List String} {w : String}

/-! ## The words in front of a position -/

/-- The words of the topmost tiles in front of a position, up to the first cell without text or
the edge of the board. -/
def wordsAhead (b : Board) (d : Direction) (p : Position) : List String :=
  b.wordsAlong (·.step d) (b.rows + b.cols) p

/-- Looking farther than the edge of the board shows no more words. -/
theorem wordsAlong_succ {limit : Nat} (h : ¬ b.InBounds (p.advance d (limit + 1))) :
    b.wordsAlong (·.step d) (limit + 1) p = b.wordsAlong (·.step d) limit p := by
  induction limit generalizing p with
  | zero =>
      rw [Position.advance_one] at h
      simp only [wordsAlong, stackAt_of_not_inBounds h]
      rfl
  | succ limit ih =>
      rw [← Position.advance_step] at h
      rw [wordsAlong, ih h]
      rfl

/-- The words in front of a position are the word in the next cell and those in front of that
cell, or none if the next cell shows no text. -/
theorem wordsAhead_eq (b : Board) (d : Direction) (p : Position) :
    b.wordsAhead d p =
      match (b.stackAt (p.step d)).topWord? with
      | some w => w :: b.wordsAhead d (p.step d)
      | none => [] := by
  by_cases h : b.InBounds (p.step d)
  · rw [wordsAhead, ← wordsAlong_succ (not_inBounds_advance h)]
    rfl
  · have hnone : (b.stackAt (p.step d)).topWord? = none := by
      rw [stackAt_of_not_inBounds h]
      rfl
    rw [wordsAhead]
    cases b.rows + b.cols <;> simp only [wordsAlong, hnone]

/-- From a cell of a valid board, wrapping around shows the same words. -/
theorem Valid.wordsAlong_eq {limit : Nat} (hb : b.Valid) (hp : b.InBounds p) :
    b.wordsAlong (·.wrappedStep d) limit p = b.wordsAlong (·.step d) limit p := by
  induction limit generalizing p with
  | zero => rfl
  | succ limit ih =>
      have hcell := hb.sameCell_wrappedStep (d := d) hp
      rw [wordsAlong, wordsAlong]
      by_cases hin : b.InBounds (p.step d)
      · rw [hcell.eq hin, ih hin]
      · rw [hcell.stackAt_eq, stackAt_of_not_inBounds hin]
        rfl

theorem Valid.runFrom_eq (hb : b.Valid) (hp : b.InBounds p) (w : String) (d : Direction) :
    b.runFrom p w d = ⟨p, d, w :: b.wordsAhead d p⟩ := by
  rw [runFrom, hb.wordsAlong_eq hp, wordsAhead]

/-- These are the words in front of a position: each is the one that its cell shows, and the
cell after the last one has no text or is not on the board. -/
structure ShowsAhead (b : Board) (d : Direction) (p : Position) (ws : List String) : Prop where
  shows : ∀ k w, ws[k]? = some w →
    b.InBounds (p.advance d (k + 1)) ∧ (b.stackAt (p.advance d (k + 1))).Shows w
  stops : ¬ b.InBounds (p.advance d (ws.length + 1)) ∨
    (b.stackAt (p.advance d (ws.length + 1))).Textless

theorem topWord?_stackAt_eq_none_iff :
    (b.stackAt p).topWord? = none ↔ ¬ b.InBounds p ∨ (b.stackAt p).Textless := by
  rw [Stack.topWord?_eq_none_iff]
  refine ⟨.inr, ?_⟩
  rintro (hp | hp)
  · rw [stackAt_of_not_inBounds hp]
    exact fun x hx => absurd hx List.not_mem_nil
  · exact hp

theorem topWord?_stackAt_eq_some_iff :
    (b.stackAt p).topWord? = some w ↔ b.InBounds p ∧ (b.stackAt p).Shows w := by
  rw [Stack.topWord?_eq_some_iff]
  refine ⟨?_, And.right⟩
  intro hshows
  obtain ⟨below, x, above, hstack, -, -⟩ := id hshows
  exact ⟨inBounds_of_mem (x := x) (by rw [hstack]; simp), hshows⟩

theorem showsAhead_nil_iff :
    b.ShowsAhead d p [] ↔ (b.stackAt (p.step d)).topWord? = none := by
  have hstep : p.advance d (0 + 1) = p.step d := p.advance_one d
  rw [topWord?_stackAt_eq_none_iff, ← hstep]
  exact ⟨fun h => h.stops, fun h => ⟨fun k w hk => by simp at hk, h⟩⟩

theorem showsAhead_cons_iff :
    b.ShowsAhead d p (w :: ws) ↔
      (b.stackAt (p.step d)).topWord? = some w ∧ b.ShowsAhead d (p.step d) ws := by
  have hstep : p.advance d (0 + 1) = p.step d := p.advance_one d
  rw [topWord?_stackAt_eq_some_iff, ← hstep]
  constructor
  · rintro ⟨hshows, hstops⟩
    refine ⟨hshows 0 w rfl, fun k w' hk => ?_, ?_⟩
    · rw [hstep, Position.advance_step]
      exact hshows (k + 1) w' hk
    · rw [hstep, Position.advance_step]
      exact hstops
  · rintro ⟨hfirst, hshows, hstops⟩
    rw [hstep, Position.advance_step] at hstops
    refine ⟨fun k w' hk => ?_, hstops⟩
    cases k with
    | zero => exact Option.some.inj hk ▸ hfirst
    | succ k =>
        rw [← Position.advance_step, ← hstep]
        exact hshows k w' hk

/-- Looking ahead finds the words in front of a position, and they are the only ones. -/
theorem showsAhead_iff : b.ShowsAhead d p ws ↔ ws = b.wordsAhead d p := by
  induction ws generalizing p with
  | nil =>
      rw [showsAhead_nil_iff, wordsAhead_eq]
      cases (b.stackAt (p.step d)).topWord? <;> simp
  | cons w ws ih =>
      rw [showsAhead_cons_iff, wordsAhead_eq, ih]
      cases (b.stackAt (p.step d)).topWord? with
      | none => simp
      | some w' => simp [eq_comm (a := w)]

/-! ## The words read from a tile -/

/-- These words are read from a piece in a direction: the word of the piece itself, which is a
tile, and then the words in front of it. -/
def Spells (b : Board) (x : Piece) (d : Direction) (ws : List String) : Prop :=
  ∃ w ahead, ws = w :: ahead ∧ x.kind = .tile w ∧ b.ShowsAhead d x.position ahead

/-- Words are read from the tiles of the board, and only rightward and downward. -/
structure Starts (b : Board) (x : Piece) (d : Direction) : Prop where
  mem_pieces : x ∈ b.pieces
  isTile : x.kind.isTile = true
  direction : d = .right ∨ d = .down

/-- The tiles and directions from which the words are read. -/
def startsOf (b : Board) (ws : List String) : Set (Piece × Direction) :=
  {start | b.Starts start.1 start.2 ∧ b.Spells start.1 start.2 ws}

theorem spells_iff :
    b.Spells x d ws ↔ ∃ w, x.kind.word? = some w ∧ ws = w :: b.wordsAhead d x.position := by
  simp only [Spells, showsAhead_iff, Kind.word?_eq_some_iff]
  constructor
  · rintro ⟨w, ahead, rfl, hx, rfl⟩
    exact ⟨w, hx, rfl⟩
  · rintro ⟨w, hx, rfl⟩
    exact ⟨w, _, rfl, hx, rfl⟩

theorem Starts.existsUnique_spells (h : b.Starts x d) : ∃! ws, b.Spells x d ws := by
  cases hx : x.kind.word? with
  | none =>
      rw [Kind.word?_eq_none_iff, h.isTile] at hx
      cases hx
  | some w =>
      refine ⟨_, spells_iff.mpr ⟨w, hx, rfl⟩, fun ws hws => ?_⟩
      obtain ⟨w', hx', rfl⟩ := spells_iff.mp hws
      rw [hx] at hx'
      rw [Option.some.inj hx']

/-! ## Counting what is read -/

theorem mem_directions_iff : d ∈ Run.directions ↔ d = .right ∨ d = .down := by
  cases d <;> decide

/-- The run from a piece in a direction, if the piece is a tile. -/
def runOf (b : Board) (start : Piece × Direction) : Option Run :=
  start.1.kind.word?.map fun w => b.runFrom start.1.position w start.2

theorem Valid.runOf_eq (hb : b.Valid) (hx : x ∈ b.pieces) (d : Direction) :
    b.runOf (x, d) =
      x.kind.word?.map fun w => ⟨x.position, d, w :: b.wordsAhead d x.position⟩ := by
  have hin := inBounds_of_mem (hb.mem_stackAt_of_mem_pieces hx)
  simp only [runOf, hb.runFrom_eq hin]

/-- On a valid board, the runs are those from each piece in each direction. -/
theorem Valid.runs_eq (hb : b.Valid) : b.runs = (b.pieces ×ˢ Run.directions).filterMap b.runOf := by
  have hproduct : b.pieces ×ˢ Run.directions =
      b.positions.flatMap fun p =>
        (b.stackAt p).flatMap fun x => Run.directions.map (Prod.mk x) := by
    rw [← List.flatMap_assoc, ← pieces_eq_flatMap hb.sized]
    rfl
  rw [hproduct, List.filterMap_flatMap, runs]
  apply List.flatMap_congr
  intro p _
  rw [List.filterMap_flatMap, List.filterMap_eq_flatMap_toList, List.flatMap_assoc]
  apply List.flatMap_congr
  intro x hx
  rw [← hb.position_of_mem hx, List.filterMap_map]
  cases hword : x.kind.word? with
  | none => simp [Function.comp_def, runOf, hword]
  | some w => simp [Function.comp_def, runOf, hword]

theorem Valid.nodup_starts (hb : b.Valid) : (b.pieces ×ˢ Run.directions).Nodup :=
  hb.ids_nodup.of_map.product (by decide)

/-- In a list without repeats, a value is found as often as there are elements that give it. -/
theorem count_filterMap_eq_encard {α β : Type} [DecidableEq α] [DecidableEq β] {xs : List α}
    (h : xs.Nodup) (f : α → Option β) (y : β) :
    ((xs.filterMap f).count y : ℕ∞) = {x | x ∈ xs ∧ f x = some y}.encard := by
  have hset : {x | x ∈ xs ∧ f x = some y} =
      ((xs.filter fun x => f x == some y).toFinset : Set α) := by
    ext x
    simp
  rw [hset, Set.encard_coe_eq_coe_finsetCard, List.toFinset_card_of_nodup (h.filter _),
    List.count_filterMap, List.countP_eq_length_filter]

/-- What is made of the runs can be counted by the tiles and directions they are read from. -/
theorem Valid.count_filterMap_runs {β : Type} [DecidableEq β] (hb : b.Valid) (f : Run → Option β)
    (y : β) :
    ((b.runs.filterMap f).count y : ℕ∞) =
      {start : Piece × Direction | b.Starts start.1 start.2 ∧
        ∃ ws, b.Spells start.1 start.2 ws ∧ f ⟨start.1.position, start.2, ws⟩ = some y}.encard := by
  rw [hb.runs_eq, List.filterMap_filterMap, count_filterMap_eq_encard hb.nodup_starts]
  congr 1
  ext ⟨x, d⟩
  simp only [Set.mem_ofPred_eq, List.mem_product, mem_directions_iff, spells_iff]
  constructor
  · rintro ⟨⟨hx, hd⟩, hy⟩
    rw [hb.runOf_eq hx] at hy
    cases hword : x.kind.word? with
    | none =>
        rw [hword] at hy
        cases hy
    | some w =>
        rw [hword] at hy
        exact ⟨⟨hx, by rw [Kind.word?_eq_some_iff.mp hword]; rfl, hd⟩, _, ⟨w, rfl, rfl⟩, hy⟩
  · rintro ⟨⟨hx, -, hd⟩, -, ⟨w, hword, rfl⟩, hy⟩
    rw [hb.runOf_eq hx, hword]
    exact ⟨⟨hx, hd⟩, hy⟩

end Board

/-! ## Rules and rejected runs -/

namespace Rule

theorem two_le_length_words (r : Rule) : 2 ≤ r.words.length := by
  rw [words, List.length_append]
  exact Nat.le_add_left 2 _

theorem exists_error_iff {ws : List String} :
    (∃ e, parse ws = .error e) ↔ ∀ r : Rule, r.Grammatical → ws ≠ Line.words r.text := by
  constructor
  · rintro ⟨e, herror⟩ r hr hws
    rw [words_text hr.1] at hws
    rw [parse_eq_ok_iff.mpr ⟨hr, hws⟩] at herror
    cases herror
  · intro hnone
    cases hparse : parse ws with
    | error e => exact ⟨e, rfl⟩
    | ok r =>
        obtain ⟨hr, hws⟩ := parse_eq_ok_iff.mp hparse
        exact absurd (hws.trans (words_text hr.1).symm) (hnone r hr)

end Rule

namespace Run

variable {run : Run}

theorem rule?_eq_some_iff {r : Rule} :
    run.rule? = some r ↔ r.Grammatical ∧ run.words = r.words := by
  rw [← Rule.parse_eq_ok_iff, rule?]
  constructor
  · intro h
    split at h
    · cases h
    · cases hparse : Rule.parse run.words with
      | error e =>
          rw [hparse] at h
          cases h
      | ok r' =>
          rw [hparse] at h
          rw [Option.some.inj h]
  · intro h
    have hlength := Rule.two_le_length_words r
    rw [← (Rule.parse_eq_ok_iff.mp h).2] at hlength
    rw [if_neg (by omega), h]
    rfl

theorem rejected?_eq_some_iff {x : RejectedRun} :
    run.rejected? = some x ↔
      x.run = run ∧ 2 ≤ run.words.length ∧ Rule.parse run.words = .error x.error := by
  obtain ⟨run', e⟩ := x
  rw [rejected?]
  by_cases hlength : run.words.length < 2
  · simp [hlength]
  · cases hparse : Rule.parse run.words with
    | ok r => simp [hlength]
    | error e' =>
        have hle : 2 ≤ run.words.length := by omega
        simp [hlength, hle, eq_comm]

end Run

namespace Board

variable {b : Board}

theorem Valid.count_rules (hb : b.Valid) {r : Rule} (hr : r.Grammatical) :
    (b.read.rules.rules.count r : ℕ∞) = (b.startsOf (Line.words r.text)).encard := by
  rw [read, hb.count_filterMap_runs]
  simp only [Run.rule?_eq_some_iff, Rule.words_text hr.1, hr, true_and, exists_eq_right, startsOf]

theorem Valid.count_rejected (hb : b.Valid) {x : RejectedRun} (hlength : 2 ≤ x.run.words.length)
    (herror : Rule.parse x.run.words = .error x.error) :
    (b.read.rejected.count x : ℕ∞) =
      {start ∈ b.startsOf x.run.words |
        start.1.position = x.run.origin ∧ start.2 = x.run.direction}.encard := by
  rw [read, hb.count_filterMap_runs]
  congr 1
  ext ⟨y, d⟩
  obtain ⟨⟨p, d', ws⟩, e⟩ := x
  constructor
  · rintro ⟨hstarts, ws', hspells, hrejected⟩
    obtain ⟨hrun, -, -⟩ := Run.rejected?_eq_some_iff.mp hrejected
    cases hrun
    exact ⟨⟨hstarts, hspells⟩, rfl, rfl⟩
  · rintro ⟨⟨hstarts, hspells⟩, rfl, rfl⟩
    exact ⟨hstarts, ws, hspells, Run.rejected?_eq_some_iff.mpr ⟨rfl, hlength, herror⟩⟩

theorem grammatical_of_mem_rules {r : Rule} (h : r ∈ b.read.rules.rules) : r.Grammatical := by
  obtain ⟨run, -, hrule⟩ := List.mem_filterMap.mp h
  exact (Run.rule?_eq_some_iff.mp hrule).1

theorem of_mem_rejected {x : RejectedRun} (h : x ∈ b.read.rejected) :
    2 ≤ x.run.words.length ∧ Rule.parse x.run.words = .error x.error := by
  obtain ⟨run, -, hrejected⟩ := List.mem_filterMap.mp h
  obtain ⟨rfl, hx⟩ := Run.rejected?_eq_some_iff.mp hrejected
  exact hx

end Board

namespace Board

/-- **Reading a board finds every rule and nothing else.** On a valid board, each tile of the
board and each of the directions right and down have their words: the tile's own, and then those
of the topmost tiles of the next cells, up to the first cell without text or the edge.

* A grammatical rule is among the rules as often as its text, cut at the spaces, is what is read
  from some tile in some direction; and no other rule is among them.
* Two or more words that are the text of no grammatical rule cannot be parsed; they are rejected
  once for each tile and direction they are read from, with its position and direction and with
  the error of the parser; and nothing else is rejected.
* A single word cannot be parsed, and is no rule's text; so it is neither of these. -/
theorem read_sound_complete {b : Board} (hb : b.validate = .ok ()) :
    (∀ x d, b.Starts x d → ∃! ws, b.Spells x d ws) ∧
      (∀ r : Rule, r.Grammatical →
        (b.read.rules.rules.count r : ℕ∞) = (b.startsOf (Line.words r.text)).encard) ∧
      (∀ r ∈ b.read.rules.rules, r.Grammatical) ∧
      (∀ ws, 2 ≤ ws.length → (∀ r : Rule, r.Grammatical → ws ≠ Line.words r.text) →
        ∃ e, Rule.parse ws = .error e ∧ ∀ p d,
          (b.read.rejected.count ⟨⟨p, d, ws⟩, e⟩ : ℕ∞) =
            {start ∈ b.startsOf ws | start.1.position = p ∧ start.2 = d}.encard) ∧
      (∀ x ∈ b.read.rejected, 2 ≤ x.run.words.length ∧
        (∀ r : Rule, r.Grammatical → x.run.words ≠ Line.words r.text) ∧
        Rule.parse x.run.words = .error x.error) ∧
      ∀ w, (∃ e, Rule.parse [w] = .error e) ∧
        ∀ r : Rule, r.Grammatical → [w] ≠ Line.words r.text := by
  rw [validate_eq_ok_iff] at hb
  refine ⟨fun x d h => h.existsUnique_spells, fun r hr => hb.count_rules hr,
    fun r hr => grammatical_of_mem_rules hr, ?_, ?_, ?_⟩
  · intro ws hlength hnone
    obtain ⟨e, herror⟩ := Rule.exists_error_iff.mpr hnone
    exact ⟨e, herror, fun p d => hb.count_rejected hlength herror⟩
  · intro x hx
    obtain ⟨hlength, herror⟩ := of_mem_rejected hx
    exact ⟨hlength, Rule.exists_error_iff.mp ⟨_, herror⟩, herror⟩
  · intro w
    have hnone : ∀ r : Rule, r.Grammatical → [w] ≠ Line.words r.text := by
      intro r hr hw
      have hlength := Rule.two_le_length_words r
      rw [← Rule.words_text hr.1, ← hw] at hlength
      exact absurd hlength (by simp)
    exact ⟨Rule.exists_error_iff.mpr hnone, hnone⟩

/-- A row that says `IS YOU` behind two stacked tiles, `KEKE` on `BABA`. -/
def stackedSubjects : Board :=
  ⟨1, 3, #[[⟨.ofNat 1, .tile "BABA", ⟨0, 0⟩, .right⟩, ⟨.ofNat 2, .tile "KEKE", ⟨0, 0⟩, .right⟩],
    [⟨.ofNat 3, .tile "IS", ⟨0, 1⟩, .right⟩], [⟨.ofNat 4, .tile "YOU", ⟨0, 2⟩, .right⟩]]⟩

/-- Each of the stacked tiles has its rule, and what follows them is rejected once. -/
theorem read_stackedSubjects :
    stackedSubjects.validate = .ok () ∧
      (stackedSubjects.startsOf ["BABA", "IS", "YOU"]).encard = 1 ∧
      (stackedSubjects.startsOf ["KEKE", "IS", "YOU"]).encard = 1 ∧
      {start ∈ stackedSubjects.startsOf ["IS", "YOU"] |
        start.1.position = ⟨0, 1⟩ ∧ start.2 = .right}.encard = 1 := by
  have hvalid : stackedSubjects.validate = .ok () := by decide
  obtain ⟨-, hrules, -, hrejected, -, -⟩ := read_sound_complete hvalid
  have hrule : ∀ n ∈ [Noun.baba, Noun.keke],
      (stackedSubjects.startsOf [n.word, "IS", "YOU"]).encard = 1 := by
    intro n hn
    have hcount : stackedSubjects.read.rules.rules.count ⟨[n], .is, .action .you⟩ = 1 := by
      revert n
      decide
    have hgrammatical : Rule.Grammatical ⟨[n], .is, .action .you⟩ := ⟨by simp, fun _ _ => rfl⟩
    have hstarts := hrules _ hgrammatical
    rw [hcount, Rule.words_text hgrammatical.1] at hstarts
    exact hstarts.symm
  have hparse : Rule.parse ["IS", "YOU"] = .error (.unexpectedToken .subject "IS" "verb" 0) := rfl
  obtain ⟨e, herror, hcount⟩ :=
    hrejected ["IS", "YOU"] (by decide) (Rule.exists_error_iff.mp ⟨_, hparse⟩)
  rw [hparse] at herror
  cases herror
  refine ⟨hvalid, hrule .baba (by decide), hrule .keke (by decide), ?_⟩
  rw [← hcount]
  decide

end Board

end WordTiles
