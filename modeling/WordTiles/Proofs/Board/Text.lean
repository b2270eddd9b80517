import WordTiles.Proofs.Move.Shift
import WordTiles.Reading

/-!
# Reading depends on text alone

Of each cell, what is read from a board sees only the words of its tiles, in their order
(`Board.SameText.read_eq`). The tiles of a cell stay as they are when other pieces are changed,
moved or left out (`Board.tiles_mapPieces`, `Board.Valid.tiles_shift`,
`Board.tiles_filterPieces`).
-/

set_option autoImplicit false

namespace WordTiles

/-! ## The tiles of a stack -/

namespace Stack

variable {s : Stack}

theorem mem_tiles_iff {x : Piece} : x ∈ s.tiles ↔ x ∈ s ∧ x.kind.isTile = true :=
  List.mem_filter

theorem filterMap_word?_eq (s : Stack) :
    s.filterMap (·.kind.word?) = s.tiles.filterMap (·.kind.word?) := by
  rw [tiles, List.filterMap_filter]
  apply List.filterMap_congr
  intro x _
  cases x.kind <;> rfl

theorem tiles_append (s s' : Stack) : tiles (s ++ s') = s.tiles ++ s'.tiles :=
  List.filter_append ..

/-- A change that keeps every tile as it is, and makes no new one, keeps the tiles. -/
theorem tiles_map {f : Piece → Piece} (hkind : ∀ x, (f x).kind.isTile = x.kind.isTile)
    (htile : ∀ x, x.kind.isTile = true → f x = x) : tiles (s.map f) = s.tiles := by
  have hsame : ∀ x ∈ s.tiles, f x = id x := fun x hx => htile x (mem_tiles_iff.mp hx).2
  calc tiles (s.map f)
      = (s.filter fun x => (f x).kind.isTile).map f := List.filter_map
    _ = s.tiles.map f := by simp only [hkind]; rfl
    _ = s.tiles := by rw [List.map_congr_left hsame, List.map_id]

/-- Leaving out pieces that are no tiles keeps the tiles. -/
theorem tiles_filter {keep : Piece → Bool} (h : ∀ x ∈ s.tiles, keep x = true) :
    tiles (s.filter keep) = s.tiles := by
  calc tiles (s.filter keep)
      = s.tiles.filter keep := List.filter_comm ..
    _ = s.tiles := List.filter_eq_self.mpr h

theorem tiles_eq_nil (h : ∀ x ∈ s, x.kind.isTile = false) : s.tiles = [] := by
  apply List.filter_eq_nil_iff.mpr
  intro x hx
  simp [h x hx]

end Stack

namespace Board

variable {b b' : Board} {p : Position} {x : Piece}

/-! ## Boards with the same text -/

theorem positions_congr (hb : b.Sized) (hb' : b'.Sized) (hrows : b'.rows = b.rows)
    (hcols : b'.cols = b.cols) : b'.positions = b.positions := by
  have hsize : b'.cells.size = b.cells.size := by
    rw [show b'.cells.size = b'.rows * b'.cols from hb', hrows, hcols]
    exact hb.symm
  have hposition : b'.positionAt = b.positionAt := by
    funext i
    rw [positionAt, hcols, positionAt]
  rw [positions, hsize, hposition, positions]

/-- Boards of one size whose cells have the same words in the same order. -/
structure SameText (b b' : Board) : Prop where
  rows_eq : b'.rows = b.rows
  cols_eq : b'.cols = b.cols
  words_eq : ∀ p, (b'.stackAt p).filterMap (·.kind.word?) = (b.stackAt p).filterMap (·.kind.word?)

namespace SameText

theorem of_tiles (hrows : b'.rows = b.rows) (hcols : b'.cols = b.cols)
    (h : ∀ p, (b'.stackAt p).tiles = (b.stackAt p).tiles) : b.SameText b' where
  rows_eq := hrows
  cols_eq := hcols
  words_eq p := by rw [Stack.filterMap_word?_eq, h, ← Stack.filterMap_word?_eq]

theorem wordsAlong_eq (h : b.SameText b') (next : Position → Position) (limit : Nat)
    (p : Position) : b'.wordsAlong next limit p = b.wordsAlong next limit p := by
  have htop : ∀ q, (b'.stackAt q).topWord? = (b.stackAt q).topWord? := fun q => by
    rw [Stack.topWord?, h.words_eq, Stack.topWord?]
  induction limit generalizing p with
  | zero => rfl
  | succ limit ih => rw [wordsAlong, htop, ih, wordsAlong]

theorem runFrom_eq (h : b.SameText b') (p : Position) (w : String) (d : Direction) :
    b'.runFrom p w d = b.runFrom p w d := by
  rw [runFrom, h.wordsAlong_eq, h.rows_eq, h.cols_eq, runFrom]

/-- The same rules and the same rejected runs are read, in the same order. -/
theorem read_eq (h : b.SameText b') (hb : b.Sized) (hb' : b'.Sized) : b'.read = b.read := by
  have hruns : b'.runs = b.runs := by
    rw [runs, runs, positions_congr hb hb' h.rows_eq h.cols_eq]
    simp only [h.words_eq, h.runFrom_eq]
  rw [read, hruns, read]

end SameText

/-! ## Changes that do not touch the tiles -/

theorem tiles_mapPieces (hb : b.Sized) {f : Piece → Piece}
    (hkind : ∀ x, (f x).kind.isTile = x.kind.isTile)
    (htile : ∀ x, x.kind.isTile = true → f x = x) (p : Position) :
    ((b.mapPieces f).stackAt p).tiles = (b.stackAt p).tiles := by
  rw [stackAt_mapPieces hb]
  exact Stack.tiles_map hkind htile

theorem tiles_filterPieces (hb : b.Sized) {keep : Piece → Bool}
    (h : ∀ x ∈ b.pieces, x.kind.isTile = true → keep x = true) (p : Position) :
    ((b.filterPieces keep).stackAt p).tiles = (b.stackAt p).tiles := by
  rw [stackAt_filterPieces hb]
  apply Stack.tiles_filter
  intro x hx
  obtain ⟨hx, htile⟩ := Stack.mem_tiles_iff.mp hx
  exact h x ((mem_pieces_iff hb).mpr ⟨p, hx⟩) htile

/-- Where no tile moves, a shift puts other pieces on top of the tiles that are there. -/
theorem Valid.tiles_shift (hb : b.Valid) {moving : PieceId → Bool}
    (hstill : ∀ x ∈ b.pieces, x.kind.isTile = true → moving x.id = false) (d : Direction)
    (p : Position) : ((b.shift d moving).stackAt p).tiles = (b.stackAt p).tiles := by
  have hmem : ∀ q x, x ∈ b.stackAt q → x.kind.isTile = true → moving x.id = false :=
    fun q x hx => hstill x ((mem_pieces_iff hb.sized).mpr ⟨q, hx⟩)
  by_cases hp : b.InBounds p
  · have hstay : Stack.tiles ((b.stackAt p).filter fun x => !moving x.id) =
        (b.stackAt p).tiles := by
      apply Stack.tiles_filter
      intro x hx
      obtain ⟨hx, htile⟩ := Stack.mem_tiles_iff.mp hx
      rw [hmem p x hx htile]
      rfl
    have harrive : Stack.tiles (((b.stackAt (p.step d.reverse)).filter fun x => moving x.id).map
        (·.arrive p d)) = [] := by
      apply Stack.tiles_eq_nil
      intro y hy
      obtain ⟨x, hx, rfl⟩ := List.mem_map.mp hy
      obtain ⟨hx, hmoving⟩ := List.mem_filter.mp hx
      show x.kind.isTile = false
      by_contra htile
      rw [hmem _ x hx (Bool.not_eq_false _ ▸ htile)] at hmoving
      cases hmoving
    rw [stackAt_shift hb.sized hp, Stack.tiles_append, hstay, harrive, List.append_nil]
  · have hp' : ¬ (b.shift d moving).InBounds p := hp
    rw [stackAt_of_not_inBounds hp, stackAt_of_not_inBounds hp']

end Board

end WordTiles
