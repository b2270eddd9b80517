import WordTiles.Proofs.Board.Restack
import WordTiles.Transformation

/-!
# Transformations as one change of the board

The changes that rules call for are planned first and then applied one after the other. On a
valid board none is refused, and together they change every piece once, each from the kind it
had before the round (`Board.Valid.transform_eq`).

Of several changes of one noun, the first rule wins. So the order of the rules matters, but only
when a noun has two targets other than itself (`RuleSet.becomes?_perm`).
-/

set_option autoImplicit false

namespace WordTiles

def Kind.recast (rs : RuleSet) : Kind → Kind
  | .thing n => .thing ((rs.becomes? n).getD n)
  | .tile w => .tile w

/-- The piece after the change that the rules call for. -/
def Piece.recast (rs : RuleSet) (x : Piece) : Piece := { x with kind := x.kind.recast rs }

/-! ## The order of the rules -/

namespace RuleSet

variable {rs rs' : RuleSet} {n m : Noun}

/-- No noun has two targets other than itself. -/
def Unambiguous (rs : RuleSet) : Prop :=
  ∀ e ∈ rs.transformations, ∀ e' ∈ rs.transformations,
    e.1 = e'.1 → e.2 ≠ e.1 → e'.2 ≠ e'.1 → e.2 = e'.2

instance (rs : RuleSet) : Decidable rs.Unambiguous := by
  unfold Unambiguous; infer_instance

theorem pins_iff : rs.pins n = true ↔ (n, n) ∈ rs.transformations := List.contains_iff_mem

/-- Then a noun becomes what any of its rules says, unless it is pinned. -/
theorem Unambiguous.becomes?_eq_some_iff (hrs : rs.Unambiguous) :
    rs.becomes? n = some m ↔ (n, n) ∉ rs.transformations ∧ (n, m) ∈ rs.transformations := by
  rw [becomes?]
  by_cases hpins : rs.pins n = true
  · simp [hpins, pins_iff.mp hpins]
  · rw [if_neg hpins]
    rw [pins_iff] at hpins
    -- as the noun is not pinned, none of its targets is the noun itself
    have hne : ∀ m', (n, m') ∈ rs.transformations → m' ≠ n := by
      rintro m' hm' rfl
      exact hpins hm'
    simp only [hpins, not_false_eq_true, true_and]
    cases hlookup : rs.transformations.lookup n with
    | none =>
        have hnone := List.lookup_eq_none_iff.mp hlookup
        refine iff_of_false (by simp) fun hm => ?_
        simpa using hnone _ hm
    | some m' =>
        obtain ⟨before, after, hsplit, -⟩ := List.lookup_eq_some_iff.mp hlookup
        have hm' : (n, m') ∈ rs.transformations := by rw [hsplit]; simp
        constructor
        · intro h
          rw [← Option.some.inj h]
          exact hm'
        · intro hm
          exact congrArg some (hrs _ hm' _ hm rfl (hne m' hm') (hne m hm))

/-- When no noun has two targets other than itself, the order of the rules does not matter. -/
theorem becomes?_perm (h : rs'.rules.Perm rs.rules) (hrs : rs.Unambiguous) (n : Noun) :
    rs'.becomes? n = rs.becomes? n := by
  have hmem : ∀ e, e ∈ rs'.transformations ↔ e ∈ rs.transformations := fun e =>
    (List.Perm.flatMap_right _ h).mem_iff
  have hrs' : rs'.Unambiguous := fun e he e' he' =>
    hrs e ((hmem e).mp he) e' ((hmem e').mp he')
  apply Option.ext
  intro m
  rw [hrs'.becomes?_eq_some_iff, hrs.becomes?_eq_some_iff, hmem, hmem]

end RuleSet

theorem Kind.recast_perm {rs rs' : RuleSet} (h : rs'.rules.Perm rs.rules) (hrs : rs.Unambiguous)
    (k : Kind) : k.recast rs' = k.recast rs := by
  cases k with
  | thing n => rw [recast, RuleSet.becomes?_perm h hrs, recast]
  | tile w => rfl

/-! ## One change after the other -/

namespace Transformation

variable {rs : RuleSet} {x : Piece} {c : Transformation}

theorem recast_of_ofPiece?_eq_none (h : ofPiece? rs x = none) : x.recast rs = x := by
  obtain ⟨id, kind, position, facing⟩ := x
  cases kind with
  | tile w => rfl
  | thing n =>
      have hn : rs.becomes? n = none := by simpa [ofPiece?, Kind.noun?] using h
      simp [Piece.recast, Kind.recast, hn]

/-- A change names its piece and the kind that the piece gets. -/
theorem of_ofPiece?_eq_some (h : ofPiece? rs x = some c) :
    c.piece = x.id ∧ x.recast rs = { x with kind := .thing c.target } := by
  obtain ⟨id, kind, position, facing⟩ := x
  cases kind with
  | tile w => simp [ofPiece?, Kind.noun?] at h
  | thing n =>
      obtain ⟨target, hn, rfl⟩ : ∃ target, rs.becomes? n = some target ∧ _ = c := by
        simpa [ofPiece?, Kind.noun?] using h
      exact ⟨rfl, by simp [Piece.recast, Kind.recast, hn]⟩

/-- What a change makes of a piece: only the piece that it names becomes another one. -/
def onPiece (c : Transformation) (y : Piece) : Piece :=
  if y.id = c.piece then { y with kind := .thing c.target } else y

theorem onPiece_id (c : Transformation) (y : Piece) : (c.onPiece y).id = y.id := by
  unfold onPiece
  split <;> rfl

theorem onPiece_position (c : Transformation) (y : Piece) :
    (c.onPiece y).position = y.position := by
  unfold onPiece
  split <;> rfl

theorem apply_eq {b : Board} (hb : b.Valid) (hx : x ∈ b.pieces) (hpiece : c.piece = x.id) :
    apply b c = .ok (b.mapPieces c.onPiece) := by
  rw [apply, hpiece, hb.setKind_eq hx]
  unfold onPiece
  rw [hpiece]
  rfl

/-- The changes of some pieces, applied one after the other, change these pieces. -/
theorem foldlM_apply_eq {b : Board} (hb : b.Valid) {l : List Piece} (hl : ∀ x ∈ l, x ∈ b.pieces)
    (hnodup : (l.map (·.id)).Nodup) :
    (l.filterMap (ofPiece? rs)).foldlM apply b =
      .ok (b.mapPieces fun y => if y.id ∈ l.map (·.id) then y.recast rs else y) := by
  induction l generalizing b with
  | nil =>
      simp only [List.filterMap_nil, List.foldlM_nil, List.map_nil, List.not_mem_nil, if_false]
      rw [Board.mapPieces_id hb.sized]
      rfl
  | cons x rest ih =>
      rw [List.forall_mem_cons] at hl
      rw [List.map_cons, List.nodup_cons] at hnodup
      have hx : ∀ y ∈ b.pieces, y.id = x.id → y = x := fun y hy =>
        Stack.eq_of_id_eq hb.ids_nodup hy hl.1
      cases hc : ofPiece? rs x with
      | none =>
          rw [List.filterMap_cons_none hc, ih hb hl.2 hnodup.2]
          congr 1
          apply Board.mapPieces_congr hb.sized
          intro y hy
          -- the rules leave the first piece as it is
          by_cases hyx : y.id = x.id
          · simp [hx y hy hyx, recast_of_ofPiece?_eq_none hc]
          · simp [hyx]
      | some c =>
          obtain ⟨hpiece, hrecast⟩ := of_ofPiece?_eq_some hc
          have hb' : (b.mapPieces c.onPiece).Valid :=
            hb.mapPieces c.onPiece_id c.onPiece_position
          -- the pieces still to come have not been touched
          have hrest : ∀ y ∈ rest, y ∈ (b.mapPieces c.onPiece).pieces := by
            intro y hy
            have hne : y.id ≠ c.piece := by
              rw [hpiece]
              exact fun h => hnodup.1 (List.mem_map.mpr ⟨y, hy, h⟩)
            exact (Board.mem_pieces_mapPieces hb.sized).mpr ⟨y, hl.2 y hy, if_neg hne⟩
          rw [List.filterMap_cons_some hc, List.foldlM_cons, apply_eq hb hl.1 hpiece]
          show List.foldlM apply _ _ = _
          rw [ih hb' hrest hnodup.2, Board.mapPieces_mapPieces hb.sized]
          congr 1
          apply Board.mapPieces_congr hb.sized
          intro y hy
          rw [onPiece_id, onPiece, hpiece]
          by_cases hyx : y.id = x.id
          · simp [hx y hy hyx, hnodup.1, hrecast]
          · simp [hyx]

end Transformation

namespace Board

variable {b : Board}

/-- The changes that the rules call for, one after the other, change every piece once. -/
theorem Valid.foldlM_transformations_eq (hb : b.Valid) (rs : RuleSet) :
    (b.transformations rs).foldlM Transformation.apply b = .ok (b.mapPieces (·.recast rs)) := by
  rw [transformations, Transformation.foldlM_apply_eq hb (fun _ hx => hx) hb.ids_nodup]
  congr 1
  apply mapPieces_congr hb.sized
  intro y hy
  exact if_pos (List.mem_map.mpr ⟨y, hy, rfl⟩)

/-- On a valid board the changes are never refused, and every piece changes once. -/
theorem Valid.transform_eq (hb : b.Valid) (rs : RuleSet) :
    b.transform rs = .ok (b.mapPieces (·.recast rs), b.transformations rs) := by
  rw [transform, hb.foldlM_transformations_eq]
  rfl

theorem Valid.mapPieces_recast (hb : b.Valid) (rs : RuleSet) :
    (b.mapPieces (·.recast rs)).Valid :=
  hb.mapPieces (fun _ => rfl) fun _ => rfl

end Board

end WordTiles
