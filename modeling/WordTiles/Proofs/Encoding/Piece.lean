import Mathlib.Algebra.GroupWithZero.Nat
import Mathlib.Data.List.Basic
import WordTiles.Encoding.Piece
import WordTiles.Proofs.Json.Record

/-!
# JSON forms of pieces, written and read

Directions, positions, nouns, identities, kinds and pieces are read from their JSON forms as what
they were written for. Only positions that coordinates can hold are read at all.

The main statements are `PieceId.ofText?_text` and `Piece.ofJson?_toJson`.
-/

set_option autoImplicit false

namespace WordTiles

theorem Direction.ofJson?_toJson (d : Direction) : ofJson? d.toJson = some d := by
  cases d
  all_goals rfl

theorem Noun.ofJson?_toJson (n : Noun) : ofJson? n.toJson = some n := by
  cases n
  all_goals rfl

theorem Position.ofJson?_toJson {p : Position} (h : p.Representable) :
    ofJson? p.toJson = some p := by
  have hfields : p.toJson.fields? ["row", "col"] =
      some [some (.integer p.row), some (.integer p.col)] :=
    Json.fields?_object (show ["row", "col"].Nodup by decide) rfl (List.Subset.refl _)
  have hrow : coordinate? (.integer p.row) = some p.row := Json.integer?_integer h.1
  have hcol : coordinate? (.integer p.col) = some p.col := Json.integer?_integer h.2
  rw [ofJson?, hfields]
  simp only [hrow, hcol]
  rfl

/-! ## Identities -/

namespace PieceId

/-- Groups of digits with hyphens between them are the digits again once the hyphens are gone. -/
theorem uncut?_intercalate_cut {sizes : List Nat} {cs : List Char} (hne : sizes ≠ [])
    (hlength : cs.length = sizes.sum) :
    uncut? sizes (['-'].intercalate (cut sizes cs)) = some cs := by
  induction sizes generalizing cs with
  | nil => exact absurd rfl hne
  | cons n sizes ih =>
      cases sizes with
      | nil =>
          have hn : cs.length = n := by simpa using hlength
          rw [cut, cut, List.intercalate_singleton, uncut?,
            List.take_of_length_le (Nat.le_of_eq hn), if_pos hn]
      | cons m sizes =>
          rw [List.sum_cons] at hlength
          have htake : (cs.take n).length = n := by
            rw [List.length_take]
            omega
          have hdrop : (cs.drop n).length = (m :: sizes).sum := by
            rw [List.length_drop]
            omega
          have hrest := ih (List.cons_ne_nil _ _) hdrop
          rw [cut, cut, List.intercalate_cons_cons, ← cut, List.append_assoc,
            List.singleton_append, uncut?]
          · rw [List.drop_append_of_le_length (by omega), List.drop_of_length_le (by omega),
              List.take_append_of_le_length (by omega), List.take_of_length_le (by omega),
              List.nil_append]
            simp only [hrest, Option.map_some, List.take_append_drop]
          · nofun

/-- Between the groups stand as many hyphens as there are groups but one. -/
theorem length_intercalate_cut {sizes : List Nat} {cs : List Char} (hne : sizes ≠ [])
    (hlength : cs.length = sizes.sum) :
    (['-'].intercalate (cut sizes cs)).length + 1 = sizes.sum + sizes.length := by
  induction sizes generalizing cs with
  | nil => exact absurd rfl hne
  | cons n sizes ih =>
      rw [List.sum_cons] at hlength
      cases sizes with
      | nil =>
          simp only [cut, List.intercalate_singleton, List.length_take, List.sum_cons,
            List.length_cons, List.sum_nil, List.length_nil] at hlength ⊢
          omega
      | cons m sizes =>
          have hdrop : (cs.drop n).length = (m :: sizes).sum := by
            rw [List.length_drop]
            omega
          have hrest := ih (List.cons_ne_nil _ _) hdrop
          simp only [cut, List.intercalate_cons_cons, List.length_append, List.length_take,
            List.length_cons, List.length_nil, List.sum_cons] at hrest hlength ⊢
          omega

/-- The written form has as many characters as only hyphenated spellings have. -/
theorem length_chars (id : PieceId) : id.chars.length = 36 :=
  Nat.succ.inj (length_intercalate_cut (by decide) (Hex.length_digits 32 id.toNat))

/-- The written form of an identity is read as this identity. -/
theorem ofText?_text (id : PieceId) : ofText? id.text = some id := by
  have hdigits : (Hex.digits 32 id.toNat).length = groups.sum := Hex.length_digits 32 id.toNat
  have huncut : uncut? groups id.chars = some (Hex.digits 32 id.toNat) :=
    uncut?_intercalate_cut (by decide) hdigits
  have hvalue : Hex.value? (Hex.digits 32 id.toNat) = some id.toNat := by
    rw [Hex.value?_digits, Nat.mod_eq_of_lt]
    exact id.bits.isLt
  have hid : ofNat id.toNat = id := by
    rw [ofNat, toNat, BitVec.ofNat_toNat, BitVec.setWidth_eq]
  rw [ofText?, text, String.toList_ofList, ofChars?, length_chars, if_neg (by decide), if_pos rfl,
    ofHyphenated?, huncut, Option.bind_some, hvalue, Option.map_some, hid]

theorem ofJson?_toJson (id : PieceId) : ofJson? id.toJson = some id := by
  rw [ofJson?, toJson, Json.string?, Option.bind_some, ofText?_text]

end PieceId

/-! ## Pieces -/

theorem Kind.ofJson?_toJson (k : Kind) : ofJson? k.toJson = some k := by
  cases k with
  | thing n =>
      show (Noun.ofJson? n.toJson).map Kind.thing = _
      rw [Noun.ofJson?_toJson]
      rfl
  | tile w => rfl

/-- A piece whose position coordinates can hold is read as what it was written for. -/
theorem Piece.ofJson?_toJson {x : Piece} (h : x.position.Representable) :
    ofJson? x.toJson = some x := by
  have hfields : x.toJson.fields? ["id", "kind", "position", "facing"] =
      some [some x.id.toJson, some x.kind.toJson, some x.position.toJson, some x.facing.toJson] :=
    Json.fields?_object (show ["id", "kind", "position", "facing"].Nodup by decide) rfl
      (List.Subset.refl _)
  rw [ofJson?, hfields]
  simp only [PieceId.ofJson?_toJson, Kind.ofJson?_toJson, Position.ofJson?_toJson h,
    Direction.ofJson?_toJson]
  rfl

end WordTiles
