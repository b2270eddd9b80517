import WordTiles.Encoding.Board
import WordTiles.Proofs.Board.Standing
import WordTiles.Proofs.Encoding.Piece
import WordTiles.Proofs.Json.RoundTrip

/-!
# JSON text of boards, written and read

A valid board is read from its own text, whatever its size, its stacks, the words on its tiles and
the identities of its pieces. Every text that a board is read from holds a valid one, so that what
was read can be written and read again.

The main statement is `Board.jsonText_round_trip`.
-/

set_option autoImplicit false

namespace WordTiles

theorem Stack.ofJson?_toJson {s : Stack} (h : ∀ x ∈ s, x.position.Representable) :
    ofJson? s.toJson = some s := by
  have hfields : s.toJson.fields? ["objects"] = some [some (Json.ofList Piece.toJson s)] :=
    Json.fields?_object (show ["objects"].Nodup by decide) rfl (List.Subset.refl _)
  rw [ofJson?, hfields]
  exact Json.list?_ofList fun x hx => Piece.ofJson?_toJson (h x hx)

namespace Board

variable {b : Board} {x : Piece} {s : String}

/-- On a valid board coordinates can hold the positions of all pieces. -/
theorem Valid.representable (hb : b.Valid) (hx : x ∈ b.pieces) : x.position.Representable :=
  (inBounds_of_mem (hb.mem_stackAt_of_mem_pieces hx)).representable hb.rows_le hb.cols_le

theorem Valid.dataOfJson?_toJson (hb : b.Valid) : dataOfJson? b.toJson = some b := by
  have hfields : b.toJson.fields? ["rows", "cols", "cells"] =
      some [some (.ofNat b.rows), some (.ofNat b.cols),
        some (Json.ofList Stack.toJson b.cells.toList)] :=
    Json.fields?_object (show ["rows", "cols", "cells"].Nodup by decide) rfl (List.Subset.refl _)
  have hcount : ∀ n ≤ Position.greatest + 1, (Json.ofNat n).count? = some n := fun n hn =>
    Json.count?_ofNat (Nat.le_trans hn (by decide))
  have hcells : (Json.ofList Stack.toJson b.cells.toList).list? Stack.ofJson? =
      some b.cells.toList := by
    apply Json.list?_ofList
    intro s hs
    apply Stack.ofJson?_toJson
    intro x hx
    exact hb.representable (List.mem_flatten_of_mem hs hx)
  rw [dataOfJson?, hfields]
  simp only [hcount _ hb.rows_le, hcount _ hb.cols_le, hcells]
  rfl

theorem ofJson_toJson (h : b.validate = .ok ()) : ofJson b.toJson = .ok b := by
  rw [ofJson, (validate_eq_ok_iff.mp h).dataOfJson?_toJson]
  simp only [h]

/-- A valid board is read from the text that is written for it. -/
theorem ofJsonText_toJsonText (h : b.validate = .ok ()) : ofJsonText b.toJsonText = .ok b := by
  rw [ofJsonText, toJsonText, Json.text, String.toList_ofList, Json.first?_chars]
  simp only [ofJson_toJson h]
  rfl

theorem validate_of_ofJson {j : Json} (h : ofJson j = .ok b) : b.validate = .ok () := by
  rw [ofJson] at h
  split at h
  · cases h
  split at h
  · cases h
  next hvalid =>
    cases h
    exact hvalid

/-- Only valid boards are read from text. -/
theorem validate_of_ofJsonText (h : ofJsonText s = .ok b) : b.validate = .ok () := by
  rw [ofJsonText] at h
  split at h
  · cases h
  split at h
  · cases h
  next hread =>
    split at h
    · cases h
      exact validate_of_ofJson hread
    · cases h

/-- A valid board is read from the text that is written for it. What is read from any text is a
valid board, which can be written and read again. -/
theorem jsonText_round_trip :
    (∀ b : Board, b.validate = .ok () → ofJsonText b.toJsonText = .ok b) ∧
      ∀ (s : String) (b : Board), ofJsonText s = .ok b →
        b.validate = .ok () ∧ ofJsonText b.toJsonText = .ok b := by
  refine ⟨fun b => ofJsonText_toJsonText, fun s b h => ?_⟩
  have hvalid := validate_of_ofJsonText h
  exact ⟨hvalid, ofJsonText_toJsonText hvalid⟩

/-- A tile whose word cannot be written as it stands. -/
def escapedWord : Board :=
  ⟨1, 1, #[[⟨.ofNat 7, .tile "say \"\\\n\x01é", ⟨0, 0⟩, .up⟩]]⟩

/-- Another text of this board: without the names of fields, with blanks, and with other escapes. -/
def escapedWordText : String :=
  "[1, 1, [[[[\"00000000000000000000000000000007\"," ++
    "\x7b\"text\": \"say \\u0022\\\\\\n\\u0001\\u00e9\"\x7d, [0, 0], \"Up\"]]]]]"

/-- Both texts give the board. -/
theorem ofJsonText_escapedWord :
    escapedWord.validate = .ok () ∧ ofJsonText escapedWordText = .ok escapedWord ∧
      ofJsonText escapedWord.toJsonText = .ok escapedWord := by
  have hvalid : escapedWord.validate = .ok () := by decide
  have hread : ofJsonText escapedWordText = .ok escapedWord := by decide +kernel
  obtain ⟨hwritten, hany⟩ := jsonText_round_trip
  exact ⟨(hany _ _ hread).1, hread, hwritten _ hvalid⟩

end Board

end WordTiles
