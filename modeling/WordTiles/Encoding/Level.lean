import WordTiles.Encoding.Piece
import WordTiles.Json.Printer
import WordTiles.Json.Reader
import WordTiles.Level

/-!
# JSON forms of levels

A specification may leave out its position and its facing; `null` is written for them, and
read as if the member were missing.
-/

set_option autoImplicit false

namespace WordTiles

namespace PieceSpec

def toJson (spec : PieceSpec) : Json :=
  .object [("kind", spec.kind.toJson), ("position", .ofOption Position.toJson spec.position),
    ("facing", .ofOption Direction.toJson spec.facing)]

def ofJson? (j : Json) : Option PieceSpec :=
  match j.fields? ["kind", "position", "facing"] with
  | some [some kind, position, facing] => do
    return ⟨← Kind.ofJson? kind, ← Json.optional? Position.ofJson? position,
      ← Json.optional? Direction.ofJson? facing⟩
  | _ => none

end PieceSpec

namespace Level

def toJson (l : Level) : Json :=
  .object [("cells", Json.ofList (Json.ofList (Json.ofList PieceSpec.toJson)) l.cells)]

def toJsonText (l : Level) : String := l.toJson.text

def ofJson? (j : Json) : Option Level :=
  match j.fields? ["cells"] with
  | some [some cells] =>
    (cells.list? (Json.list? (Json.list? PieceSpec.ofJson?))).map Level.mk
  | _ => none

def ofJsonText? (s : String) : Option Level := (Json.ofText? s).bind ofJson?

end Level

end WordTiles
