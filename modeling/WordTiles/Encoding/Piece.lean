import WordTiles.Json.Record
import WordTiles.Piece

/-!
# JSON forms of pieces

The JSON forms of directions, positions, words, identities, kinds and pieces. Directions are
written with a capital letter and words as they stand on tiles. A kind is an object with the
one member `noun` or `text`.
-/

set_option autoImplicit false

namespace WordTiles

namespace Direction

def jsonName : Direction → String
  | .up => "Up"
  | .down => "Down"
  | .left => "Left"
  | .right => "Right"

def toJson (d : Direction) : Json := .string d.jsonName

def ofJson? (j : Json) : Option Direction :=
  j.variant?.bind fun name => all.find? (·.jsonName == name)

end Direction

namespace Position

def toJson (p : Position) : Json := .object [("row", .integer p.row), ("col", .integer p.col)]

def coordinate? (j : Json) : Option Int := j.integer? least greatest

def ofJson? (j : Json) : Option Position :=
  match j.fields? ["row", "col"] with
  | some [some row, some col] => do return ⟨← coordinate? row, ← coordinate? col⟩
  | _ => none

end Position

namespace Noun

def toJson (n : Noun) : Json := .string n.word

def ofJson? (j : Json) : Option Noun := j.variant?.bind ofWord?

end Noun

def Verb.toJson (v : Verb) : Json := .string v.word

def Action.toJson (a : Action) : Json := .string a.word

namespace PieceId

def toJson (id : PieceId) : Json := .string id.text

def ofJson? (j : Json) : Option PieceId := j.string?.bind ofText?

end PieceId

namespace Kind

def toJson : Kind → Json
  | .thing n => .object [("noun", n.toJson)]
  | .tile w => .object [("text", .string w)]

def ofJson? : Json → Option Kind
  | .object [(name, j)] =>
    if name == "noun" then (Noun.ofJson? j).map .thing
    else if name == "text" then j.string?.map .tile
    else none
  | _ => none

end Kind

namespace Piece

def toJson (piece : Piece) : Json :=
  .object [("id", piece.id.toJson), ("kind", piece.kind.toJson),
    ("position", piece.position.toJson), ("facing", piece.facing.toJson)]

def ofJson? (j : Json) : Option Piece :=
  match j.fields? ["id", "kind", "position", "facing"] with
  | some [some id, some kind, some position, some facing] => do
    return ⟨← PieceId.ofJson? id, ← Kind.ofJson? kind, ← Position.ofJson? position,
      ← Direction.ofJson? facing⟩
  | _ => none

end Piece

end WordTiles
