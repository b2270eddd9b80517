import WordTiles.Board.Validity
import WordTiles.Encoding.Piece
import WordTiles.Json.Printer
import WordTiles.Json.Reader
import WordTiles.View

/-!
# JSON forms of boards and views

A board is read from JSON only if it is valid. A value that has the form of a board but is not
valid is told apart from one that has not.
-/

set_option autoImplicit false

namespace WordTiles

def Stack.toJson (s : Stack) : Json := .object [("objects", Json.ofList Piece.toJson s)]

def Stack.ofJson? (j : Json) : Option Stack :=
  match j.fields? ["objects"] with
  | some [some pieces] => pieces.list? Piece.ofJson?
  | _ => none

/-- Why no board can be read. -/
inductive BoardReadError where
  /-- The text is no JSON, or the value has not the form of a board. -/
  | form
  /-- The board is not valid. -/
  | malformed (fault : Malformed)
  deriving DecidableEq

namespace Board

def toJson (b : Board) : Json :=
  .object [("rows", .ofNat b.rows), ("cols", .ofNat b.cols),
    ("cells", Json.ofList Stack.toJson b.cells.toList)]

def toJsonText (b : Board) : String := b.toJson.text

/-- Reads the data of a board, valid or not. -/
def dataOfJson? (j : Json) : Option Board :=
  match j.fields? ["rows", "cols", "cells"] with
  | some [some rows, some cols, some cells] => do
    return ⟨← rows.count?, ← cols.count?, (← cells.list? Stack.ofJson?).toArray⟩
  | _ => none

def ofJson (j : Json) : Except BoardReadError Board :=
  match dataOfJson? j with
  | none => .error .form
  | some b =>
    match b.validate with
    | .error fault => .error (.malformed fault)
    | .ok () => .ok b

/-- Reads a board from JSON text. The board is checked as soon as its last bracket is read, so
its fault is reported rather than that something follows it. -/
def ofJsonText (s : String) : Except BoardReadError Board :=
  match Json.first? s.toList with
  | none => .error .form
  | some (j, rest) =>
    match ofJson j with
    | .error e => .error e
    | .ok b => if rest.isEmpty then .ok b else .error .form

end Board

def ViewCell.toJson (c : ViewCell) : Json :=
  .object [("id", c.id.toJson), ("kind", c.kind.toJson), ("facing", c.facing.toJson),
    ("stack_height", .ofNat c.height)]

def View.toJson (v : View) : Json :=
  .object [("rows", Json.ofList (Json.ofList (Json.ofOption ViewCell.toJson)) v.rows)]

end WordTiles
