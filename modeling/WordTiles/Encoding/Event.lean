import WordTiles.Encoding.Piece
import WordTiles.Event
import WordTiles.Json.Printer
import WordTiles.Json.Reader

/-!
# JSON forms of events

An event is an object whose member `event` names the sort of event and whose other members
are its fields; it may also be an array of that name and the fields in their order. Since the
sort may be named anywhere in the object, a reader has to hold the whole value before it can
look at the fields, and sees of it what `Json.held?` says.
-/

set_option autoImplicit false

namespace WordTiles

namespace Refusal

def jsonName : Refusal → String
  | .edge => "OutOfBounds"
  | .blocked => "Blocked"
  | .tooLong => "RecursionLimitExceeded"

def toJson (r : Refusal) : Json := .string r.jsonName

def ofJson? (j : Json) : Option Refusal :=
  j.variant?.bind fun name => all.find? (·.jsonName == name)

end Refusal

namespace HazardCause

def jsonName : HazardCause → String
  | .sink => "Sink"
  | .melt => "Melt"

def toJson (c : HazardCause) : Json := .string c.jsonName

def ofJson? (j : Json) : Option HazardCause :=
  j.variant?.bind fun name => all.find? (·.jsonName == name)

end HazardCause

namespace Outcome

def jsonName : Outcome → String
  | .ongoing => "Continue"
  | .win => "Win"
  | .loss => "Loss"

def toJson (o : Outcome) : Json := .string o.jsonName

def ofJson? (j : Json) : Option Outcome :=
  j.variant?.bind fun name => all.find? (·.jsonName == name)

end Outcome

namespace Event

/-- The fields of an event with their names. -/
def fields : Event → List (String × Json)
  | .ruleRejected origin direction words reason =>
    [("origin", origin.toJson), ("direction", direction.toJson),
      ("words", Json.ofList .string words), ("reason", .string reason)]
  | .transformed piece position source target =>
    [("object", piece.toJson), ("position", position.toJson), ("from", source.toJson),
      ("to", target.toJson)]
  | .moved piece kind source target =>
    [("object", piece.toJson), ("kind", kind.toJson), ("from", source.toJson),
      ("to", target.toJson)]
  | .moveRejected piece position reason =>
    [("object", piece.toJson), ("position", position.toJson), ("reason", reason.toJson)]
  | .destroyed piece kind position cause =>
    [("object", piece.toJson), ("kind", kind.toJson), ("position", position.toJson),
      ("cause", cause.toJson)]
  | .outcomeReached outcome => [("outcome", outcome.toJson)]

def toJson (e : Event) : Json := .object (("event", .string e.name) :: e.fields)

def toJsonLine (e : Event) : String := e.toJson.text

def ofFields? (name : String) (j : Json) : Option Event :=
  if name == "rule_rejected" then
    match j.fields? ["origin", "direction", "words", "reason"] with
    | some [some origin, some direction, some words, some reason] => do
      return .ruleRejected (← Position.ofJson? origin) (← Direction.ofJson? direction)
        (← words.list? Json.string?) (← reason.string?)
    | _ => none
  else if name == "transformed" then
    match j.fields? ["object", "position", "from", "to"] with
    | some [some piece, some position, some source, some target] => do
      return .transformed (← PieceId.ofJson? piece) (← Position.ofJson? position)
        (← Noun.ofJson? source) (← Noun.ofJson? target)
    | _ => none
  else if name == "moved" then
    match j.fields? ["object", "kind", "from", "to"] with
    | some [some piece, some kind, some source, some target] => do
      return .moved (← PieceId.ofJson? piece) (← Kind.ofJson? kind)
        (← Position.ofJson? source) (← Position.ofJson? target)
    | _ => none
  else if name == "move_rejected" then
    match j.fields? ["object", "position", "reason"] with
    | some [some piece, some position, some reason] => do
      return .moveRejected (← PieceId.ofJson? piece) (← Position.ofJson? position)
        (← Refusal.ofJson? reason)
    | _ => none
  else if name == "destroyed" then
    match j.fields? ["object", "kind", "position", "cause"] with
    | some [some piece, some kind, some position, some cause] => do
      return .destroyed (← PieceId.ofJson? piece) (← Kind.ofJson? kind)
        (← Position.ofJson? position) (← HazardCause.ofJson? cause)
    | _ => none
  else if name == "outcome_reached" then
    match j.fields? ["outcome"] with
    | some [some outcome] => (Outcome.ofJson? outcome).map .outcomeReached
    | _ => none
  else none

def ofHeld? : Json → Option Event
  | .object members =>
    match Json.member? members "event" with
    | some (some (.string name)) => ofFields? name (.object members)
    | _ => none
  | .array (.string name :: items) => ofFields? name (.array items)
  | _ => none

def ofJson? (j : Json) : Option Event := j.held?.bind ofHeld?

def ofJsonText? (s : String) : Option Event := (Json.ofText? s).bind ofJson?

end Event

end WordTiles
