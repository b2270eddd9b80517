import WordTiles.Capability
import WordTiles.Encoding.Piece
import WordTiles.Rule.RuleSet

/-!
# JSON forms of tokens, rules and capabilities

These are only written. A noun in a rule is called an object, after its part in the sentence.
-/

set_option autoImplicit false

namespace WordTiles

def WordClass.toJson : WordClass → Json
  | .noun n => .object [("Object", n.toJson)]
  | .verb v => .object [("Verb", v.toJson)]
  | .action a => .object [("Action", a.toJson)]
  | .connective => .string "Connective"
  | .unknown => .string "Unknown"

def Token.toJson (t : Token) : Json :=
  .object [("text", .string t.text), ("class", t.wordClass.toJson)]

def Predicate.toJson : Predicate → Json
  | .noun n => .object [("Object", n.toJson)]
  | .action a => .object [("Action", a.toJson)]

def Rule.toJson (r : Rule) : Json :=
  .object [("subjects", Json.ofList Noun.toJson r.subjects), ("verb", r.verb.toJson),
    ("predicate", r.predicate.toJson)]

def RuleSet.toJson (rs : RuleSet) : Json := .object [("rules", Json.ofList Rule.toJson rs.rules)]

def Capabilities.toJson (c : Capabilities) : Json :=
  .object [("controllable", .bool c.controllable), ("pushable", .bool c.pushable),
    ("blocking", .bool c.blocking), ("winning", .bool c.winning), ("losing", .bool c.losing),
    ("sinking", .bool c.sinking), ("hot", .bool c.hot), ("melting", .bool c.melting),
    ("floating", .bool c.floating)]

def CapabilityTable.toJson (t : CapabilityTable) : Json :=
  .object [("by_noun", .object (Noun.all.filterMap fun n =>
    (t.lookup? n).map fun c => (n.word, c.toJson)))]

end WordTiles
