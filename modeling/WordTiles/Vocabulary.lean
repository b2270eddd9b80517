/-!
# The vocabulary

The fixed words of the rule language: eight nouns, three verbs, nine actions and the
connective `AND`. A word is looked up by its exact spelling in capital letters; a word that is
none of these is *unknown* and may still stand on a tile.
-/

set_option autoImplicit false

namespace WordTiles

/-- The kinds of thing that can stand on a board. -/
inductive Noun where
  | baba
  | keke
  | wall
  | rock
  | flag
  | door
  | key
  | water
  deriving DecidableEq

namespace Noun

def all : List Noun := [.baba, .keke, .wall, .rock, .flag, .door, .key, .water]

/-- The place of a noun in the list of all nouns. -/
def index : Noun → Fin 8
  | .baba => 0
  | .keke => 1
  | .wall => 2
  | .rock => 3
  | .flag => 4
  | .door => 5
  | .key => 6
  | .water => 7

/-- The word on the tile that names the noun. -/
def word : Noun → String
  | .baba => "BABA"
  | .keke => "KEKE"
  | .wall => "WALL"
  | .rock => "ROCK"
  | .flag => "FLAG"
  | .door => "DOOR"
  | .key => "KEY"
  | .water => "WATER"

/-- The label of a thing of this kind, in small letters so that it differs from its tile. -/
def label : Noun → String
  | .baba => "baba"
  | .keke => "keke"
  | .wall => "wall"
  | .rock => "rock"
  | .flag => "flag"
  | .door => "door"
  | .key => "key"
  | .water => "water"

def ofWord? (w : String) : Option Noun := all.find? (·.word == w)

theorem mem_all (n : Noun) : n ∈ all := by cases n <;> decide

theorem index_injective {m n : Noun} (h : m.index = n.index) : m = n := by
  cases m <;> cases n <;> first | rfl | exact absurd h (by decide)

end Noun

/-- The words that join subjects to what is said of them. -/
inductive Verb where
  | is
  | has
  | make
  deriving DecidableEq

namespace Verb

def all : List Verb := [.is, .has, .make]

def word : Verb → String
  | .is => "IS"
  | .has => "HAS"
  | .make => "MAKE"

def ofWord? (w : String) : Option Verb := all.find? (·.word == w)

theorem mem_all (v : Verb) : v ∈ all := by cases v <;> decide

end Verb

/-- The properties that a rule can grant to a noun. -/
inductive Action where
  | you
  | push
  | stop
  | win
  | defeat
  | float
  | melt
  | hot
  | sink
  deriving DecidableEq

namespace Action

def all : List Action := [.you, .push, .stop, .win, .defeat, .float, .melt, .hot, .sink]

def word : Action → String
  | .you => "YOU"
  | .push => "PUSH"
  | .stop => "STOP"
  | .win => "WIN"
  | .defeat => "DEFEAT"
  | .float => "FLOAT"
  | .melt => "MELT"
  | .hot => "HOT"
  | .sink => "SINK"

def ofWord? (w : String) : Option Action := all.find? (·.word == w)

theorem mem_all (a : Action) : a ∈ all := by cases a <;> decide

end Action

/-- The one connective, which joins the subjects of a rule. -/
def connective : String := "AND"

/-- What a word can be in a rule. -/
inductive WordClass where
  | noun (noun : Noun)
  | verb (verb : Verb)
  | action (action : Action)
  | connective
  | unknown
  deriving DecidableEq

namespace WordClass

/-- The class of a word. No word has two classes, so the order of the questions is free. -/
def ofWord (w : String) : WordClass :=
  match Noun.ofWord? w with
  | some n => .noun n
  | none =>
    match Verb.ofWord? w with
    | some v => .verb v
    | none =>
      match Action.ofWord? w with
      | some a => .action a
      | none => if w == WordTiles.connective then .connective else .unknown

/-- The name of a class in a message. A noun is called an object there, after its part in the
sentence. -/
def category : WordClass → String
  | .noun _ => "object"
  | .verb _ => "verb"
  | .action _ => "action"
  | .connective => "connective"
  | .unknown => "unknown"

end WordClass

/-- A word together with its class. -/
structure Token where
  text : String
  wordClass : WordClass
  deriving DecidableEq

namespace Token

def ofWord (w : String) : Token := ⟨w, WordClass.ofWord w⟩

end Token

end WordTiles
