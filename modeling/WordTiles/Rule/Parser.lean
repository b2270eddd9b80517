import WordTiles.Line
import WordTiles.Rule.Basic

/-!
# Reading rules

The grammar of rules:

    rule      = subject { "AND" subject } verb predicate
    subject   = noun
    verb      = "IS" | "HAS" | "MAKE"
    predicate = noun | action            (an action only after "IS")

The words are read from left to right, and each one decides alone how to go on. The reader
stands in one of three states, which say what comes next; a list of words is a rule when its
last word ends one.
-/

set_option autoImplicit false

namespace WordTiles.Rule

/-- What the reader has yet to see. -/
inductive Awaiting where
  /-- A subject. -/
  | subject
  /-- The verb, or a connective. -/
  | verb
  /-- The predicate of this verb. -/
  | predicate (verb : Verb)
  deriving DecidableEq

namespace Awaiting

/-- The slot that the next word fills. -/
def slot : Awaiting → Slot
  | .subject => .subject
  | .verb => .verb
  | .predicate _ => .predicate

end Awaiting

/-- The error for a word that does not fit its slot. -/
def mismatch (expected : Slot) (index : Nat) (t : Token) : ParseError :=
  match t.wordClass with
  | .unknown => .unknownWord t.text index
  | c => .unexpectedToken expected t.text c.category index

def readPredicate (v : Verb) (index : Nat) (t : Token) : Except ParseError Predicate :=
  match t.wordClass with
  | .noun n => .ok (.noun n)
  | .action a => if v = .is then .ok (.action a) else .error (.actionRequiresIs v a)
  | _ => .error (mismatch .predicate index t)

def addSubject (n : Noun) (r : Rule) : Rule := { r with subjects := n :: r.subjects }

/-- Reads the rest of a rule from word number `index` on. The subjects of the result are those
that were still to come. -/
def readFrom : Awaiting → (index : Nat) → List Token → Except ParseError Rule
  | state, _, [] => .error (.unexpectedEnd state.slot)
  | .subject, index, t :: rest =>
    match t.wordClass with
    | .noun n => (readFrom .verb (index + 1) rest).map (addSubject n)
    | _ => .error (mismatch .subject index t)
  | .verb, index, t :: rest =>
    match t.wordClass with
    | .connective => readFrom .subject (index + 1) rest
    | .verb v => readFrom (.predicate v) (index + 1) rest
    | _ => .error (mismatch .verb index t)
  | .predicate v, index, t :: rest =>
    match readPredicate v index t with
    | .error e => .error e
    | .ok p =>
      if rest.isEmpty then .ok ⟨[], v, p⟩
      else .error (.trailingTokens rest.length (index + 1))

/-- Reads a rule from tokens, all of which must belong to it. -/
def ofTokens (ts : List Token) : Except ParseError Rule :=
  if ts.isEmpty then .error .emptyRun else readFrom .subject 0 ts

def parse (ws : List String) : Except ParseError Rule := ofTokens (ws.map Token.ofWord)

def parseLine (line : String) : Except ParseError Rule := parse (Line.words line)

end WordTiles.Rule
