import WordTiles.Line
import WordTiles.Vocabulary

/-!
# Rules

A rule such as `BABA AND KEKE IS YOU` has subjects, a verb and a predicate. Two kinds of rule
have an effect on play: `IS` with an action grants the action to the subjects, and `IS` with a
noun turns the subjects into that noun. An action can only be predicated with `IS`.

A list of words that is no rule is refused for one of six causes, each with its wording.
-/

set_option autoImplicit false

namespace WordTiles

inductive Predicate where
  | noun (noun : Noun)
  | action (action : Action)
  deriving DecidableEq

namespace Predicate

def word : Predicate → String
  | .noun n => n.word
  | .action a => a.word

end Predicate

inductive Slot where
  /-- A subject. -/
  | subject
  /-- After a subject: the verb, or another subject after a connective. -/
  | verb
  /-- What is said of the subjects. -/
  | predicate
  deriving DecidableEq

namespace Slot

def text : Slot → String
  | .subject => "object"
  | .verb => "verb"
  | .predicate => "object or action"

end Slot

/-- Why a list of words is no rule. Words are numbered from zero. -/
inductive ParseError where
  /-- There are no words. -/
  | emptyRun
  /-- A word outside the vocabulary. -/
  | unknownWord (word : String) (index : Nat)
  /-- A word of the vocabulary that cannot stand where it does. -/
  | unexpectedToken (expected : Slot) (found category : String) (index : Nat)
  /-- The words end before the rule does. -/
  | unexpectedEnd (expected : Slot)
  /-- The rule ends before the words do. -/
  | trailingTokens (count index : Nat)
  /-- An action after a verb other than `IS`. -/
  | actionRequiresIs (verb : Verb) (action : Action)
  deriving DecidableEq

namespace ParseError

def message : ParseError → String
  | .emptyRun => "empty text run"
  | .unknownWord word index =>
    "unknown word '" ++ word ++ "' at position " ++ Decimal.natText index
  | .unexpectedToken expected found category index =>
    "expected " ++ expected.text ++ " at position " ++ Decimal.natText index ++ ", found "
      ++ category ++ " '" ++ found ++ "'"
  | .unexpectedEnd expected => "expected " ++ expected.text ++ " but the run ended"
  | .trailingTokens count index =>
    Decimal.natText count ++ " word(s) left over after a complete rule, starting at position "
      ++ Decimal.natText index
  | .actionRequiresIs verb action =>
    "action " ++ action.word ++ " can only follow IS, not " ++ verb.word

end ParseError

structure Rule where
  subjects : List Noun
  verb : Verb
  predicate : Predicate
  deriving DecidableEq

namespace Rule

/-- A rule that the grammar of rules produces: it has a subject, and an action only with
`IS`. -/
def Grammatical (r : Rule) : Prop :=
  r.subjects ≠ [] ∧ ∀ a, r.predicate = .action a → r.verb = .is

/-- Puts a rule together from its parts, which is refused for an action without `IS`. -/
def ofParts (subjects : List Noun) (verb : Verb) (predicate : Predicate) :
    Except ParseError Rule :=
  match predicate with
  | .action a =>
    if verb = .is then .ok ⟨subjects, verb, predicate⟩ else .error (.actionRequiresIs verb a)
  | .noun _ => .ok ⟨subjects, verb, predicate⟩

def appliesTo (r : Rule) (n : Noun) : Bool := r.subjects.contains n

def granted? (r : Rule) : Option Action :=
  match r.verb, r.predicate with
  | .is, .action a => some a
  | _, _ => none

/-- The noun that the rule turns its subjects into. -/
def target? (r : Rule) : Option Noun :=
  match r.verb, r.predicate with
  | .is, .noun n => some n
  | _, _ => none

/-- The words of the rule: its subjects with a connective between two of them, its verb, and
its predicate. -/
def words (r : Rule) : List String :=
  (r.subjects.map Noun.word).intersperse connective ++ [r.verb.word, r.predicate.word]

def text (r : Rule) : String :=
  " AND ".intercalate (r.subjects.map Noun.word) ++ " " ++ r.verb.word ++ " " ++ r.predicate.word

end Rule

end WordTiles
