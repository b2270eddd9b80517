import WordTiles.Rule.Basic

/-!
# Rule sets

The rules that hold at a time, in the order in which they were read. A rule may be there more
than once, which changes nothing.
-/

set_option autoImplicit false

namespace WordTiles

structure RuleSet where
  rules : List Rule
  deriving DecidableEq

namespace RuleSet

def grants (rs : RuleSet) (n : Noun) (a : Action) : Bool :=
  rs.rules.any fun r => r.granted? == some a && r.appliesTo n

/-- The pairs of a subject and the noun that a rule turns it into, by rule and then by
subject. -/
def transformations (rs : RuleSet) : List (Noun × Noun) :=
  rs.rules.flatMap fun r =>
    match r.target? with
    | some target => r.subjects.map (·, target)
    | none => []

/-- Whether a rule says of a noun that it is itself, which keeps it from changing. -/
def pins (rs : RuleSet) (n : Noun) : Bool := rs.transformations.contains (n, n)

/-- The noun that a noun turns into: none if it is pinned, and otherwise the target of its
first transformation. -/
def becomes? (rs : RuleSet) (n : Noun) : Option Noun :=
  if rs.pins n then none else rs.transformations.lookup n

end RuleSet

end WordTiles
