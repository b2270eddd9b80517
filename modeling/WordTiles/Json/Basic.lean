import WordTiles.Double

/-!
# JSON values

A JSON value keeps all of its text that can matter to a reader: the order of members, members
of the same name, and whether a number is written as an integer. An integer literal is a
number without point and exponent; `-0` does not count as one, since the integers have one
zero only.
-/

set_option autoImplicit false

namespace WordTiles

inductive Json where
  | null
  | bool (value : Bool)
  /-- An integer literal. -/
  | integer (value : Int)
  /-- Any other number: `digits` times ten to the `exponent`, with a sign. -/
  | decimal (negative : Bool) (digits : Nat) (exponent : Int)
  | string (text : String)
  /-- A string with an escape that is half of a surrogate pair, or an object with a member of
  such a name. The syntax allows it, but it stands for no text. -/
  | garbled
  | array (items : List Json)
  | object (members : List (String × Json))

namespace Json

/-! ## Values that can be held in memory

A reader that keeps a value before it looks at it, rather than skipping what it does not need,
puts limits on the value: containers must not be nested too deep, numbers must be in the range
of double precision, and strings must be text. What it keeps does not tell an object without
members from `null`. -/

mutual

/-- How many containers are nested in each other. -/
def depth : Json → Nat
  | .array items => depthOfItems items + 1
  | .object members => depthOfMembers members + 1
  | .null | .bool _ | .integer _ | .decimal .. | .string _ | .garbled => 0

def depthOfItems : List Json → Nat
  | [] => 0
  | j :: rest => max (depth j) (depthOfItems rest)

def depthOfMembers : List (String × Json) → Nat
  | [] => 0
  | (_, j) :: rest => max (depth j) (depthOfMembers rest)

end

mutual

/-- Whether all strings of a value are text and all its numbers are in range. -/
def isSound : Json → Bool
  | .integer i => Double.isFiniteByFactors i.natAbs 0
  | .decimal _ digits exponent => Double.isFiniteByFactors digits exponent
  | .garbled => false
  | .array items => areSound items
  | .object members => membersSound members
  | .null | .bool _ | .string _ => true

def areSound : List Json → Bool
  | [] => true
  | j :: rest => isSound j && areSound rest

def membersSound : List (String × Json) → Bool
  | [] => true
  | (_, j) :: rest => isSound j && membersSound rest

end

mutual

/-- A value with `null` in the place of every object without members. -/
def emptyAsNull : Json → Json
  | .array items => .array (emptyAsNullItems items)
  | .object [] => .null
  | .object (m :: rest) => .object (emptyAsNullMembers (m :: rest))
  | .null => .null
  | .bool b => .bool b
  | .integer i => .integer i
  | .decimal negative digits exponent => .decimal negative digits exponent
  | .string s => .string s
  | .garbled => .garbled

def emptyAsNullItems : List Json → List Json
  | [] => []
  | j :: rest => emptyAsNull j :: emptyAsNullItems rest

def emptyAsNullMembers : List (String × Json) → List (String × Json)
  | [] => []
  | (name, j) :: rest => (name, emptyAsNull j) :: emptyAsNullMembers rest

end

/-- The depth from which on values are refused. -/
def depthLimit : Nat := 128

/-- Whether a value keeps within the limits. -/
def isHoldable (j : Json) : Bool := decide (j.depth < depthLimit) && j.isSound

/-- What is kept of a value within the limits. -/
def held? (j : Json) : Option Json := if j.isHoldable then some j.emptyAsNull else none

end Json

end WordTiles
