import WordTiles.Json.Basic

/-!
# Records in JSON

How values of domain types are taken out of JSON values. A record is an object with members
of fixed names; members of other names are passed over, and a name must not occur twice. A
record may also be an array of its fields in their order, of which the last ones may be
missing. A plain alternative is its name, or an object with that one name and `null`.
-/

set_option autoImplicit false

namespace WordTiles.Json

/-- The member with a name: nothing if there are two, and otherwise the one there is, if any. -/
def member? (members : List (String × Json)) (name : String) : Option (Option Json) :=
  match members.filter (·.1 == name) with
  | [] => some none
  | [m] => some (some m.2)
  | _ :: _ :: _ => none

/-- The fields of a record by their names. Fields that are missing are `none`. -/
def fields? (names : List String) : Json → Option (List (Option Json))
  | .object members => names.mapM (member? members)
  | .array items =>
    if items.length ≤ names.length then
      some ((List.range names.length).map (items[·]?))
    else none
  | _ => none

/-- The name of a plain alternative. -/
def variant? : Json → Option String
  | .string name => some name
  | .object [(name, .null)] => some name
  | _ => none

def string? : Json → Option String
  | .string s => some s
  | _ => none

def bool? : Json → Option Bool
  | .bool b => some b
  | _ => none

/-- An integer from a range. -/
def integer? (least greatest : Int) : Json → Option Int
  | .integer i => if least ≤ i ∧ i ≤ greatest then some i else none
  | _ => none

/-- The greatest number of a count, which has 64 bits. -/
def greatestCount : Nat := 18446744073709551615

def count? : Json → Option Nat
  | .integer (.ofNat n) => if n ≤ greatestCount then some n else none
  | _ => none

def list? {α : Type} (ofJson? : Json → Option α) : Json → Option (List α)
  | .array items => items.mapM ofJson?
  | _ => none

/-- The value of a field that may be missing or `null`. -/
def optional? {α : Type} (ofJson? : Json → Option α) : Option Json → Option (Option α)
  | none => some none
  | some .null => some none
  | some j => (ofJson? j).map some

/-- The value of a field that may be missing, for which there is a default. -/
def orElse? {α : Type} (default : α) (ofJson? : Json → Option α) : Option Json → Option α
  | none => some default
  | some j => ofJson? j

def ofNat (n : Nat) : Json := .integer n

/-- The JSON value of an optional value: `null` if there is none. -/
def ofOption {α : Type} (toJson : α → Json) : Option α → Json
  | none => .null
  | some a => toJson a

def ofList {α : Type} (toJson : α → Json) (as : List α) : Json := .array (as.map toJson)

end WordTiles.Json
