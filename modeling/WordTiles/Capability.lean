import WordTiles.Board.Basic
import WordTiles.Rule.RuleSet

/-!
# Capabilities

What the rules let a piece do. A noun has the capabilities that some rule grants it; there is
no precedence among rules and no rule takes a capability away. A text tile can be pushed and
can do nothing else, whatever the rules say.
-/

set_option autoImplicit false

namespace WordTiles

/-- The capabilities of one kind of piece. -/
structure Capabilities where
  controllable : Bool := false
  pushable : Bool := false
  blocking : Bool := false
  winning : Bool := false
  losing : Bool := false
  sinking : Bool := false
  hot : Bool := false
  melting : Bool := false
  floating : Bool := false
  deriving DecidableEq

namespace Capabilities

def none : Capabilities := {}

def ofTile : Capabilities := { pushable := true }

def grant (c : Capabilities) : Action → Capabilities
  | .you => { c with controllable := true }
  | .push => { c with pushable := true }
  | .stop => { c with blocking := true }
  | .win => { c with winning := true }
  | .defeat => { c with losing := true }
  | .float => { c with floating := true }
  | .melt => { c with melting := true }
  | .hot => { c with hot := true }
  | .sink => { c with sinking := true }

def has (c : Capabilities) : Action → Bool
  | .you => c.controllable
  | .push => c.pushable
  | .stop => c.blocking
  | .win => c.winning
  | .defeat => c.losing
  | .float => c.floating
  | .melt => c.melting
  | .hot => c.hot
  | .sink => c.sinking

/-- The actions whose capabilities are there, in the order of `Action.all`. -/
def actions (c : Capabilities) : List Action := Action.all.filter c.has

def isInert (c : Capabilities) : Bool := c.actions.isEmpty

theorem has_none (a : Action) : none.has a = false := by cases a <;> rfl

theorem has_grant (c : Capabilities) (a a' : Action) :
    (c.grant a).has a' = (decide (a = a') || c.has a') := by
  cases a <;> cases a' <;> rfl

theorem has_ofTile (a : Action) : ofTile.has a = decide (a = .push) := by cases a <;> rfl

/-- Capabilities are told apart by what they have. -/
theorem eq_of_has {c c' : Capabilities} (h : ∀ a, c.has a = c'.has a) : c = c' := by
  cases c; cases c'
  have h1 := h .you
  have h2 := h .push
  have h3 := h .stop
  have h4 := h .win
  have h5 := h .defeat
  have h6 := h .float
  have h7 := h .melt
  have h8 := h .hot
  have h9 := h .sink
  simp only [has] at h1 h2 h3 h4 h5 h6 h7 h8 h9
  simp [h1, h2, h3, h4, h5, h6, h7, h8, h9]

end Capabilities

/-- The capabilities of all nouns. A noun has an entry when it stands on the board or a rule
grants it something. -/
structure CapabilityTable where
  entries : Vector (Option Capabilities) 8
  deriving DecidableEq

namespace CapabilityTable

def empty : CapabilityTable := ⟨Vector.replicate 8 none⟩

def lookup? (t : CapabilityTable) (n : Noun) : Option Capabilities := t.entries[n.index]

/-- The capabilities of a noun; without an entry it has none. -/
def get (t : CapabilityTable) (n : Noun) : Capabilities := (t.lookup? n).getD Capabilities.none

/-- Gives a noun an entry, with the capabilities it has so far. -/
def mention (t : CapabilityTable) (n : Noun) : CapabilityTable :=
  ⟨t.entries.set n.index (some (t.get n))⟩

def grant (t : CapabilityTable) (n : Noun) (a : Action) : CapabilityTable :=
  ⟨t.entries.set n.index (some ((t.get n).grant a))⟩

def addRule (t : CapabilityTable) (r : Rule) : CapabilityTable :=
  match r.granted? with
  | none => t
  | some a => r.subjects.foldl (·.grant · a) t

def build (rs : RuleSet) (b : Board) : CapabilityTable :=
  rs.rules.foldl addRule ((b.pieces.filterMap (·.kind.noun?)).foldl mention empty)

def ofKind (t : CapabilityTable) : Kind → Capabilities
  | .thing n => t.get n
  | .tile _ => Capabilities.ofTile

def ofPiece (t : CapabilityTable) (piece : Piece) : Capabilities := t.ofKind piece.kind

/-- The nouns that have a capability, in the order of `Noun.all`. -/
def nounsWith (t : CapabilityTable) (a : Action) : List Noun :=
  Noun.all.filter fun n => (t.get n).has a

theorem lookup?_empty (n : Noun) : empty.lookup? n = none := by
  simp [lookup?, empty]

theorem lookup?_mention (t : CapabilityTable) (m n : Noun) :
    (t.mention m).lookup? n = if m = n then some (t.get n) else t.lookup? n := by
  by_cases h : m = n
  · subst h; simp [lookup?, mention]
  · have hi : (m.index : Nat) ≠ n.index := fun e => h (Noun.index_injective (Fin.ext e))
    simp [lookup?, mention, h, hi]

theorem lookup?_grant (t : CapabilityTable) (m n : Noun) (a : Action) :
    (t.grant m a).lookup? n = if m = n then some ((t.get n).grant a) else t.lookup? n := by
  by_cases h : m = n
  · subst h; simp [lookup?, grant]
  · have hi : (m.index : Nat) ≠ n.index := fun e => h (Noun.index_injective (Fin.ext e))
    simp [lookup?, grant, h, hi]

end CapabilityTable

end WordTiles
