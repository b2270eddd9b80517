import WordTiles.Encoding.Event
import WordTiles.Proofs.Encoding.Piece
import WordTiles.Proofs.Json.RoundTrip

/-!
# JSON lines of events, written and read

An event is written on one line, in which its sort stands under a name of its own, and it is read
from this line as it was. The words of a rejected run and the reason why it is no rule can be any
text. Only positions that coordinates can hold are read at all.

The main statement is `Event.jsonLine_round_trip`.
-/

set_option autoImplicit false

namespace WordTiles

theorem Refusal.ofJson?_toJson (r : Refusal) : ofJson? r.toJson = some r := by
  cases r
  all_goals rfl

theorem HazardCause.ofJson?_toJson (c : HazardCause) : ofJson? c.toJson = some c := by
  cases c
  all_goals rfl

theorem Outcome.ofJson?_toJson (o : Outcome) : ofJson? o.toJson = some o := by
  cases o
  all_goals rfl

/-! ## What is held of the parts of an event -/

/-- Coordinates are small enough to be held as they stand. -/
theorem Position.kept_toJson {p : Position} (h : p.Representable) (n : Nat) :
    Json.Kept (n + 1) p.toJson := by
  have hsmall : ∀ i : Int, least ≤ i ∧ i ≤ greatest → Json.Kept n (.integer i) := by
    intro i hi
    apply Json.kept_integer
    simp only [least, greatest, Double.precision, Nat.pow_eq] at *
    omega
  apply Json.kept_object (List.cons_ne_nil _ _)
  exact List.forall_mem_cons.mpr ⟨hsmall _ h.1, List.forall_mem_singleton.mpr (hsmall _ h.2)⟩

theorem Kind.kept_toJson (k : Kind) (n : Nat) : Json.Kept (n + 1) k.toJson := by
  cases k
  all_goals
    apply Json.kept_object (List.cons_ne_nil _ _)
    exact List.forall_mem_singleton.mpr (Json.kept_string n _)

namespace Event

variable {e : Event}

def positions : Event → List Position
  | .ruleRejected origin .. => [origin]
  | .transformed _ position .. => [position]
  | .moved _ _ source target => [source, target]
  | .moveRejected _ position _ => [position]
  | .destroyed _ _ position _ => [position]
  | .outcomeReached _ => []

/-- No field is nested deeper than a list of words or a position. -/
theorem kept_fields (h : ∀ p ∈ e.positions, p.Representable) :
    ∀ m ∈ e.fields, Json.Kept 1 m.2 := by
  have hstring : ∀ s, Json.Kept 1 (.string s) := Json.kept_string 1
  cases e
  all_goals simp only [fields, positions, List.forall_mem_cons, List.not_mem_nil, false_implies,
    implies_true, and_true] at h ⊢
  case ruleRejected origin direction words reason =>
    have hwords : Json.Kept 1 (Json.ofList .string words) :=
      Json.kept_ofList fun w _ => Json.kept_string 0 w
    exact ⟨Position.kept_toJson h 0, hstring _, hwords, hstring _⟩
  case transformed => exact ⟨hstring _, Position.kept_toJson h 0, hstring _, hstring _⟩
  case moved piece kind source target =>
    exact ⟨hstring _, Kind.kept_toJson kind 0, Position.kept_toJson h.1 0,
      Position.kept_toJson h.2 0⟩
  case moveRejected => exact ⟨hstring _, Position.kept_toJson h 0, hstring _⟩
  case destroyed piece kind position cause =>
    exact ⟨hstring _, Kind.kept_toJson kind 0, Position.kept_toJson h 0, hstring _⟩
  case outcomeReached => exact hstring _

theorem held?_toJson (h : ∀ p ∈ e.positions, p.Representable) : e.toJson.held? = some e.toJson := by
  have hkept : Json.Kept 2 e.toJson := by
    apply Json.kept_object (List.cons_ne_nil _ _)
    exact List.forall_mem_cons.mpr ⟨Json.kept_string 1 e.name, kept_fields h⟩
  exact hkept.held?_eq (by decide)

/-! ## Reading -/

/-- No field has the name under which the sort of the event stands, and no two have one name. -/
theorem nodup_names (e : Event) : ("event" :: e.fields.map (·.1)).Nodup := by
  cases e
  all_goals simp [fields]

/-- The sort of an event stands under its own name. -/
theorem member?_event (e : Event) :
    Json.member? (("event", .string e.name) :: e.fields) "event" = some (some (.string e.name)) :=
  Json.member?_of_mem (nodup_names e) List.mem_cons_self

theorem fields?_toJson (e : Event) :
    e.toJson.fields? (e.fields.map (·.1)) = some (e.fields.map (some ·.2)) :=
  Json.fields?_object (nodup_names e) rfl (List.subset_cons_self _ _)

/-- From the fields of its sort the event is put together again. -/
theorem ofFields?_toJson (h : ∀ p ∈ e.positions, p.Representable) :
    ofFields? e.name e.toJson = some e := by
  have hfields := fields?_toJson e
  have hposition : ∀ p ∈ e.positions, Position.ofJson? p.toJson = some p := fun p hp =>
    Position.ofJson?_toJson (h p hp)
  cases e
  all_goals simp only [fields, positions, List.map_cons, List.map_nil, List.forall_mem_cons,
    List.not_mem_nil, false_implies, implies_true, and_true] at hfields hposition
  case ruleRejected origin direction words reason =>
    have hwords : (Json.ofList .string words).list? Json.string? = some words :=
      Json.list?_ofList fun _ _ => rfl
    simp [name, ofFields?, hfields, hposition, Direction.ofJson?_toJson, hwords, Json.string?]
  case transformed =>
    simp [name, ofFields?, hfields, PieceId.ofJson?_toJson, hposition, Noun.ofJson?_toJson]
  case moved =>
    simp [name, ofFields?, hfields, PieceId.ofJson?_toJson, Kind.ofJson?_toJson, hposition]
  case moveRejected =>
    simp [name, ofFields?, hfields, PieceId.ofJson?_toJson, hposition, Refusal.ofJson?_toJson]
  case destroyed =>
    simp [name, ofFields?, hfields, PieceId.ofJson?_toJson, Kind.ofJson?_toJson, hposition,
      HazardCause.ofJson?_toJson]
  case outcomeReached =>
    simp [name, ofFields?, hfields, Outcome.ofJson?_toJson]

theorem ofHeld?_toJson (h : ∀ p ∈ e.positions, p.Representable) : ofHeld? e.toJson = some e := by
  rw [toJson, ofHeld?, member?_event]
  exact ofFields?_toJson h

theorem ofText?_toJsonLine (e : Event) : Json.ofText? e.toJsonLine = some e.toJson :=
  Json.ofText?_text e.toJson

/-- An event is written on one line, on which its sort stands under a name of its own, and is read
from this line as it was. -/
theorem jsonLine_round_trip {e : Event} (h : ∀ p ∈ e.positions, p.Representable) :
    (∀ c ∈ e.toJsonLine.toList, 32 ≤ c.toNat) ∧
      (∃ members, Json.ofText? e.toJsonLine = some (.object members) ∧
        Json.member? members "event" = some (some (.string e.name))) ∧
      ofJsonText? e.toJsonLine = some e := by
  refine ⟨?_, ⟨_, ofText?_toJsonLine e, member?_event e⟩, ?_⟩
  · rw [toJsonLine, Json.text, String.toList_ofList]
    exact Json.printed_chars e.toJson
  · rw [ofJsonText?, ofText?_toJsonLine, Option.bind_some, ofJson?, held?_toJson h,
      Option.bind_some, ofHeld?_toJson h]

/-- A run of words that cannot be written as they stand, one of them the name that the sort of an
event stands under. -/
def escapedWords : Event :=
  .ruleRejected ⟨-2147483648, 7⟩ .down ["event", "\"\\", "\n\x01\x1f", "é😀"]
    "word 0:\tno\r\nobject"

theorem jsonLine_escapedWords :
    (∀ p ∈ escapedWords.positions, p.Representable) ∧
      (∀ c ∈ escapedWords.toJsonLine.toList, 32 ≤ c.toNat) ∧
      (∃ members, Json.ofText? escapedWords.toJsonLine = some (.object members) ∧
        Json.member? members "event" = some (some (.string "rule_rejected"))) ∧
      ofJsonText? escapedWords.toJsonLine = some escapedWords := by
  have h : ∀ p ∈ escapedWords.positions, p.Representable := by decide
  exact ⟨h, jsonLine_round_trip h⟩

end Event

end WordTiles
