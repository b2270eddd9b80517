import WordTiles.Encoding.Level
import WordTiles.Proofs.Encoding.Piece
import WordTiles.Proofs.Json.Change
import WordTiles.Proofs.Json.RoundTrip

/-!
# JSON text of levels, written and read

A level is read from its own text as it was, whatever its rows and stacks, the words on its tiles
and the positions and facings that it declares. A hand that writes levels need not keep to the form
in which they are written here: the members of an object may stand in any order, a position or a
facing of `null` may be left out, and members of other names may be added to all objects but kinds,
of which the one member tells the sort (`Level.FormChange`). All of these texts give the same level.

The main statement is `Level.round_trip_up_to_form`.
-/

set_option autoImplicit false

namespace WordTiles

variable {members : List (String × Json)}

/-! ## Positions -/

namespace Position

/-- The changes of the JSON form of a position that do not matter. -/
def FormChange : Json → Json → Prop := Json.RecordChange ["row", "col"] [] fun _ _ _ => False

theorem mem_ofJson?_object {p : Position} : p ∈ ofJson? (.object members) ↔
    p.row ∈ (Json.member? members "row").bind (·.bind coordinate?) ∧
      p.col ∈ (Json.member? members "col").bind (·.bind coordinate?) := by
  obtain ⟨r, c⟩ := p
  rw [ofJson?, Json.fields?, List.mapM_cons, List.mapM_cons, List.mapM_nil]
  rcases Json.member? members "row" with _ | _ | row
  · simp
  · cases Json.member? members "col" <;> simp
  · rcases Json.member? members "col" with _ | _ | col
    · simp
    · simp
    · simp [Option.bind_eq_some_iff]

theorem unnoticed_formChange : Json.Unnoticed FormChange ofJson? := by
  intro j j' h p hp
  obtain ⟨members, members', rfl, rfl⟩ := h.exists_object
  obtain ⟨hrow, hcol⟩ := mem_ofJson?_object.mp hp
  apply mem_ofJson?_object.mpr
  constructor
  · exact h.mem_bind_member? (by decide) nofun nofun hrow
  · exact h.mem_bind_member? (by decide) nofun nofun hcol

end Position

/-! ## Kinds -/

namespace Kind

/-- The one change of the JSON form of a kind that does not matter. -/
inductive FormChange : Json → Json → Prop
  | reorder {members members' : List (String × Json)} (h : members.Perm members') :
      FormChange (.object members) (.object members')

theorem unnoticed_formChange : Json.Unnoticed FormChange ofJson? := by
  rintro _ _ ⟨h⟩ k hk
  rename_i members members'
  -- there is no second member to change places with
  match members, hk with
  | [m], hk =>
    rw [h.singleton_eq] at hk
    exact hk

end Kind

/-! ## Specifications -/

namespace PieceSpec

variable {spec : PieceSpec}

/-- The changes of the JSON form of a specification that do not matter. -/
def FormChange : Json → Json → Prop :=
  Json.RecordChange ["kind", "position", "facing"] ["position", "facing"] fun name =>
    if name = "kind" then Kind.FormChange
    else if name = "position" then Position.FormChange
    else fun _ _ => False

theorem mem_ofJson?_object : spec ∈ ofJson? (.object members) ↔
    spec.kind ∈ (Json.member? members "kind").bind (·.bind Kind.ofJson?) ∧
      spec.position ∈ (Json.member? members "position").bind (Json.optional? Position.ofJson?) ∧
      spec.facing ∈ (Json.member? members "facing").bind (Json.optional? Direction.ofJson?) := by
  obtain ⟨k, p, d⟩ := spec
  rw [ofJson?, Json.fields?, List.mapM_cons, List.mapM_cons, List.mapM_cons, List.mapM_nil]
  cases Json.member? members "position" with
  | none => cases Json.member? members "kind" <;> simp
  | some position =>
      cases Json.member? members "facing" with
      | none => cases Json.member? members "kind" <;> simp
      | some facing =>
          rcases Json.member? members "kind" with _ | _ | kind
          · simp
          · simp
          · simp [Option.bind_eq_some_iff]

theorem unnoticed_formChange : Json.Unnoticed FormChange ofJson? := by
  intro j j' h spec hspec
  obtain ⟨members, members', rfl, rfl⟩ := h.exists_object
  obtain ⟨hkind, hposition, hfacing⟩ := mem_ofJson?_object.mp hspec
  refine mem_ofJson?_object.mpr ⟨?_, ?_, ?_⟩
  · exact h.mem_bind_member? (by decide) (by decide) Kind.unnoticed_formChange hkind
  · refine h.mem_bind_member? (by decide) (fun _ => rfl) ?_ hposition
    intro j j' hchange p hp
    obtain ⟨members, members', rfl, rfl⟩ := Json.RecordChange.exists_object hchange
    obtain ⟨p, hread, rfl⟩ := Option.map_eq_some_iff.mp hp
    exact Option.mem_map_of_mem some (Position.unnoticed_formChange hchange p hread)
  · exact h.mem_bind_member? (by decide) (fun _ => rfl) nofun hfacing

/-- A specification is read from its own JSON form if coordinates can hold the position that it
declares. -/
theorem ofJson?_toJson (h : ∀ p ∈ spec.position, p.Representable) :
    ofJson? spec.toJson = some spec := by
  have hfields : spec.toJson.fields? ["kind", "position", "facing"] =
      some [some spec.kind.toJson, some (.ofOption Position.toJson spec.position),
        some (.ofOption Direction.toJson spec.facing)] :=
    Json.fields?_object (show ["kind", "position", "facing"].Nodup by decide) rfl
      (List.Subset.refl _)
  have hposition : Json.optional? Position.ofJson? (some (.ofOption Position.toJson spec.position))
      = some spec.position :=
    Json.optional?_ofOption fun p hp => ⟨nofun, Position.ofJson?_toJson (h p hp)⟩
  have hfacing : Json.optional? Direction.ofJson? (some (.ofOption Direction.toJson spec.facing))
      = some spec.facing :=
    Json.optional?_ofOption fun d _ => ⟨nofun, Direction.ofJson?_toJson d⟩
  rw [ofJson?, hfields]
  simp only [Kind.ofJson?_toJson, hposition, hfacing]
  rfl

end PieceSpec

/-! ## Levels -/

namespace Level

variable {l : Level}

/-- The positions that the specifications of a level declare. -/
def declared (l : Level) : List Position := l.cells.flatten.flatten.filterMap (·.position)

/-- The changes of the JSON form of a level that do not matter, in the level itself or in one of its
specifications. -/
def FormChange : Json → Json → Prop :=
  Json.RecordChange ["cells"] [] fun name =>
    if name = "cells" then Json.ItemChange (Json.ItemChange (Json.ItemChange PieceSpec.FormChange))
    else fun _ _ => False

theorem mem_ofJson?_object : l ∈ ofJson? (.object members) ↔
    l.cells ∈ (Json.member? members "cells").bind
      (·.bind (Json.list? (Json.list? (Json.list? PieceSpec.ofJson?)))) := by
  obtain ⟨cells⟩ := l
  rw [ofJson?, Json.fields?, List.mapM_cons, List.mapM_nil]
  rcases Json.member? members "cells" with _ | _ | j
  · simp
  · simp
  · simp

theorem unnoticed_formChange : Json.Unnoticed FormChange ofJson? := by
  intro j j' h l hl
  obtain ⟨members, members', rfl, rfl⟩ := h.exists_object
  apply mem_ofJson?_object.mpr
  exact h.mem_bind_member? (by decide) nofun PieceSpec.unnoticed_formChange.list?.list?.list?
    (mem_ofJson?_object.mp hl)

theorem ofJson?_toJson (h : ∀ p ∈ l.declared, p.Representable) : ofJson? l.toJson = some l := by
  have hfields : l.toJson.fields? ["cells"] =
      some [some (Json.ofList (Json.ofList (Json.ofList PieceSpec.toJson)) l.cells)] :=
    Json.fields?_object (show ["cells"].Nodup by decide) rfl (List.Subset.refl _)
  have hcells : (Json.ofList (Json.ofList (Json.ofList PieceSpec.toJson)) l.cells).list?
      (Json.list? (Json.list? PieceSpec.ofJson?)) = some l.cells := by
    refine Json.list?_ofList fun cells hcells => ?_
    refine Json.list?_ofList fun stack hstack => ?_
    refine Json.list?_ofList fun spec hspec => PieceSpec.ofJson?_toJson fun p hp => ?_
    have hmem : spec ∈ l.cells.flatten.flatten :=
      List.mem_flatten_of_mem (List.mem_flatten_of_mem hcells hstack) hspec
    exact h p (List.mem_filterMap.mpr ⟨spec, hmem, hp⟩)
  rw [ofJson?, hfields]
  simp only [hcells]
  rfl

/-- A level whose declared positions coordinates can hold is read from the text that is written for
it, and also from every text of a form that differs from its own by changes that do not matter. -/
theorem round_trip_up_to_form {l : Level} (h : ∀ p ∈ l.declared, p.Representable) :
    ofJsonText? l.toJsonText = some l ∧
      ∀ j : Json, Relation.ReflTransGen FormChange l.toJson j →
        ofJsonText? j.text = some l ∧ ∀ s, Json.ofText? s = some j → ofJsonText? s = some l := by
  have hread : ∀ j : Json, Relation.ReflTransGen FormChange l.toJson j →
      ∀ s, Json.ofText? s = some j → ofJsonText? s = some l := by
    intro j hchanged s hs
    rw [ofJsonText?, hs, Option.bind_some]
    exact unnoticed_formChange.reflTransGen hchanged l (ofJson?_toJson h)
  refine ⟨hread _ .refl _ (Json.ofText?_text _), fun j hchanged => ⟨?_, hread j hchanged⟩⟩
  exact hread j hchanged _ (Json.ofText?_text j)

/-- A ragged level with one tile, whose word must be escaped. -/
def escapedTile : Level := ⟨[[[⟨.tile "say \"\\\n\x01é", some ⟨0, -1⟩, none⟩]], []]⟩

/-- A form of this level around the form of its one specification, with a remark. -/
def remarkedForm (spec : Json) : Json :=
  .object [("remark", .integer 1), ("cells", .array [.array [.array [spec]], .array []])]

/-- A form of the specification: without a facing, in another order, and with a remark. -/
def reorderedSpec : Json :=
  .object [("position", .object [("col", .integer (-1)), ("z", .null), ("row", .integer 0)]),
    ("kind", .object [("text", .string "say \"\\\n\x01é")])]

/-- A text of the changed form, with blanks and with other escapes. -/
def escapedTileText : String :=
  "\x7b\"remark\": 1, \"cells\": " ++
    "[[[\x7b\"position\": \x7b\"col\": -1, \"z\": null, \"row\": 0\x7d, " ++
    "\"kind\": \x7b\"text\": \"say \\u0022\\\\\\n\\u0001\\u00e9\"\x7d\x7d]], []]\x7d"

/-- The changed form gives the level as well, and so does any text of it. -/
theorem ofJsonText?_escapedTileText :
    (∀ p ∈ escapedTile.declared, p.Representable) ∧
      Relation.ReflTransGen FormChange escapedTile.toJson (remarkedForm reorderedSpec) ∧
      Json.ofText? escapedTileText = some (remarkedForm reorderedSpec) ∧
      ofJsonText? escapedTileText = some escapedTile := by
  have hdeclared : ∀ p ∈ escapedTile.declared, p.Representable := by decide
  have hspec : ∀ spec spec' : Json, PieceSpec.FormChange spec spec' →
      FormChange (remarkedForm spec) (remarkedForm spec') := fun spec spec' h =>
    @Json.RecordChange.inMember _ _ _ [("remark", .integer 1)] [] "cells" _ _
      (@Json.ItemChange.intro _ [] [.array []] _ _
        (@Json.ItemChange.intro _ [] [] _ _ (@Json.ItemChange.intro _ [] [] _ _ h)))
  let kind : String × Json := ("kind", .object [("text", .string "say \"\\\n\x01é")])
  let row : String × Json := ("row", .integer 0)
  let col : String × Json := ("col", .integer (-1))
  have hremark : FormChange escapedTile.toJson
      (remarkedForm (.object [kind, ("position", .object [row, col]), ("facing", .null)])) :=
    @Json.RecordChange.add _ _ _ [] _ "remark" _ (by decide)
  have hfacing : PieceSpec.FormChange
      (.object [kind, ("position", .object [row, col]), ("facing", .null)])
      (.object [kind, ("position", .object [row, col])]) :=
    @Json.RecordChange.leaveOut _ _ _ [kind, ("position", .object [row, col])] [] "facing"
      (by decide)
  have horder : PieceSpec.FormChange (.object [kind, ("position", .object [row, col])])
      (.object [("position", .object [row, col]), kind]) := .reorder (.swap ..)
  have hposition : PieceSpec.FormChange (.object [("position", .object [row, col]), kind])
      (.object [("position", .object [col, row]), kind]) :=
    @Json.RecordChange.inMember _ _ _ [] [kind] "position" _ _
      (Json.RecordChange.reorder (.swap ..))
  have hz : PieceSpec.FormChange (.object [("position", .object [col, row]), kind])
      (.object [("position", .object [col, ("z", .null), row]), kind]) :=
    @Json.RecordChange.inMember _ _ _ [] [kind] "position" _ _
      (@Json.RecordChange.add _ _ _ [col] [row] "z" .null (by decide))
  have hchanged : Relation.ReflTransGen FormChange escapedTile.toJson
      (remarkedForm reorderedSpec) :=
    ((((Relation.ReflTransGen.single hremark).tail (hspec _ _ hfacing)).tail
      (hspec _ _ horder)).tail (hspec _ _ hposition)).tail (hspec _ _ hz)
  have hsame : (Json.ofText? escapedTileText).map Json.text =
      some (remarkedForm reorderedSpec).text := by decide +kernel
  have htext : Json.ofText? escapedTileText = some (remarkedForm reorderedSpec) :=
    Option.map_injective Json.text_injective hsame
  obtain ⟨-, hany⟩ := round_trip_up_to_form hdeclared
  exact ⟨hdeclared, hchanged, htext, (hany _ hchanged).2 _ htext⟩

end Level

end WordTiles
