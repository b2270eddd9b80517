import Mathlib.Data.List.Basic
import Mathlib.Logic.Relation
import WordTiles.Json.Record

/-!
# Changes of a JSON value that a reader does not notice

The members of an object may be put in another order, a member may be added whose name the reader
does not ask for, and a member may be left out if it is `null` and the reader can do without it. A
change may also be made further inside, in the value of a member or in an item of a list. A reader
that reads something before such a change reads the same after it, and so after any number of
changes.

The main statements are `Json.RecordChange.mem_bind_member?`, `Json.Unnoticed.list?` and
`Json.Unnoticed.reflTransGen`.
-/

set_option autoImplicit false

namespace WordTiles.Json

variable {α : Type} {j j' : Json} {members members' before after : List (String × Json)}
  {name other : String}

/-! ## Changes -/

/-- One change of a record, for a reader that asks for some names and can do without some of them.
The values of members may change as well, in ways that depend on their names. -/
inductive RecordChange (names optional : List String) (inside : String → Json → Json → Prop) :
    Json → Json → Prop
  | reorder {members members' : List (String × Json)} (h : members.Perm members') :
      RecordChange names optional inside (.object members) (.object members')
  | add {before after : List (String × Json)} {name : String} (value : Json) (h : name ∉ names) :
      RecordChange names optional inside (.object (before ++ after))
        (.object (before ++ (name, value) :: after))
  | leaveOut {before after : List (String × Json)} {name : String} (h : name ∈ optional) :
      RecordChange names optional inside (.object (before ++ (name, .null) :: after))
        (.object (before ++ after))
  | inMember {before after : List (String × Json)} {name : String} {j j' : Json}
      (h : inside name j j') :
      RecordChange names optional inside (.object (before ++ (name, j) :: after))
        (.object (before ++ (name, j') :: after))

inductive ItemChange (change : Json → Json → Prop) : Json → Json → Prop
  | intro {before after : List Json} {j j' : Json} (h : change j j') :
      ItemChange change (.array (before ++ j :: after)) (.array (before ++ j' :: after))

/-- A reader does not notice a change: what it reads before it, it reads after it. -/
def Unnoticed (change : Json → Json → Prop) (read : Json → Option α) : Prop :=
  ∀ ⦃j j' : Json⦄, change j j' → ∀ a ∈ read j, a ∈ read j'

/-- What is not noticed once is not noticed any number of times. -/
theorem Unnoticed.reflTransGen {change : Json → Json → Prop} {read : Json → Option α}
    (h : Unnoticed change read) : Unnoticed (Relation.ReflTransGen change) read := by
  intro j j' hrun a ha
  induction hrun with
  | refl => exact ha
  | tail _ hstep ih => exact h hstep a ih

/-- Only objects are changed as records, and they stay objects. -/
theorem RecordChange.exists_object {names optional : List String}
    {inside : String → Json → Json → Prop} (h : RecordChange names optional inside j j') :
    ∃ members members', j = object members ∧ j' = object members' := by
  cases h
  all_goals exact ⟨_, _, rfl, rfl⟩

/-! ## Members -/

/-- Looking a name up does not depend on the order of the members. -/
theorem member?_perm (h : members.Perm members') (name : String) :
    member? members name = member? members' name := by
  have hfound := h.filter (·.1 == name)
  rw [member?, member?]
  generalize members.filter (·.1 == name) = found at hfound ⊢
  generalize members'.filter (·.1 == name) = found' at hfound ⊢
  rcases found with _ | ⟨m, _ | ⟨m₂, rest⟩⟩
  · rw [hfound.nil_eq]
  · rw [hfound.singleton_eq]
  · rcases found' with _ | ⟨n, _ | ⟨n₂, rest'⟩⟩
    · cases hfound.eq_nil
    · cases hfound.eq_singleton
    · rfl

theorem member?_insert_of_ne (h : other ≠ name) :
    member? (before ++ (other, j) :: after) name = member? (before ++ after) name := by
  rw [member?_perm List.perm_middle, member?, List.filter_cons_of_neg (by simpa using h),
    member?]

/-- A member is found by its name if no other has it, and otherwise none is found. -/
theorem member?_insert_self {found : Option Json} :
    member? (before ++ (name, j) :: after) name = some found ↔
      member? (before ++ after) name = some none ∧ found = some j := by
  rw [member?_perm List.perm_middle, member?, List.filter_cons_of_pos (by simp), member?]
  generalize (before ++ after).filter (·.1 == name) = others
  rcases others with _ | ⟨m, _ | ⟨m₂, rest⟩⟩
  · simp [eq_comm]
  · simp
  · simp

/-- A reader of the member with a name does not notice a change of the record, if it asks for this
name, if it can do without the member whenever that may be left out, and if it does not notice the
changes of the value. -/
theorem RecordChange.mem_bind_member? {names optional : List String}
    {inside : String → Json → Json → Prop} {read : Option Json → Option α} {a : α}
    (h : RecordChange names optional inside (.object members) (.object members'))
    (hname : name ∈ names) (hnull : name ∈ optional → read (some .null) = read none)
    (hinside : Unnoticed (inside name) fun j => read (some j))
    (ha : a ∈ (member? members name).bind read) : a ∈ (member? members' name).bind read := by
  obtain ⟨found, hfound, hread⟩ := Option.mem_bind_iff.mp ha
  cases h with
  | reorder hperm => exact member?_perm hperm name ▸ ha
  | add value hother =>
      rw [member?_insert_of_ne (ne_of_mem_of_not_mem hname hother).symm]
      exact ha
  | @leaveOut before after other hoptional =>
      by_cases hother : other = name
      · subst hother
        obtain ⟨hnone, rfl⟩ := member?_insert_self.mp hfound
        rw [hnone, Option.bind_some, ← hnull hoptional]
        exact hread
      · rw [← member?_insert_of_ne hother]
        exact ha
  | @inMember before after other j j' hchange =>
      by_cases hother : other = name
      · subst hother
        obtain ⟨hnone, rfl⟩ := member?_insert_self.mp hfound
        rw [member?_insert_self.mpr ⟨hnone, rfl⟩, Option.bind_some]
        exact hinside hchange a hread
      · rw [member?_insert_of_ne hother] at ha ⊢
        exact ha

/-! ## Items -/

/-- A reader of lists does not notice what the reader of items does not notice. -/
theorem Unnoticed.list? {change : Json → Json → Prop} {read : Json → Option α}
    (h : Unnoticed change read) : Unnoticed (ItemChange change) (Json.list? read) := by
  intro items items' hitems as has
  cases hitems with
  | @intro before after j j' hchange =>
      rw [Json.list?] at has ⊢
      induction before generalizing as with
      | nil =>
          rw [List.nil_append, List.mapM_cons] at has ⊢
          obtain ⟨a, ha, hrest⟩ := Option.mem_bind_iff.mp has
          exact Option.mem_bind_iff.mpr ⟨a, h hchange a ha, hrest⟩
      | cons item before ih =>
          rw [List.cons_append, List.mapM_cons] at has ⊢
          obtain ⟨a, ha, hafter⟩ := Option.mem_bind_iff.mp has
          obtain ⟨bs, hbs, hcons⟩ := Option.mem_bind_iff.mp hafter
          exact Option.mem_bind_iff.mpr ⟨a, ha, Option.mem_bind_iff.mpr ⟨bs, ih bs hbs, hcons⟩⟩

end WordTiles.Json
