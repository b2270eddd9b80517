import WordTiles.Json.Record

/-!
# Records in JSON, written and read

A record is written with its fields by their names, which are distinct, and read by looking these
names up; fields that are not asked for do no harm. What is written for records, lists, texts and
numbers in range keeps within the limits of a reader that holds it in memory, and is held as it
stands (`Json.Kept`).

The main statements are `Json.fields?_object`, `Json.list?_ofList` and `Json.Kept.held?_eq`.
-/

set_option autoImplicit false

namespace WordTiles.Json

variable {α : Type} {j : Json} {members fields : List (String × Json)} {name : String}

/-! ## Fields -/

/-- A member whose name no other has is found by its name. -/
theorem member?_of_mem (hnodup : (members.map (·.1)).Nodup) (h : (name, j) ∈ members) :
    member? members name = some (some j) := by
  have hfilter : members.filter (·.1 == name) = [(name, j)] := by
    induction members with
    | nil => cases h
    | cons m members ih =>
        obtain ⟨hfirst, hrest⟩ := List.nodup_cons.mp hnodup
        rcases List.mem_cons.mp h with rfl | hmem
        · have hnone : members.filter (·.1 == name) = [] := by
            rw [List.filter_eq_nil_iff]
            intro m hm heq
            exact hfirst (List.mem_map.mpr ⟨m, hm, eq_of_beq heq⟩)
          rw [List.filter_cons_of_pos (by simp), hnone]
        · have hne : m.1 ≠ name := by
            rintro rfl
            exact hfirst (List.mem_map.mpr ⟨(m.1, j), hmem, rfl⟩)
          rw [List.filter_cons_of_neg (by simpa using hne), ih hrest hmem]
  rw [member?, hfilter]

/-- The fields that are asked for are found among the members, in the order in which they are asked
for. -/
theorem fields?_object {names : List String} (hnodup : names.Nodup)
    (hnames : members.map (·.1) = names) (h : fields ⊆ members) :
    (object members).fields? (fields.map (·.1)) = some (fields.map (some ·.2)) := by
  subst hnames
  rw [fields?]
  induction fields with
  | nil => rfl
  | cons field fields ih =>
      obtain ⟨hfield, hrest⟩ := List.cons_subset.mp h
      rw [List.map_cons, List.mapM_cons, member?_of_mem hnodup hfield, ih hrest]
      rfl

/-- An optional value is read back if it is one whose form is not `null`. -/
theorem optional?_ofOption {toJson : α → Json} {ofJson? : Json → Option α} {a? : Option α}
    (h : ∀ a ∈ a?, toJson a ≠ .null ∧ ofJson? (toJson a) = some a) :
    optional? ofJson? (some (ofOption toJson a?)) = some a? := by
  cases a? with
  | none => rfl
  | some a =>
      obtain ⟨hnull, hread⟩ := h a rfl
      rw [ofOption, optional?, hread]
      · rfl
      · exact hnull

/-! ## Lists -/

theorem list?_ofList {toJson : α → Json} {ofJson? : Json → Option α} {as : List α}
    (h : ∀ a ∈ as, ofJson? (toJson a) = some a) : (ofList toJson as).list? ofJson? = some as := by
  rw [ofList, list?]
  induction as with
  | nil => rfl
  | cons a as ih =>
      obtain ⟨ha, hrest⟩ := List.forall_mem_cons.mp h
      rw [List.map_cons, List.mapM_cons, ha, ih hrest]
      rfl

/-! ## Numbers -/

theorem count?_ofNat {n : Nat} (h : n ≤ greatestCount) : count? (ofNat n) = some n := by
  show (if n ≤ greatestCount then some n else none) = _
  rw [if_pos h]

theorem integer?_integer {least greatest i : Int} (h : least ≤ i ∧ i ≤ greatest) :
    integer? least greatest (.integer i) = some i := if_pos h

/-! ## Values that are held -/

/-- A value that is held as it stands: nested no deeper than given, with text and numbers in range,
and without empty objects. -/
structure Kept (n : Nat) (j : Json) : Prop where
  depth_le : j.depth ≤ n
  isSound : j.isSound = true
  emptyAsNull : j.emptyAsNull = j

theorem Kept.held?_eq {n : Nat} (h : Kept n j) (hn : n < depthLimit) : j.held? = some j := by
  have hdepth : j.depth < depthLimit := Nat.lt_of_le_of_lt h.depth_le hn
  rw [held?, isHoldable, decide_eq_true hdepth, h.isSound, h.emptyAsNull]
  rfl

theorem kept_string (n : Nat) (s : String) : Kept n (.string s) := ⟨Nat.zero_le n, rfl, rfl⟩

/-- Integers of few enough digits are not rounded when they are held. -/
theorem kept_integer (n : Nat) {i : Int} (h : i.natAbs < Nat.pow 2 Double.precision) :
    Kept n (.integer i) := ⟨Nat.zero_le n, Double.isFiniteByFactors_of_lt h, rfl⟩

theorem kept_array {n : Nat} {items : List Json} (h : ∀ j ∈ items, Kept n j) :
    Kept (n + 1) (.array items) := by
  suffices depthOfItems items ≤ n ∧ areSound items = true ∧ emptyAsNullItems items = items from
    ⟨Nat.succ_le_succ this.1, this.2.1, congrArg array this.2.2⟩
  induction items with
  | nil => exact ⟨Nat.zero_le n, rfl, rfl⟩
  | cons j items ih =>
      obtain ⟨hj, hrest⟩ := List.forall_mem_cons.mp h
      obtain ⟨hdepth, hsound, hempty⟩ := ih hrest
      refine ⟨Nat.max_le.mpr ⟨hj.depth_le, hdepth⟩, ?_, ?_⟩
      · rw [areSound, hj.isSound, hsound]
        rfl
      · rw [emptyAsNullItems, hj.emptyAsNull, hempty]

theorem kept_object {n : Nat} (hne : members ≠ []) (h : ∀ m ∈ members, Kept n m.2) :
    Kept (n + 1) (.object members) := by
  -- only the members are looked at from here on, and there may be none left of them
  suffices depthOfMembers members ≤ n ∧ membersSound members = true ∧
      emptyAsNullMembers members = members by
    obtain ⟨hdepth, hsound, hempty⟩ := this
    refine ⟨Nat.succ_le_succ hdepth, hsound, ?_⟩
    obtain ⟨m, rest, rfl⟩ := List.exists_cons_of_ne_nil hne
    exact congrArg object hempty
  clear hne
  induction members with
  | nil => exact ⟨Nat.zero_le n, rfl, rfl⟩
  | cons m members ih =>
      obtain ⟨hm, hrest⟩ := List.forall_mem_cons.mp h
      obtain ⟨hdepth, hsound, hempty⟩ := ih hrest
      refine ⟨Nat.max_le.mpr ⟨hm.depth_le, hdepth⟩, ?_, ?_⟩
      · rw [membersSound, hm.isSound, hsound]
        rfl
      · rw [emptyAsNullMembers, hm.emptyAsNull, hempty]

theorem kept_ofList {n : Nat} {toJson : α → Json} {as : List α} (h : ∀ a ∈ as, Kept n (toJson a)) :
    Kept (n + 1) (ofList toJson as) :=
  kept_array (List.forall_mem_map.mpr h)

end WordTiles.Json
