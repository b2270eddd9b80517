import WordTiles.Capability

/-!
# What a capability table says

A table is known by its entries (`CapabilityTable.ext_lookup`). The nouns that stand on a board
only get an entry by that, so for one rule set the table depends on which nouns are there, and
not on how many things of them or where (`CapabilityTable.build_congr`). A noun has what some rule
grants it (`CapabilityTable.has_get_build`), so the order of the rules does not matter
(`CapabilityTable.build_perm`), and without rules no noun has a capability
(`CapabilityTable.unpowered_build`).
-/

set_option autoImplicit false

namespace WordTiles

/-! ## Capabilities of one kind -/

namespace Capabilities

theorem isInert_iff {c : Capabilities} : c.isInert = true ↔ c = none := by
  have hactions : c.isInert = true ↔ ∀ a, c.has a = false := by
    rw [isInert, List.isEmpty_iff, actions, List.filter_eq_nil_iff]
    constructor
    · intro h a
      simpa using h a (Action.mem_all a)
    · intro h a _
      simp [h a]
  rw [hactions]
  constructor
  · intro h
    apply eq_of_has
    intro a
    rw [h a, has_none]
  · rintro rfl a
    exact has_none a

end Capabilities

namespace CapabilityTable

variable {t t' : CapabilityTable} {x : Piece}

/-! ## Entries -/

theorem ext_lookup (h : ∀ n, t.lookup? n = t'.lookup? n) : t = t' := by
  have hindex : ∀ i : Fin 8, ∃ n ∈ Noun.all, n.index = i := by decide
  obtain ⟨entries⟩ := t
  obtain ⟨entries'⟩ := t'
  rw [mk.injEq]
  apply Vector.ext
  intro i hi
  obtain ⟨n, -, hn⟩ := hindex ⟨i, hi⟩
  have hentry := h n
  simp only [lookup?, hn] at hentry
  exact hentry

theorem get_mention (t : CapabilityTable) (m n : Noun) : (t.mention m).get n = t.get n := by
  rw [get, lookup?_mention]
  split <;> rfl

theorem get_foldl_mention (ns : List Noun) (t : CapabilityTable) (n : Noun) :
    (ns.foldl mention t).get n = t.get n := by
  induction ns generalizing t with
  | nil => rfl
  | cons m rest ih => rw [List.foldl_cons, ih, get_mention]

/-- Mentioned nouns have an entry, with what they had before. -/
theorem lookup?_foldl_mention (ns : List Noun) (t : CapabilityTable) (n : Noun) :
    (ns.foldl mention t).lookup? n = if n ∈ ns then some (t.get n) else t.lookup? n := by
  induction ns generalizing t with
  | nil => simp
  | cons m rest ih =>
      rw [List.foldl_cons, ih, get_mention, lookup?_mention]
      by_cases hrest : n ∈ rest
      · simp [hrest]
      · by_cases hm : m = n
        · simp [hm]
        · simp [hrest, hm, Ne.symm hm]

/-- Of a board, the table of a rule set takes only which nouns stand on it. -/
theorem build_congr {b b' : Board} (rs : RuleSet)
    (h : ∀ n, n ∈ b.pieces.filterMap (·.kind.noun?) ↔ n ∈ b'.pieces.filterMap (·.kind.noun?)) :
    build rs b = build rs b' := by
  have hmention : (b.pieces.filterMap (·.kind.noun?)).foldl mention empty =
      (b'.pieces.filterMap (·.kind.noun?)).foldl mention empty := by
    apply ext_lookup
    intro n
    simp only [lookup?_foldl_mention, h n]
  rw [build, hmention, build]

/-! ## What rules grant -/

/-- Tables that have entries for the same nouns, with the same capabilities, are equal. -/
theorem ext_has (hentry : ∀ n, (t.lookup? n).isSome = (t'.lookup? n).isSome)
    (hhas : ∀ n a, (t.get n).has a = (t'.get n).has a) : t = t' := by
  apply ext_lookup
  intro n
  have hsome := hentry n
  have hget : t.get n = t'.get n := Capabilities.eq_of_has (hhas n)
  rw [get, get] at hget
  cases h : t.lookup? n with
  | none =>
      rw [h] at hsome
      exact (Option.isNone_iff_eq_none.mp (by simpa using hsome.symm)).symm
  | some c =>
      rw [h] at hsome hget
      obtain ⟨c', h'⟩ := Option.isSome_iff_exists.mp hsome.symm
      rw [h'] at hget ⊢
      exact congrArg some hget

/-- A rule grants its action to its subjects, and takes nothing away. -/
theorem has_get_addRule (t : CapabilityTable) (r : Rule) (n : Noun) (a : Action) :
    ((t.addRule r).get n).has a =
      ((r.granted? == some a && r.appliesTo n) || (t.get n).has a) := by
  rw [addRule, Rule.appliesTo]
  cases r.granted? with
  | none => rfl
  | some a' =>
      dsimp only
      induction r.subjects generalizing t with
      | nil => simp
      | cons m rest ih =>
          have hgrant : ((t.grant m a').get n).has a =
              ((a' == a && n == m) || (t.get n).has a) := by
            rw [get, lookup?_grant]
            split
            next hm => simp [← hm, Capabilities.has_grant, Bool.beq_eq_decide_eq]
            next hm => simp [Ne.symm hm, get]
          rw [List.foldl_cons, ih, hgrant, List.contains_cons, Option.some_beq_some]
          cases a' == a with
          | false => rfl
          | true => simp only [Bool.true_and, Bool.or_left_comm, Bool.or_assoc]

/-- A rule that grants an action gives its subjects an entry. -/
theorem isSome_lookup?_addRule (t : CapabilityTable) (r : Rule) (n : Noun) :
    ((t.addRule r).lookup? n).isSome =
      ((r.granted?.isSome && r.appliesTo n) || (t.lookup? n).isSome) := by
  rw [addRule, Rule.appliesTo]
  cases r.granted? with
  | none => rfl
  | some a =>
      dsimp only
      induction r.subjects generalizing t with
      | nil => simp
      | cons m rest ih =>
          rw [List.foldl_cons, ih, lookup?_grant, List.contains_cons]
          split
          next hm => simp [hm]
          next hm =>
            have hne : (n == m) = false := beq_eq_false_iff_ne.mpr (Ne.symm hm)
            rw [hne, Bool.false_or]

/-- A noun has the capabilities that some rule grants it. -/
theorem has_get_build (rs : RuleSet) (b : Board) (n : Noun) (a : Action) :
    ((build rs b).get n).has a = rs.grants n a := by
  have hfold : ∀ t : CapabilityTable, ((rs.rules.foldl addRule t).get n).has a =
      (rs.grants n a || (t.get n).has a) := by
    rw [RuleSet.grants]
    induction rs.rules with
    | nil => exact fun t => rfl
    | cons r rest ih =>
        intro t
        rw [List.foldl_cons, ih, has_get_addRule, List.any_cons, Bool.or_left_comm, Bool.or_assoc]
  rw [build, hfold, get_foldl_mention, get, lookup?_empty, Option.getD_none, Capabilities.has_none,
    Bool.or_false]

/-- A noun has an entry when some rule grants it something or it stands on the board. -/
theorem isSome_lookup?_build (rs : RuleSet) (b : Board) (n : Noun) :
    ((build rs b).lookup? n).isSome =
      ((rs.rules.any fun r => r.granted?.isSome && r.appliesTo n) ||
        (b.pieces.filterMap (·.kind.noun?)).contains n) := by
  have hfold : ∀ t : CapabilityTable, ((rs.rules.foldl addRule t).lookup? n).isSome =
      ((rs.rules.any fun r => r.granted?.isSome && r.appliesTo n) || (t.lookup? n).isSome) := by
    induction rs.rules with
    | nil => exact fun t => rfl
    | cons r rest ih =>
        intro t
        rw [List.foldl_cons, ih, isSome_lookup?_addRule, List.any_cons, Bool.or_left_comm,
          Bool.or_assoc]
  rw [build, hfold, lookup?_foldl_mention, lookup?_empty]
  congr 1
  split
  next hn => simpa using hn
  next hn => simpa using hn

theorem build_perm {rs rs' : RuleSet} (h : rs'.rules.Perm rs.rules) (b : Board) :
    build rs' b = build rs b := by
  apply ext_has
  · intro n
    rw [isSome_lookup?_build, isSome_lookup?_build, h.any_eq]
  · intro n a
    rw [has_get_build, has_get_build, RuleSet.grants, RuleSet.grants, h.any_eq]

/-! ## Tables without capabilities -/

/-- No noun has a capability. -/
def Unpowered (t : CapabilityTable) : Prop := ∀ n, t.get n = Capabilities.none

theorem unpowered_build {rs : RuleSet} (hrules : rs.rules = []) (b : Board) :
    (build rs b).Unpowered := by
  intro n
  rw [build, hrules, List.foldl_nil, get_foldl_mention, get, lookup?_empty]
  rfl

/-- All that a piece can do then is to be pushed. -/
theorem Unpowered.has_eq_false (h : t.Unpowered) (x : Piece) {a : Action} (ha : a ≠ .push) :
    (t.ofPiece x).has a = false := by
  rw [ofPiece]
  cases x.kind with
  | thing n =>
      show (t.get n).has a = false
      rw [h n]
      exact Capabilities.has_none a
  | tile w =>
      show Capabilities.ofTile.has a = false
      rw [Capabilities.has_ofTile]
      exact decide_eq_false ha

theorem Unpowered.any_has_eq_false (h : t.Unpowered) (s : Stack) {a : Action} (ha : a ≠ .push) :
    s.any (fun x => (t.ofPiece x).has a) = false :=
  List.any_eq_false.mpr fun x _ => by simp [h.has_eq_false x ha]

end CapabilityTable

end WordTiles
