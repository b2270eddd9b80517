import Mathlib.Data.List.Sort
import Mathlib.Logic.Relation
import WordTiles.Proofs.Capability

/-!
# Tables and the rules they come from

A rule grants an action to its subjects when it says of them that they are what the action makes of
a piece (`RuleSet.Grants`). The table of a rule set knows this and nothing else of the rules
(`CapabilityTable.build_congr_grants`): neither their order, nor how often one of them is there, nor
how often a subject is named, nor the rules that grant nothing (`RuleSet.Reworded`).

The nouns with a capability are listed in the order of all nouns, whatever the order in which the
entries of the table are gone through (`CapabilityTable.nounsAmong_eq`).

The main statement is `CapabilityTable.build_agrees`.
-/

set_option autoImplicit false

namespace WordTiles

/-! ## Grants -/

/-- Some rule says of a noun, and perhaps of others, that it is what an action makes of a piece. -/
def RuleSet.Grants (rs : RuleSet) (n : Noun) (a : Action) : Prop :=
  ∃ r ∈ rs.rules, r.verb = .is ∧ r.predicate = .action a ∧ n ∈ r.subjects

theorem Rule.granted?_eq_some_iff {r : Rule} {a : Action} :
    r.granted? = some a ↔ r.verb = .is ∧ r.predicate = .action a := by
  obtain ⟨subjects, verb, predicate⟩ := r
  cases verb <;> cases predicate <;> simp [granted?]

namespace RuleSet

variable {rs rs' : RuleSet} {n : Noun} {a : Action}

theorem grants_iff : rs.grants n a = true ↔ rs.Grants n a := by
  simp only [grants, Grants, List.any_eq_true, Bool.and_eq_true, beq_iff_eq,
    Rule.granted?_eq_some_iff, Rule.appliesTo, List.contains_iff_mem, and_assoc]

/-- The second rule set says the same in other words: its rules are in another order, or it has one
more rule, which is there already or grants nothing, or the subjects of a rule are named again or in
another order. -/
inductive Reworded : RuleSet → RuleSet → Prop where
  | reordered {rules rules' : List Rule} : rules'.Perm rules → Reworded ⟨rules⟩ ⟨rules'⟩
  | again {rules : List Rule} {r : Rule} : r ∈ rules → Reworded ⟨rules⟩ ⟨r :: rules⟩
  | renamed {rules : List Rule} {r : Rule} {subjects : List Noun} :
      (∀ n, n ∈ subjects ↔ n ∈ r.subjects) →
        Reworded ⟨r :: rules⟩ ⟨{ r with subjects } :: rules⟩
  | idle {rules : List Rule} {r : Rule} :
      (r.verb = .has ∨ r.verb = .make ∨ ∃ n, r.predicate = .noun n) →
        Reworded ⟨rules⟩ ⟨r :: rules⟩

theorem grants_cons_iff {rules : List Rule} {r : Rule} :
    (⟨r :: rules⟩ : RuleSet).Grants n a ↔
      (r.verb = .is ∧ r.predicate = .action a ∧ n ∈ r.subjects) ∨
        (⟨rules⟩ : RuleSet).Grants n a := by
  simp only [Grants, List.exists_mem_cons_iff]

theorem Reworded.grants_iff (h : rs.Reworded rs') : rs'.Grants n a ↔ rs.Grants n a := by
  cases h with
  | reordered hperm => simp only [Grants, hperm.mem_iff]
  | again hr =>
      rw [grants_cons_iff]
      exact or_iff_right_of_imp fun hgrants => ⟨_, hr, hgrants⟩
  | renamed hsubjects => rw [grants_cons_iff, grants_cons_iff, hsubjects]
  | idle hidle =>
      rw [grants_cons_iff]
      refine or_iff_right ?_
      rintro ⟨hverb, hpredicate, -⟩
      simp [hverb, hpredicate] at hidle

/-- However often it is said in other words, and back, the same is granted. -/
theorem grants_iff_of_eqvGen (h : Relation.EqvGen Reworded rs rs') :
    rs'.Grants n a ↔ rs.Grants n a := by
  induction h with
  | rel rs rs' hreworded => exact hreworded.grants_iff
  | refl rs => exact Iff.rfl
  | symm rs rs' _ ih => exact ih.symm
  | trans rs rs' rs'' _ _ ih ih' => exact ih'.trans ih

end RuleSet

namespace CapabilityTable

variable {rs rs' : RuleSet} {b : Board} {t : CapabilityTable} {n : Noun} {a : Action}

/-! ## The table of a rule set -/

/-- A noun has an entry when a thing of it stands on the board or something is granted to it. -/
theorem isSome_lookup?_build_iff : ((build rs b).lookup? n).isSome = true ↔
    (∃ x ∈ b.pieces, x.kind = .thing n) ∨ ∃ a, rs.Grants n a := by
  have hthing : ∀ k : Kind, k.noun? = some n ↔ k = .thing n := fun k => by
    cases k <;> simp [Kind.noun?]
  have hgranted : (∃ r ∈ rs.rules, r.granted?.isSome = true ∧ r.appliesTo n = true) ↔
      ∃ a, rs.Grants n a := by
    simp only [Option.isSome_iff_exists, Rule.granted?_eq_some_iff, Rule.appliesTo,
      List.contains_iff_mem, RuleSet.Grants]
    constructor
    · rintro ⟨r, hr, ⟨a, hverb, hpredicate⟩, hn⟩
      exact ⟨a, r, hr, hverb, hpredicate, hn⟩
    · rintro ⟨a, r, hr, hverb, hpredicate, hn⟩
      exact ⟨r, hr, ⟨a, hverb, hpredicate⟩, hn⟩
  rw [isSome_lookup?_build, Bool.or_eq_true, List.any_eq_true, List.contains_iff_mem,
    List.mem_filterMap]
  simp only [Bool.and_eq_true, hthing, hgranted]
  exact or_comm

/-- Of the rules, the table takes only what they grant. -/
theorem build_congr_grants (h : ∀ n a, rs'.Grants n a ↔ rs.Grants n a) (b : Board) :
    build rs' b = build rs b := by
  apply ext_has
  · intro n
    rw [Bool.eq_iff_iff, isSome_lookup?_build_iff, isSome_lookup?_build_iff]
    simp only [h]
  · intro n a
    rw [has_get_build, has_get_build, Bool.eq_iff_iff, RuleSet.grants_iff, RuleSet.grants_iff, h]

/-! ## Nouns with a capability -/

theorem mem_nounsWith_iff : n ∈ t.nounsWith a ↔ (t.get n).has a = true := by
  rw [nounsWith, List.mem_filter]
  exact and_iff_right (Noun.mem_all n)

/-- They are listed in the order of all nouns, each once. -/
theorem pairwise_nounsWith (t : CapabilityTable) (a : Action) :
    (t.nounsWith a).Pairwise fun m n => m.index < n.index := by
  have hall : Noun.all.Pairwise fun m n => m.index < n.index := by decide
  exact hall.filter _

/-- These are the entries of a table, in some order and each once. -/
def Lists (t : CapabilityTable) (entries : List (Noun × Capabilities)) : Prop :=
  entries.Nodup ∧ ∀ n c, (n, c) ∈ entries ↔ t.lookup? n = some c

/-- The nouns that have a capability by the entries, in the order of all nouns. -/
def nounsAmong (entries : List (Noun × Capabilities)) (a : Action) : List Noun :=
  ((entries.filter (·.2.has a)).map Prod.fst).mergeSort fun m n => m.index ≤ n.index

theorem Lists.mem_map_filter_iff {entries : List (Noun × Capabilities)} (h : t.Lists entries) :
    n ∈ (entries.filter (·.2.has a)).map Prod.fst ↔ (t.get n).has a = true := by
  simp only [List.mem_map, List.mem_filter, Prod.exists, exists_and_right, exists_eq_right,
    h.2, get]
  cases t.lookup? n with
  | none => simp [Capabilities.has_none]
  | some c => simp

/-- In whatever order the entries are gone through, sorting their nouns gives one list. -/
theorem nounsAmong_eq {entries : List (Noun × Capabilities)} (h : t.Lists entries) (a : Action) :
    nounsAmong entries a = t.nounsWith a := by
  have hnodup : ((entries.filter (·.2.has a)).map Prod.fst).Nodup := by
    refine (h.1.filter _).map_on ?_
    rintro ⟨n, c⟩ he ⟨n', c'⟩ he' rfl
    have hc := (h.2 n c).mp (List.mem_filter.mp he).1
    have hc' := (h.2 n c').mp (List.mem_filter.mp he').1
    rw [Option.some.inj (hc.symm.trans hc')]
  have hnodup' : (t.nounsWith a).Nodup :=
    (pairwise_nounsWith t a).imp fun hlt heq => by simp [heq] at hlt
  have hperm : ((entries.filter (·.2.has a)).map Prod.fst).Perm (t.nounsWith a) :=
    (List.perm_ext_iff_of_nodup hnodup hnodup').mpr fun n => by
      rw [h.mem_map_filter_iff, mem_nounsWith_iff]
  have hsorted : (nounsAmong entries a).Pairwise fun m n => decide (m.index ≤ n.index) = true :=
    List.pairwise_mergeSort (fun m n k => by simpa using le_trans)
      (fun m n => by simpa using le_total m.index n.index) _
  have hsorted' : (t.nounsWith a).Pairwise fun m n => decide (m.index ≤ n.index) = true :=
    (pairwise_nounsWith t a).imp fun hlt => decide_eq_true (Fin.le_of_lt hlt)
  apply List.Perm.eq_of_pairwise _ hsorted hsorted' ((List.mergeSort_perm _ _).trans hperm)
  intro m n _ _ hmn hnm
  exact Noun.index_injective (Fin.le_antisymm (of_decide_eq_true hmn) (of_decide_eq_true hnm))

/-! ## Tiles -/

/-- A tile can be pushed, and nothing else, whatever the table says. -/
theorem has_ofPiece_of_tile (t : CapabilityTable) {x : Piece} {w : String} (hx : x.kind = .tile w)
    (a : Action) : (t.ofPiece x).has a = true ↔ a = .push := by
  rw [ofPiece, hx]
  show Capabilities.ofTile.has a = true ↔ _
  rw [Capabilities.has_ofTile, decide_eq_true_iff]

/-- **A table agrees with the rules that it comes from.** A noun has a capability exactly when some
rule grants it. It has an entry exactly when a thing of it stands on the board or something is
granted to it. The nouns with a capability are those to which it is granted, in the order of all
nouns and each once, in whatever order the entries are gone through. Rules that say the same in
other words make the same table. And by every table a tile can be pushed and nothing else. -/
theorem build_agrees (rs : RuleSet) (b : Board) :
    (∀ n a, ((build rs b).get n).has a = rs.grants n a ∧ (rs.grants n a = true ↔ rs.Grants n a)) ∧
      (∀ n, ((build rs b).lookup? n).isSome = true ↔
        (∃ x ∈ b.pieces, x.kind = .thing n) ∨ ∃ a, rs.Grants n a) ∧
      (∀ a, ((build rs b).nounsWith a).Pairwise (fun m n => m.index < n.index) ∧
        (∀ n, n ∈ (build rs b).nounsWith a ↔ rs.Grants n a) ∧
        ∀ entries, (build rs b).Lists entries →
          nounsAmong entries a = (build rs b).nounsWith a) ∧
      (∀ rs', Relation.EqvGen RuleSet.Reworded rs rs' → build rs' b = build rs b) ∧
      ∀ (t : CapabilityTable) (x : Piece) (w : String), x.kind = .tile w →
        ∀ a, (t.ofPiece x).has a = true ↔ a = .push := by
  refine ⟨fun n a => ⟨has_get_build rs b n a, RuleSet.grants_iff⟩,
    fun n => isSome_lookup?_build_iff, fun a => ⟨pairwise_nounsWith _ a, fun n => ?_,
      fun entries hentries => nounsAmong_eq hentries a⟩, fun rs' hsame => ?_,
    fun t x w hx a => has_ofPiece_of_tile t hx a⟩
  · rw [mem_nounsWith_iff, has_get_build, RuleSet.grants_iff]
  · exact build_congr_grants (fun n a => RuleSet.grants_iff_of_eqvGen hsame) b

/-- A baba next to a tile. -/
def babaAndTile : Board :=
  ⟨1, 2, #[[⟨.ofNat 1, .thing .baba, ⟨0, 0⟩, .right⟩], [⟨.ofNat 2, .tile "ROCK", ⟨0, 1⟩, .right⟩]]⟩

/-- Rocks can be pushed and stopped at, walls can be stopped at, and a third rule grants nothing. -/
def rockRules : RuleSet :=
  ⟨[⟨[.rock], .is, .action .push⟩, ⟨[.wall, .rock], .is, .action .stop⟩,
    ⟨[.keke], .has, .noun .key⟩]⟩

/-- The second rule first and with a subject more, the first rule twice, and the third one gone. -/
def rockRulesAgain : RuleSet :=
  ⟨[⟨[.rock, .wall, .rock], .is, .action .stop⟩, ⟨[.rock], .is, .action .push⟩,
    ⟨[.rock], .is, .action .push⟩]⟩

theorem build_rockRules :
    Relation.EqvGen RuleSet.Reworded rockRules rockRulesAgain ∧
      build rockRulesAgain babaAndTile = build rockRules babaAndTile ∧
      ((build rockRules babaAndTile).lookup? .baba).isSome = true ∧
      (build rockRules babaAndTile).nounsWith .stop = [.wall, .rock] ∧
      ((build rockRules babaAndTile).ofPiece ⟨.ofNat 2, .tile "ROCK", ⟨0, 1⟩, .right⟩).has .stop =
        false := by
  let push : Rule := ⟨[.rock], .is, .action .push⟩
  let stop : Rule := ⟨[.wall, .rock], .is, .action .stop⟩
  let idle : Rule := ⟨[.keke], .has, .noun .key⟩
  have hlast : RuleSet.Reworded rockRules ⟨[idle, stop, push]⟩ := .reordered (by decide)
  have hgone : RuleSet.Reworded ⟨[stop, push]⟩ ⟨[idle, stop, push]⟩ := .idle (.inl rfl)
  have htwice : RuleSet.Reworded ⟨[stop, push]⟩ ⟨[push, stop, push]⟩ := .again (by decide)
  have hfirst : RuleSet.Reworded ⟨[push, stop, push]⟩ ⟨[stop, push, push]⟩ :=
    .reordered (by decide)
  have hsubject : RuleSet.Reworded ⟨[stop, push, push]⟩ rockRulesAgain :=
    .renamed fun n => by cases n <;> decide
  have hsame : Relation.EqvGen RuleSet.Reworded rockRules rockRulesAgain :=
    .trans _ _ _ (.rel _ _ hlast) (.trans _ _ _ (.symm _ _ (.rel _ _ hgone))
      (.trans _ _ _ (.rel _ _ htwice) (.trans _ _ _ (.rel _ _ hfirst) (.rel _ _ hsubject))))
  obtain ⟨-, hentries, -, hreworded, htile⟩ := build_agrees rockRules babaAndTile
  refine ⟨hsame, hreworded _ hsame, (hentries .baba).mpr (.inl ⟨_, .head _, rfl⟩), by decide, ?_⟩
  rw [← Bool.not_eq_true, htile _ _ "ROCK" rfl]
  decide

end CapabilityTable

end WordTiles
