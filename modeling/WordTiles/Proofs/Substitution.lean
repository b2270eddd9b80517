import WordTiles.Proofs.Transformation

/-!
# Transformations as one substitution

What the rules make of a noun can be read off them one after the other (`RuleSet.Turns`): none may
say of the noun that it is itself, and of those that say that it is some noun the first one
decides. This is the noun that is looked up when changes are planned
(`RuleSet.becomes?_eq_some_iff`), and a transformation puts it in the place of the old one in all
things at once (`Board.transform_simultaneous`), although they are changed one by one. A rule that
is there again later on decides nothing (`RuleSet.Repeats.becomes?_eq`).
-/

set_option autoImplicit false

namespace WordTiles

/-! ## What rules make of a noun -/

/-- A rule says that a noun turns into another one, or that it stays what it is: the first noun is
among its subjects, and the rule says that they are the second. -/
def Rule.Turns (r : Rule) (s t : Noun) : Prop :=
  r.verb = .is ∧ s ∈ r.subjects ∧ r.predicate = .noun t

/-- The rules turn a noun into another one: no rule says that it stays what it is, and of those that
turn it the first turns it into the other one. -/
structure RuleSet.Turns (rs : RuleSet) (s t : Noun) : Prop where
  not_pinned : ∀ r ∈ rs.rules, ¬ r.Turns s s
  first : ∃ before r after, rs.rules = before ++ r :: after ∧ r.Turns s t ∧
    ∀ r' ∈ before, ∀ t', ¬ r'.Turns s t'

def Rule.turned? (r : Rule) (s : Noun) : Option Noun := if s ∈ r.subjects then r.target? else none

namespace Rule

variable {r : Rule} {s t : Noun}

theorem target?_eq_some_iff : r.target? = some t ↔ r.verb = .is ∧ r.predicate = .noun t := by
  obtain ⟨subjects, verb, predicate⟩ := r
  cases verb <;> cases predicate <;> simp [target?]

theorem turned?_eq_some_iff : r.turned? s = some t ↔ r.Turns s t := by
  rw [turned?, Turns]
  by_cases hs : s ∈ r.subjects
  · simp [hs, target?_eq_some_iff]
  · simp [hs]

theorem turned?_eq_none_iff : r.turned? s = none ↔ ∀ t, ¬ r.Turns s t := by
  simp only [Option.eq_none_iff_forall_ne_some, ne_eq, turned?_eq_some_iff]

end Rule

namespace RuleSet

variable {rs rs' : RuleSet} {s t : Noun} {before after : List Rule} {r : Rule}

theorem mem_transformations_iff : (s, t) ∈ rs.transformations ↔ ∃ r ∈ rs.rules, r.Turns s t := by
  rw [transformations, List.mem_flatMap]
  refine exists_congr fun r => and_congr_right fun _ => ?_
  rw [← Rule.turned?_eq_some_iff, Rule.turned?]
  cases r.target? with
  | none => simp
  | some target => simp [and_comm]

theorem transformations_cons (r : Rule) (rest : List Rule) :
    (⟨r :: rest⟩ : RuleSet).transformations =
      (r.target?.elim [] fun t => r.subjects.map (·, t)) ++ (⟨rest⟩ : RuleSet).transformations := by
  rw [transformations, List.flatMap_cons]
  cases r.target? <;> rfl

/-- Among pairs with the same target, every noun that is a subject has this target. -/
theorem lookup_pairs (subjects : List Noun) (s t : Noun) :
    (subjects.map (·, t)).lookup s = if s ∈ subjects then some t else none := by
  induction subjects with
  | nil => rfl
  | cons n rest ih =>
      rw [List.map_cons, List.lookup_cons, ih]
      by_cases hn : s = n
      · simp [hn]
      · simp [hn, beq_eq_false_iff_ne.mpr hn]

/-- Looking a noun up among the pairs of all rules is going through the rules. -/
theorem lookup_transformations (rs : RuleSet) (s : Noun) :
    rs.transformations.lookup s = rs.rules.findSome? (·.turned? s) := by
  obtain ⟨rules⟩ := rs
  induction rules with
  | nil => rfl
  | cons r rest ih =>
      have hrule : (r.target?.elim [] fun t => r.subjects.map (·, t)).lookup s = r.turned? s := by
        rw [Rule.turned?]
        cases r.target? with
        | none => simp
        | some t => exact lookup_pairs r.subjects s t
      rw [transformations_cons, List.lookup_append, hrule, ih, List.findSome?_cons]
      cases r.turned? s <;> rfl

/-- The noun that is looked up is the one that the rules turn a noun into. -/
theorem becomes?_eq_some_iff : rs.becomes? s = some t ↔ rs.Turns s t := by
  have hpins : rs.pins s = true ↔ ∃ r ∈ rs.rules, r.Turns s s :=
    pins_iff.trans mem_transformations_iff
  have hfirst : rs.transformations.lookup s = some t ↔ ∃ before r after,
      rs.rules = before ++ r :: after ∧ r.Turns s t ∧ ∀ r' ∈ before, ∀ t', ¬ r'.Turns s t' := by
    rw [lookup_transformations, List.findSome?_eq_some_iff]
    simp only [Rule.turned?_eq_some_iff, Rule.turned?_eq_none_iff]
  rw [becomes?]
  split
  next h =>
    obtain ⟨r, hr, hturns⟩ := hpins.mp h
    exact iff_of_false (by simp) fun hturned => hturned.not_pinned r hr hturns
  next h =>
    have hnot : ∀ r ∈ rs.rules, ¬ r.Turns s s := fun r hr hturns => h (hpins.mpr ⟨r, hr, hturns⟩)
    rw [hfirst]
    exact ⟨fun hturned => ⟨hnot, hturned⟩, fun hturned => hturned.first⟩

theorem Turns.ne (h : rs.Turns s t) : t ≠ s := by
  rintro rfl
  obtain ⟨before, r, after, hrules, hturns, -⟩ := h.first
  exact h.not_pinned r (by rw [hrules]; simp) hturns

/-! ## Repeated rules -/

/-- A rule set is another one with rules repeated: every rule that has come in stands somewhere
after a rule that says the same. -/
inductive Repeats (rs : RuleSet) : RuleSet → Prop where
  | none : Repeats rs rs
  | again {before after : List Rule} {r : Rule} :
      Repeats rs ⟨before ++ after⟩ → r ∈ before → Repeats rs ⟨before ++ r :: after⟩

/-- A rule after one that says the same decides nothing. -/
theorem becomes?_again (hr : r ∈ before) (s : Noun) :
    (⟨before ++ r :: after⟩ : RuleSet).becomes? s =
      (⟨before ++ after⟩ : RuleSet).becomes? s := by
  have hpins : (⟨before ++ r :: after⟩ : RuleSet).pins s =
      (⟨before ++ after⟩ : RuleSet).pins s := by
    rw [Bool.eq_iff_iff, pins_iff, pins_iff, mem_transformations_iff, mem_transformations_iff]
    have hmem : ∀ r', r' ∈ before ++ r :: after ↔ r' ∈ before ++ after := fun r' => by
      by_cases h : r' = r
      · simp [h, hr]
      · simp [h]
    simp only [hmem]
  have hlookup : (⟨before ++ r :: after⟩ : RuleSet).transformations.lookup s =
      (⟨before ++ after⟩ : RuleSet).transformations.lookup s := by
    rw [lookup_transformations, lookup_transformations, List.findSome?_append,
      List.findSome?_append, List.findSome?_cons]
    cases hturned : r.turned? s with
    | none => rfl
    | some t =>
        -- the search ends among the rules before
        have hbefore : (before.findSome? (·.turned? s)).isSome = true :=
          List.findSome?_isSome_iff.mpr ⟨r, hr, by simp [hturned]⟩
        obtain ⟨t', ht'⟩ := Option.isSome_iff_exists.mp hbefore
        rw [ht', Option.some_or, Option.some_or]
  rw [becomes?, becomes?, hpins, hlookup]

theorem Repeats.becomes?_eq (h : rs.Repeats rs') (s : Noun) : rs'.becomes? s = rs.becomes? s := by
  induction h with
  | none => rfl
  | again _ hr ih => rw [becomes?_again hr, ih]

end RuleSet

/-! ## What a transformation makes of a piece -/

/-- The rules make a piece of another one: only its kind changes, a thing becomes another thing
exactly when the rules turn its noun into that of the other one, and whatever they do not turn
keeps its kind. -/
structure Piece.Substituted (rs : RuleSet) (x y : Piece) : Prop where
  same : y = { x with kind := y.kind }
  turned : ∀ s, x.kind = .thing s → ∀ t, rs.Turns s t ↔ t ≠ s ∧ y.kind = .thing t
  kept : (∀ s, x.kind = .thing s → ∀ t, ¬ rs.Turns s t) → y.kind = x.kind

/-- The change from a piece to what has become of it, if that is a thing of another noun. -/
def Transformation.between? (x y : Piece) : Option Transformation :=
  match x.kind, y.kind with
  | .thing s, .thing t => if t = s then none else some ⟨x.id, x.position, s, t⟩
  | _, _ => none

namespace Piece

variable {rs : RuleSet} {x : Piece} {s : Noun}

theorem kind_recast_of_thing (rs : RuleSet) (hs : x.kind = .thing s) :
    (x.recast rs).kind = .thing ((rs.becomes? s).getD s) := by
  rw [recast, hs, Kind.recast]

theorem substituted_recast (rs : RuleSet) (x : Piece) : x.Substituted rs (x.recast rs) where
  same := rfl
  turned := by
    intro s hs t
    rw [kind_recast_of_thing rs hs, ← RuleSet.becomes?_eq_some_iff]
    cases hbecomes : rs.becomes? s with
    | none => simp [eq_comm]
    | some t' =>
        have hne : t' ≠ s := (RuleSet.becomes?_eq_some_iff.mp hbecomes).ne
        constructor
        · intro h
          obtain rfl := Option.some.inj h
          exact ⟨hne, rfl⟩
        · rintro ⟨-, h⟩
          rw [← Kind.thing.inj h, Option.getD_some]
  kept := by
    intro hnot
    cases hkind : x.kind with
    | tile w => rw [recast, hkind, Kind.recast]
    | thing s =>
        have hnone : rs.becomes? s = none := by
          rw [Option.eq_none_iff_forall_ne_some]
          exact fun t ht => hnot s hkind t (RuleSet.becomes?_eq_some_iff.mp ht)
        rw [kind_recast_of_thing rs hkind, hnone, Option.getD_none]

/-- The change that is planned for a piece is the one that is seen afterwards. -/
theorem between?_recast (rs : RuleSet) (x : Piece) :
    Transformation.between? x (x.recast rs) = Transformation.ofPiece? rs x := by
  cases hkind : x.kind with
  | tile w => simp [Transformation.between?, Transformation.ofPiece?, hkind, Kind.noun?]
  | thing s =>
      have hrecast := kind_recast_of_thing rs hkind
      simp only [Transformation.between?, Transformation.ofPiece?, hkind, hrecast, Kind.noun?,
        Option.bind_some]
      cases hbecomes : rs.becomes? s with
      | none => simp
      | some t =>
          have hne : t ≠ s := (RuleSet.becomes?_eq_some_iff.mp hbecomes).ne
          simp [hne]

end Piece

/-! ## The whole transformation -/

namespace Board

variable {b : Board} {rs rs' : RuleSet}

/-- Rules that make the same of every noun transform a board in the same way. -/
theorem transform_congr (h : ∀ n, rs'.becomes? n = rs.becomes? n) (b : Board) :
    b.transform rs' = b.transform rs := by
  have hchange : Transformation.ofPiece? rs' = Transformation.ofPiece? rs := by
    funext x
    simp only [Transformation.ofPiece?, h]
  rw [transform, transform, transformations, transformations, hchange]

theorem Valid.find?_mapPieces_recast (hb : b.Valid) {x : Piece} (hx : x ∈ b.pieces) :
    (b.mapPieces (·.recast rs)).find? x.id = some (x.recast rs) := by
  have hstack := hb.mem_stackAt_of_mem_pieces hx
  refine (hb.mapPieces_recast rs).find?_eq (x := x.recast rs) (p := x.position) ?_
  rw [stackAt_mapPieces hb.sized]
  exact List.mem_map_of_mem hstack

/-- The changes planned are those that are seen when each piece is looked up again. -/
theorem Valid.transformations_eq (hb : b.Valid) (rs : RuleSet) :
    b.transformations rs = b.pieces.filterMap fun x =>
      ((b.mapPieces (·.recast rs)).find? x.id).bind (Transformation.between? x) := by
  rw [transformations]
  refine List.filterMap_congr fun x hx => ?_
  rw [hb.find?_mapPieces_recast hx, Option.bind_some, Piece.between?_recast]

theorem Valid.nodup_transformations (hb : b.Valid) (rs : RuleSet) :
    ((b.transformations rs).map (·.piece)).Nodup := by
  have hpiece : ∀ x c, Transformation.ofPiece? rs x = some c → c.piece = x.id :=
    fun x c hc => (Transformation.of_ofPiece?_eq_some hc).1
  rw [transformations]
  exact (Stack.map_filterMap_sublist hpiece b.pieces).nodup hb.ids_nodup

/-- **A transformation is one simultaneous substitution.** On a valid board it never fails. In every
cell the same pieces lie in the same order, and only kinds are changed: a thing becomes the thing
that the rules turned its noun into before, if there is one, and all others and the tiles keep their
kind. The changes reported are exactly those that are seen when the pieces are looked up again, in
reading order and each piece once. Repeating rules later on changes nothing. -/
theorem transform_simultaneous {b : Board} (hb : b.validate = .ok ()) (rs : RuleSet) :
    ∃ b' changes, b.transform rs = .ok (b', changes) ∧
      b'.validate = .ok () ∧ b'.rows = b.rows ∧ b'.cols = b.cols ∧
      (∀ p, List.Forall₂ (Piece.Substituted rs) (b.stackAt p) (b'.stackAt p)) ∧
      changes = b.pieces.filterMap (fun x =>
        (b'.find? x.id).bind (Transformation.between? x)) ∧
      (changes.map (·.piece)).Nodup ∧
      ∀ rs', rs.Repeats rs' → b.transform rs' = b.transform rs := by
  rw [validate_eq_ok_iff] at hb
  have hb' : (b.mapPieces (·.recast rs)).Valid := hb.mapPieces_recast rs
  refine ⟨_, _, hb.transform_eq rs, validate_eq_ok_iff.mpr hb', rfl, rfl, ?_,
    hb.transformations_eq rs, hb.nodup_transformations rs,
    fun rs' h => transform_congr h.becomes?_eq b⟩
  intro p
  rw [stackAt_mapPieces hb.sized, List.forall₂_map_right_iff, List.forall₂_same]
  exact fun x _ => x.substituted_recast rs

/-- Rocks, walls and kekes next to a pinned baba, and a tile. -/
def exchangedThings : Board :=
  ⟨2, 3, #[
    [⟨.ofNat 1, .thing .rock, ⟨0, 0⟩, .down⟩, ⟨.ofNat 2, .tile "ROCK", ⟨0, 0⟩, .right⟩],
    [⟨.ofNat 3, .thing .wall, ⟨0, 1⟩, .left⟩],
    [⟨.ofNat 4, .thing .baba, ⟨0, 2⟩, .right⟩],
    [⟨.ofNat 5, .thing .keke, ⟨1, 0⟩, .up⟩],
    [⟨.ofNat 6, .thing .flag, ⟨1, 1⟩, .right⟩],
    []]⟩

/-- Rules that exchange rocks and walls, give walls a second target, and pin the baba after they
have turned it. -/
def exchangingRules : RuleSet :=
  ⟨[⟨[.rock], .is, .noun .wall⟩, ⟨[.wall, .keke], .is, .noun .rock⟩, ⟨[.wall], .is, .noun .key⟩,
    ⟨[.baba], .is, .noun .flag⟩, ⟨[.baba], .is, .noun .baba⟩]⟩

/-- The rock becomes a wall, the wall and the keke become rocks, and nothing else changes, also
when the rule for the rock is there a second time. -/
theorem transform_exchangedThings :
    exchangedThings.validate = .ok () ∧
      ∃ b' changes, exchangedThings.transform ⟨exchangingRules.rules ++
          [⟨[.rock], .is, .noun .wall⟩]⟩ = .ok (b', changes) ∧
        b'.stackAt ⟨0, 0⟩ = [⟨.ofNat 1, .thing .wall, ⟨0, 0⟩, .down⟩,
          ⟨.ofNat 2, .tile "ROCK", ⟨0, 0⟩, .right⟩] ∧
        changes = [⟨.ofNat 1, ⟨0, 0⟩, .rock, .wall⟩, ⟨.ofNat 3, ⟨0, 1⟩, .wall, .rock⟩,
          ⟨.ofNat 5, ⟨1, 0⟩, .keke, .rock⟩] := by
  have hvalid : exchangedThings.validate = .ok () := by decide
  obtain ⟨b', changes, hok, -, -, -, -, hchanges, -, hrepeats⟩ :=
    transform_simultaneous hvalid exchangingRules
  have hagain : exchangingRules.Repeats ⟨exchangingRules.rules ++
      [⟨[.rock], .is, .noun .wall⟩]⟩ := by
    have hnone : exchangingRules.Repeats ⟨exchangingRules.rules ++ []⟩ := .none
    exact .again hnone (by decide)
  have hboard := (validate_eq_ok_iff.mp hvalid).transform_eq exchangingRules
  obtain ⟨rfl, -⟩ := Prod.mk.inj (Except.ok.inj (hok.symm.trans hboard))
  refine ⟨hvalid, _, changes, (hrepeats _ hagain).trans hok, ?_, hchanges.trans ?_⟩
  · decide
  · decide

end Board

end WordTiles
