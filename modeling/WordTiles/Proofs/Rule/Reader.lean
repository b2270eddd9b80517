import Mathlib.Data.List.Induction
import WordTiles.Rule.Parser

/-!
# What the reader of rules has seen

Each word that fits takes the reader to its next state, so the state is a matter of the words
read so far: `Begins ws ns s` says that the words `ws` begin a rule, that the nouns `ns` are its
subjects as far as they were read, and that the reader is in the state `s`.

A list of words either begins a rule, or has a shortest part that does and is followed by a word
that takes the reader nowhere (`Begins.or_stuck`). That word completes the rule, or it is refused.
So there are three ways in which a list is read (`parse_cases`), and one equation for each:
`Begins.parse_eq`, `Begins.parse_completed` and `Begins.parse_refused`. What is proved about
reading rests on these, and no other proof opens the reader.
-/

set_option autoImplicit false

namespace WordTiles

/-! ## Words and their classes -/

def vocabulary : List String :=
  Noun.all.map Noun.word ++ Verb.all.map Verb.word ++ Action.all.map Action.word ++ [connective]

namespace WordClass

variable {w : String} {c : WordClass}

/-- The word of a class; the unknown words have none in common. -/
def word? : WordClass → Option String
  | .noun n => some n.word
  | .verb v => some v.word
  | .action a => some a.word
  | .connective => some WordTiles.connective
  | .unknown => none

theorem ofWord_of_word? (h : c.word? = some w) : ofWord w = c := by
  cases c with
  | noun n => cases h; cases n <;> decide
  | verb v => cases h; cases v <;> decide
  | action a => cases h; cases a <;> decide
  | connective => cases h; decide
  | unknown => cases h

theorem word?_of_ofWord (h : ofWord w = c) (hc : c ≠ .unknown) : c.word? = some w := by
  unfold ofWord at h
  split at h
  next n hn =>
    subst h
    simpa [word?] using List.find?_some hn
  · split at h
    next v hv =>
      subst h
      simpa [word?] using List.find?_some hv
    · split at h
      next a ha =>
        subst h
        simpa [word?] using List.find?_some ha
      · split at h
        next hconnective =>
          subst h
          exact congrArg some (eq_of_beq hconnective).symm
        · exact absurd h.symm hc

/-- A word of a class that has a word is that word. -/
theorem eq_of_ofWord {w' : String} (h : ofWord w = c) (hc : c.word? = some w') : w = w' := by
  have hknown : c ≠ .unknown := by
    rintro rfl
    cases hc
  exact Option.some.inj ((word?_of_ofWord h hknown).symm.trans hc)

theorem mem_vocabulary_iff : w ∈ vocabulary ↔ ∃ c : WordClass, c.word? = some w := by
  simp only [vocabulary, List.mem_append, List.mem_map, List.mem_singleton]
  constructor
  · rintro (((⟨n, -, rfl⟩ | ⟨v, -, rfl⟩) | ⟨a, -, rfl⟩) | rfl)
    · exact ⟨.noun n, rfl⟩
    · exact ⟨.verb v, rfl⟩
    · exact ⟨.action a, rfl⟩
    · exact ⟨.connective, rfl⟩
  · rintro ⟨c, hc⟩
    cases c with
    | noun n => exact .inl (.inl (.inl ⟨n, n.mem_all, Option.some.inj hc⟩))
    | verb v => exact .inl (.inl (.inr ⟨v, v.mem_all, Option.some.inj hc⟩))
    | action a => exact .inl (.inr ⟨a, a.mem_all, Option.some.inj hc⟩)
    | connective => exact .inr (Option.some.inj hc).symm
    | unknown => cases hc

/-- The unknown words are those outside the vocabulary. -/
theorem ofWord_eq_unknown_iff : ofWord w = .unknown ↔ w ∉ vocabulary := by
  rw [mem_vocabulary_iff]
  constructor
  · rintro hunknown ⟨c, hc⟩
    rw [ofWord_of_word? hc] at hunknown
    subst hunknown
    cases hc
  · intro hnone
    by_contra hknown
    exact hnone ⟨_, word?_of_ofWord rfl hknown⟩

@[simp] theorem ofWord_noun (n : Noun) : ofWord n.word = .noun n := ofWord_of_word? rfl

@[simp] theorem ofWord_verb (v : Verb) : ofWord v.word = .verb v := ofWord_of_word? rfl

@[simp] theorem ofWord_action (a : Action) : ofWord a.word = .action a := ofWord_of_word? rfl

@[simp] theorem ofWord_connective : ofWord WordTiles.connective = .connective :=
  ofWord_of_word? rfl

end WordClass

/-- A verb can be followed by a predicate: an action only comes after `IS`. -/
def Verb.Takes (v : Verb) (p : Predicate) : Prop := ∀ a, p = .action a → v = .is

namespace Rule

variable {ws front rest : List String} {ns : List Noun} {s : Awaiting} {v : Verb}
  {p : Predicate} {w : String}

/-! ## Steps of the reader -/

def addSubjects (ns : List Noun) (r : Rule) : Rule := { r with subjects := ns ++ r.subjects }

namespace Awaiting

/-- The state after a word of some class, if the reader goes on to one. -/
def next? : Awaiting → WordClass → Option Awaiting
  | .subject, .noun _ => some .verb
  | .verb, .connective => some .subject
  | .verb, .verb v => some (.predicate v)
  | _, _ => none

/-- The word takes the reader nowhere, and is no predicate that could end the rule. -/
def Refuses (s : Awaiting) (w : String) : Prop :=
  s.next? (.ofWord w) = none ∧ ∀ v p, s = .predicate v → v.Takes p → w ≠ p.word

/-- The error for a word that is refused. -/
def refusal (s : Awaiting) (index : Nat) (w : String) : ParseError :=
  match s, WordClass.ofWord w with
  | .predicate v, .action a => .actionRequiresIs v a
  | s, _ => mismatch s.slot index (.ofWord w)

end Awaiting

theorem readFrom_subject_noun (index : Nat) (n : Noun) (ts : List Token) :
    readFrom .subject index (.ofWord n.word :: ts) =
      (readFrom .verb (index + 1) ts).map (addSubject n) := by
  simp [readFrom, Token.ofWord]

theorem readFrom_verb_connective (index : Nat) (ts : List Token) :
    readFrom .verb index (.ofWord connective :: ts) = readFrom .subject (index + 1) ts := by
  simp [readFrom, Token.ofWord]

theorem readFrom_verb_verb (index : Nat) (v : Verb) (ts : List Token) :
    readFrom .verb index (.ofWord v.word :: ts) = readFrom (.predicate v) (index + 1) ts := by
  simp [readFrom, Token.ofWord]

theorem readFrom_predicate (hp : v.Takes p) (index : Nat) (ts : List Token) :
    readFrom (.predicate v) index (.ofWord p.word :: ts) =
      if ts.isEmpty then .ok ⟨[], v, p⟩ else .error (.trailingTokens ts.length (index + 1)) := by
  cases p with
  | noun n => simp [readFrom, readPredicate, Token.ofWord, Predicate.word]
  | action a =>
      have hv : v = .is := hp a rfl
      simp [readFrom, readPredicate, Token.ofWord, Predicate.word, hv]

theorem readFrom_refused (h : s.Refuses w) (index : Nat) (ts : List Token) :
    readFrom s index (.ofWord w :: ts) = .error (s.refusal index w) := by
  obtain ⟨hnext, hpredicate⟩ := h
  cases s with
  | subject =>
      cases hc : WordClass.ofWord w <;>
        simp_all [readFrom, Awaiting.refusal, Awaiting.next?, Awaiting.slot, Token.ofWord]
  | verb =>
      cases hc : WordClass.ofWord w <;>
        simp_all [readFrom, Awaiting.refusal, Awaiting.next?, Awaiting.slot, Token.ofWord]
  | predicate v =>
      cases hc : WordClass.ofWord w with
      | noun n =>
          have hw : w = n.word := WordClass.eq_of_ofWord hc rfl
          exact absurd hw (hpredicate v (.noun n) rfl (by simp [Verb.Takes]))
      | action a =>
          have hw : w = a.word := WordClass.eq_of_ofWord hc rfl
          have hv : v ≠ .is := fun hv => hpredicate v (.action a) rfl (fun _ _ => hv) hw
          simp [readFrom, readPredicate, Awaiting.refusal, Token.ofWord, hc, hv]
      | _ => simp [readFrom, readPredicate, Awaiting.refusal, Awaiting.slot, Token.ofWord, hc]

/-! ## The words read so far -/

/-- The words begin a rule: with them the reader has seen these subjects and come to this
state. -/
inductive Begins : List String → List Noun → Awaiting → Prop
  | start : Begins [] [] .subject
  | subject {ws : List String} {ns : List Noun} (h : Begins ws ns .subject) (n : Noun) :
      Begins (ws ++ [n.word]) (ns ++ [n]) .verb
  | connective {ws : List String} {ns : List Noun} (h : Begins ws ns .verb) :
      Begins (ws ++ [WordTiles.connective]) ns .subject
  | verb {ws : List String} {ns : List Noun} (h : Begins ws ns .verb) (v : Verb) :
      Begins (ws ++ [v.word]) ns (.predicate v)

namespace Begins

theorem of_next? {s' : Awaiting} (h : Begins ws ns s) (hnext : s.next? (.ofWord w) = some s') :
    ∃ ns', Begins (ws ++ [w]) ns' s' := by
  generalize hc : WordClass.ofWord w = c at hnext
  unfold Awaiting.next? at hnext
  split at hnext
  next n =>
    cases hnext
    rw [WordClass.eq_of_ofWord hc rfl]
    exact ⟨_, h.subject n⟩
  next =>
    cases hnext
    rw [WordClass.eq_of_ofWord hc rfl]
    exact ⟨_, h.connective⟩
  next v =>
    cases hnext
    rw [WordClass.eq_of_ofWord hc rfl]
    exact ⟨_, h.verb v⟩
  · cases hnext

/-- The words either begin a rule, or some word after a beginning takes the reader nowhere. -/
theorem or_stuck (ws : List String) :
    (∃ ns s, Begins ws ns s) ∨ ∃ front w rest ns s, ws = front ++ w :: rest ∧
      Begins front ns s ∧ s.next? (.ofWord w) = none := by
  induction ws using List.reverseRecOn with
  | nil => exact .inl ⟨[], .subject, .start⟩
  | append_singleton ws last ih =>
      rcases ih with ⟨ns, s, h⟩ | ⟨front, w, rest, ns, s, rfl, h, hstuck⟩
      · cases hnext : s.next? (.ofWord last) with
        | none => exact .inr ⟨ws, last, [], ns, s, rfl, h, hnext⟩
        | some s' =>
            obtain ⟨ns', h'⟩ := h.of_next? hnext
            exact .inl ⟨ns', s', h'⟩
      · exact .inr ⟨front, w, rest ++ [last], ns, s, by simp, h, hstuck⟩

/-- Reading on from a beginning is reading the rest from the state that it leads to. -/
theorem readFrom_append (h : Begins ws ns s) (rest : List String) :
    readFrom .subject 0 ((ws ++ rest).map Token.ofWord) =
      (readFrom s ws.length (rest.map Token.ofWord)).map (addSubjects ns) := by
  induction h generalizing rest with
  | start =>
      rw [List.nil_append, List.length_nil]
      cases readFrom .subject 0 (rest.map Token.ofWord) <;> rfl
  | @subject ws ns _ n ih =>
      rw [List.append_assoc, ih, List.singleton_append, List.map_cons, readFrom_subject_noun,
        List.length_append, List.length_singleton]
      cases readFrom .verb (ws.length + 1) (rest.map Token.ofWord) <;>
        simp [Except.map, addSubject, addSubjects]
  | connective _ ih =>
      rw [List.append_assoc, ih, List.singleton_append, List.map_cons, readFrom_verb_connective,
        List.length_append, List.length_singleton]
  | verb _ v ih =>
      rw [List.append_assoc, ih, List.singleton_append, List.map_cons, readFrom_verb_verb,
        List.length_append, List.length_singleton]

end Begins

/-! ## Three ways to read a list -/

theorem parse_of_ne_nil (h : ws ≠ []) : parse ws = readFrom .subject 0 (ws.map Token.ofWord) := by
  simp [parse, ofTokens, h]

theorem parse_cases (ws : List String) :
    (∃ ns s, Begins ws ns s) ∨
      (∃ front p rest ns v, ws = front ++ p.word :: rest ∧ Begins front ns (.predicate v) ∧
        v.Takes p) ∨
      ∃ front w rest ns s, ws = front ++ w :: rest ∧ Begins front ns s ∧ s.Refuses w := by
  rcases Begins.or_stuck ws with h | ⟨front, w, rest, ns, s, rfl, h, hstuck⟩
  · exact .inl h
  by_cases hcompletes : ∃ v p, s = .predicate v ∧ v.Takes p ∧ w = p.word
  · obtain ⟨v, p, rfl, hp, rfl⟩ := hcompletes
    exact .inr (.inl ⟨front, p, rest, ns, v, rfl, h, hp⟩)
  · refine .inr (.inr ⟨front, w, rest, ns, s, rfl, h, hstuck, ?_⟩)
    rintro v p rfl hp rfl
    exact hcompletes ⟨v, p, rfl, hp, rfl⟩

namespace Begins

/-- A mere beginning of a rule ends too soon. -/
theorem parse_eq (h : Begins ws ns s) (hne : ws ≠ []) :
    parse ws = .error (.unexpectedEnd s.slot) := by
  have hread := h.readFrom_append []
  rw [List.append_nil] at hread
  rw [parse_of_ne_nil hne, hread]
  cases s <;> rfl

/-- A predicate completes the rule, which is read if nothing follows. -/
theorem parse_completed (h : Begins front ns (.predicate v)) (hp : v.Takes p)
    (rest : List String) :
    parse (front ++ p.word :: rest) =
      if rest = [] then .ok ⟨ns, v, p⟩
      else .error (.trailingTokens rest.length (front.length + 1)) := by
  rw [parse_of_ne_nil (by simp), h.readFrom_append, List.map_cons, readFrom_predicate hp]
  cases rest with
  | nil => simp [Except.map, addSubjects]
  | cons w rest => simp [Except.map]

/-- A word that is refused decides what the error is, whatever follows. -/
theorem parse_refused (h : Begins front ns s) (hw : s.Refuses w) (rest : List String) :
    parse (front ++ w :: rest) = .error (s.refusal front.length w) := by
  rw [parse_of_ne_nil (by simp), h.readFrom_append, List.map_cons, readFrom_refused hw]
  rfl

end Begins

/-- A rule that is read has come by its words: the predicate is the last one, and those before it
begin the rule. -/
theorem begins_of_parse {r : Rule} (h : parse ws = .ok r) :
    ∃ front, ws = front ++ [r.predicate.word] ∧ Begins front r.subjects (.predicate r.verb) ∧
      r.verb.Takes r.predicate := by
  rcases parse_cases ws with ⟨ns, s, hbegins⟩ | ⟨front, p, rest, ns, v, rfl, hbegins, hp⟩ |
    ⟨front, w, rest, ns, s, rfl, hbegins, hw⟩
  · rcases eq_or_ne ws [] with rfl | hne
    · cases h
    · rw [hbegins.parse_eq hne] at h
      cases h
  · rw [hbegins.parse_completed hp] at h
    split at h
    next hrest =>
      cases h
      exact ⟨front, by rw [hrest], hbegins, hp⟩
    · cases h
  · rw [hbegins.parse_refused hw] at h
    cases h

end Rule

end WordTiles
