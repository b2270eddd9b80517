import WordTiles.Proofs.Rule.Reader

/-!
# Why words are no rule

A list of words is *viable* when it can be continued to a rule, perhaps by nothing. Words that
are no rule are refused for one of six causes, and which one it is can be said without the
reader: there are no words; the words are viable, so that more of them would make a rule; a
rule ends before the words do; or there is a first word with which they are no longer viable,
and it is unknown, or an action after a verb that takes none, or it stands in a wrong place.

The main statement is `Rule.parse_error_exact`.
-/

set_option autoImplicit false

namespace WordTiles.Rule

variable {ws front rest : List String} {ns : List Noun} {s : Awaiting} {v : Verb}
  {w : String} {i j : Nat}

/-! ## Viable words -/

def IsRule (ws : List String) : Prop := ∃ r, parse ws = .ok r

/-- The words can be continued to a rule. -/
def Viable (ws : List String) : Prop := ∃ more, IsRule (ws ++ more)

/-- The words before number `i` are viable, and with that word they are not. -/
structure FirstMisfit (ws : List String) (i : Nat) : Prop where
  viable : Viable (ws.take i)
  not_viable : ¬ Viable (ws.take (i + 1))

/-- Word number `i` is this action, right after this verb, which is not `IS`. -/
def MisplacedAction (ws : List String) (i : Nat) (v : Verb) (a : Action) : Prop :=
  ws[i]? = some a.word ∧ v ≠ .is ∧ (ws.take i).getLast? = some v.word

/-- The slots that the words of a rule fill, word by word; a connective fills none. -/
def slots (r : Rule) : List (Option Slot) :=
  (r.subjects.map fun _ => some Slot.subject).intersperse none ++ [some .verb, some .predicate]

/-- The words can be continued to a rule, in which the next word fills this slot. -/
def Awaits (ws : List String) (slot : Slot) : Prop :=
  ∃ more r, parse (ws ++ more) = .ok r ∧ r.slots[ws.length]? = some (some slot)

theorem Awaits.viable {slot : Slot} (h : Awaits ws slot) : Viable ws := by
  obtain ⟨more, r, hr, -⟩ := h
  exact ⟨more, r, hr⟩

theorem Viable.of_append (h : Viable (ws ++ rest)) : Viable ws := by
  obtain ⟨more, hmore⟩ := h
  exact ⟨rest ++ more, by rwa [← List.append_assoc]⟩

theorem Viable.take_of_le (h : Viable (ws.take j)) (hij : i ≤ j) : Viable (ws.take i) := by
  rw [← List.take_append_drop i (ws.take j), List.take_take, Nat.min_eq_left hij] at h
  exact h.of_append

theorem FirstMisfit.eq (hi : FirstMisfit ws i) (hj : FirstMisfit ws j) : i = j := by
  rcases Nat.lt_trichotomy i j with hlt | heq | hgt
  · exact absurd (hj.viable.take_of_le hlt) hi.not_viable
  · exact heq
  · exact absurd (hi.viable.take_of_le hgt) hj.not_viable

/-- A rule that is not all of the words leaves the others over. -/
theorem IsRule.parse_append (h : IsRule ws) (hrest : rest ≠ []) :
    parse (ws ++ rest) = .error (.trailingTokens rest.length ws.length) := by
  obtain ⟨r, hr⟩ := h
  obtain ⟨front, rfl, hbegins, hp⟩ := begins_of_parse hr
  rw [List.append_assoc, List.singleton_append, hbegins.parse_completed hp, if_neg hrest,
    List.length_append, List.length_singleton]

theorem IsRule.not_viable_append (h : IsRule ws) (hrest : rest ≠ []) : ¬ Viable (ws ++ rest) := by
  rintro ⟨more, r, hr⟩
  rw [List.append_assoc, h.parse_append (by simp [hrest])] at hr
  cases hr

/-! ## Slots -/

theorem getElem?_slots_subject {r : Rule} (h : i < r.subjects.length) :
    r.slots[2 * i]? = some (some .subject) := by
  have hlt : 2 * i < ((r.subjects.map fun _ => some Slot.subject).intersperse none).length := by
    rw [List.length_intersperse, List.length_map]
    omega
  rw [slots, List.getElem?_append_left hlt, List.getElem?_intersperse_two_mul]
  simp [h]

theorem getElem?_slots_verb (r : Rule) :
    r.slots[2 * r.subjects.length - 1]? = some (some .verb) := by
  rw [slots, List.getElem?_append_right (by simp)]
  simp

theorem getElem?_slots_predicate {r : Rule} (h : r.subjects ≠ []) :
    r.slots[2 * r.subjects.length]? = some (some .predicate) := by
  have hpos := List.length_pos_iff.mpr h
  rw [slots, List.getElem?_append_right (by simp)]
  have hplace : 2 * r.subjects.length - (2 * r.subjects.length - 1) = 1 := by omega
  simp [hplace]

namespace Begins

/-! ## What a beginning is followed by -/

/-- Two words come with each subject, but for the connective after the last one. -/
theorem length_eq (h : Begins ws ns s) :
    ws.length + (if s = .verb then 1 else 0) = 2 * ns.length ∧ (s ≠ .subject → ns ≠ []) := by
  induction h with
  | start => simp
  | subject _ n ih =>
      simp at ih ⊢
      omega
  | connective _ ih =>
      simp at ih ⊢
      omega
  | verb _ v ih =>
      simp at ih ⊢
      exact ⟨by omega, ih.2⟩

/-- A beginning can be continued, by a word for the slot that the reader awaits. -/
theorem awaits (h : Begins ws ns s) : Awaits ws s.slot := by
  have hbaba : ∀ v : Verb, v.Takes (.noun .baba) := fun v a ha => by cases ha
  obtain ⟨hlength, hne⟩ := h.length_eq
  cases s with
  | subject =>
      have hrule := ((h.subject .baba).verb .is).parse_completed (hbaba .is) []
      rw [List.append_assoc, List.append_assoc] at hrule
      refine ⟨_, _, hrule, ?_⟩
      rw [show ws.length = 2 * ns.length by simpa using hlength]
      exact getElem?_slots_subject (by simp)
  | verb =>
      have hrule := (h.verb .is).parse_completed (hbaba .is) []
      rw [List.append_assoc] at hrule
      refine ⟨_, _, hrule, ?_⟩
      rw [show ws.length = 2 * ns.length - 1 by simp at hlength; omega]
      exact getElem?_slots_verb _
  | predicate v =>
      refine ⟨_, _, h.parse_completed (hbaba v) [], ?_⟩
      rw [show ws.length = 2 * ns.length by simpa using hlength]
      exact getElem?_slots_predicate (hne (by simp))

theorem viable (h : Begins ws ns s) : Viable ws := h.awaits.viable

theorem not_viable_of_refused (h : Begins front ns s) (hw : s.Refuses w) (rest : List String) :
    ¬ Viable (front ++ w :: rest) := by
  rintro ⟨more, r, hr⟩
  rw [List.append_assoc, List.cons_append, h.parse_refused hw] at hr
  cases hr

theorem firstMisfit (h : Begins front ns s) (hw : s.Refuses w) (rest : List String) :
    FirstMisfit (front ++ w :: rest) front.length where
  viable := by
    rw [List.take_left]
    exact h.viable
  not_viable := by
    rw [List.take_length_add_append]
    exact h.not_viable_of_refused hw []

/-- The reader awaits the predicate of a verb exactly after that verb. -/
theorem getLast?_eq_iff (h : Begins ws ns s) :
    ws.getLast? = some v.word ↔ s = .predicate v := by
  have hclass : ∀ {w w' : String}, w = w' → WordClass.ofWord w = WordClass.ofWord w' :=
    fun h => congrArg _ h
  cases h with
  | start => simp
  | subject _ n =>
      rw [List.getLast?_concat, Option.some.injEq]
      refine iff_of_false (fun hword => ?_) (by simp)
      simpa using hclass hword
  | connective _ =>
      rw [List.getLast?_concat, Option.some.injEq]
      refine iff_of_false (fun hword => ?_) (by simp)
      simpa using hclass hword
  | verb _ v' =>
      rw [List.getLast?_concat, Option.some.injEq, Awaiting.predicate.injEq]
      refine ⟨fun hword => ?_, fun h => by rw [h]⟩
      simpa using hclass hword

end Begins

/-! ## What a refusal is -/

namespace Awaiting

theorem refusal_eq_unknownWord_iff (s : Awaiting) (i : Nat) (w : String) :
    s.refusal i w = .unknownWord w i ↔ w ∉ vocabulary := by
  rw [← WordClass.ofWord_eq_unknown_iff]
  cases s <;> cases hc : WordClass.ofWord w <;> simp [refusal, mismatch, Token.ofWord, hc]

theorem refusal_eq_actionRequiresIs_iff {a : Action} :
    s.refusal i w = .actionRequiresIs v a ↔ s = .predicate v ∧ w = a.word := by
  have hword : w = a.word ↔ WordClass.ofWord w = .action a :=
    ⟨fun h => by rw [h, WordClass.ofWord_action], fun h => WordClass.eq_of_ofWord h rfl⟩
  rw [hword]
  cases s <;> cases hc : WordClass.ofWord w <;> simp [refusal, mismatch, Token.ofWord, hc]

theorem refusal_eq_unexpectedToken (hknown : w ∈ vocabulary)
    (hverb : ∀ v a, s.refusal i w ≠ .actionRequiresIs v a) :
    s.refusal i w = .unexpectedToken s.slot w (WordClass.ofWord w).category i := by
  have hclass : WordClass.ofWord w ≠ .unknown :=
    fun h => WordClass.ofWord_eq_unknown_iff.mp h hknown
  cases s <;> cases hc : WordClass.ofWord w <;>
    simp_all [refusal, mismatch, Token.ofWord]

end Awaiting

/-! ## The causes -/

/-- What words that are no rule can be, and the error for each. -/
theorem parse_error_cases {e : ParseError} (h : parse ws = .error e) :
    (ws = [] ∧ e = .emptyRun) ∨
      (∃ ns s, ws ≠ [] ∧ Begins ws ns s ∧ e = .unexpectedEnd s.slot) ∨
      (∃ front rest, ws = front ++ rest ∧ rest ≠ [] ∧ IsRule front ∧
        e = .trailingTokens rest.length front.length) ∨
      ∃ front w rest ns s, ws = front ++ w :: rest ∧ Begins front ns s ∧ s.Refuses w ∧
        e = s.refusal front.length w := by
  rcases parse_cases ws with ⟨ns, s, hbegins⟩ | ⟨front, p, rest, ns, v, rfl, hbegins, hp⟩ |
    ⟨front, w, rest, ns, s, rfl, hbegins, hw⟩
  · rcases eq_or_ne ws [] with rfl | hne
    · cases h
      exact .inl ⟨rfl, rfl⟩
    · rw [hbegins.parse_eq hne] at h
      cases h
      exact .inr (.inl ⟨ns, s, hne, hbegins, rfl⟩)
  · have hrule : IsRule (front ++ [p.word]) := ⟨_, hbegins.parse_completed hp []⟩
    have hsplit : front ++ p.word :: rest = (front ++ [p.word]) ++ rest := by simp
    rcases eq_or_ne rest [] with rfl | hrest
    · rw [hbegins.parse_completed hp] at h
      cases h
    · rw [hsplit, hrule.parse_append hrest] at h
      cases h
      exact .inr (.inr (.inl ⟨_, _, hsplit, hrest, hrule, rfl⟩))
  · rw [hbegins.parse_refused hw] at h
    cases h
    exact .inr (.inr (.inr ⟨front, w, rest, ns, s, rfl, hbegins, hw, rfl⟩))

/-- A refusal is about a word, and so none of the other errors. -/
theorem Awaiting.refusal_ne (s : Awaiting) (i : Nat) (w : String) :
    s.refusal i w ≠ .emptyRun ∧ (∀ slot, s.refusal i w ≠ .unexpectedEnd slot) ∧
      ∀ count index, s.refusal i w ≠ .trailingTokens count index := by
  cases s <;> cases hc : WordClass.ofWord w <;> simp [refusal, mismatch, Token.ofWord, hc]

section

variable {e : ParseError} (h : parse ws = .error e)
include h

theorem eq_emptyRun_iff : e = .emptyRun ↔ ws = [] := by
  rcases parse_error_cases h with ⟨rfl, rfl⟩ | ⟨ns, s, hne, -, rfl⟩ |
    ⟨front, rest, rfl, hrest, -, rfl⟩ | ⟨front, w, rest, ns, s, rfl, -, -, rfl⟩
  · simp
  · exact iff_of_false (by simp) hne
  · exact iff_of_false (by simp) (by simp [hrest])
  · exact iff_of_false (s.refusal_ne front.length w).1 (by simp)

theorem eq_unexpectedEnd_iff : (∃ slot, e = .unexpectedEnd slot) ↔ ws ≠ [] ∧ Viable ws := by
  rcases parse_error_cases h with ⟨rfl, rfl⟩ | ⟨ns, s, hne, hbegins, rfl⟩ |
    ⟨front, rest, rfl, hrest, hrule, rfl⟩ | ⟨front, w, rest, ns, s, rfl, hbegins, hw, rfl⟩
  · simp
  · exact iff_of_true ⟨_, rfl⟩ ⟨hne, hbegins.viable⟩
  · exact iff_of_false (by simp) fun hviable => hrule.not_viable_append hrest hviable.2
  · refine iff_of_false ?_ fun hviable => hbegins.not_viable_of_refused hw rest hviable.2
    exact not_exists.mpr (s.refusal_ne front.length w).2.1

theorem awaits_of_eq_unexpectedEnd {slot : Slot} (he : e = .unexpectedEnd slot) :
    Awaits ws slot := by
  rcases parse_error_cases h with ⟨-, rfl⟩ | ⟨ns, s, -, hbegins, rfl⟩ |
    ⟨front, rest, -, -, -, rfl⟩ | ⟨front, w, rest, ns, s, -, -, -, rfl⟩
  · cases he
  · cases he
    exact hbegins.awaits
  · cases he
  · exact absurd he ((s.refusal_ne front.length w).2.1 slot)

theorem eq_trailingTokens_iff {count index : Nat} : e = .trailingTokens count index ↔
    IsRule (ws.take index) ∧ index + count = ws.length ∧ 0 < count := by
  constructor
  · intro he
    rcases parse_error_cases h with ⟨-, rfl⟩ | ⟨ns, s, -, -, rfl⟩ |
      ⟨front, rest, rfl, hrest, hrule, rfl⟩ | ⟨front, w, rest, ns, s, -, -, -, rfl⟩
    · cases he
    · cases he
    · cases he
      rw [List.take_left, List.length_append]
      exact ⟨hrule, rfl, List.length_pos_iff.mpr hrest⟩
    · exact absurd he ((s.refusal_ne front.length w).2.2 count index)
  · rintro ⟨hrule, hsum, hpos⟩
    have hlength : (ws.drop index).length = count := by
      rw [List.length_drop]
      omega
    have hover := hrule.parse_append (List.ne_nil_of_length_pos (hlength ▸ hpos))
    rw [List.take_append_drop, hlength, List.length_take, Nat.min_eq_left (by omega)] at hover
    exact Except.error.inj (h.symm.trans hover)

/-- Words that cannot be continued to a rule, and no part of which is one, have a first misfit,
which the error is about. -/
theorem exists_firstMisfit (hviable : ¬ Viable ws)
    (hrule : ∀ index < ws.length, ¬ IsRule (ws.take index)) :
    ∃ i w, ws[i]? = some w ∧ FirstMisfit ws i ∧
      (e = .unknownWord w i ↔ w ∉ vocabulary) ∧
      (∀ v a, e = .actionRequiresIs v a ↔ MisplacedAction ws i v a) ∧
      (w ∈ vocabulary → (∀ v a, e ≠ .actionRequiresIs v a) →
        ∃ slot, e = .unexpectedToken slot w (WordClass.ofWord w).category i ∧
          Awaits (ws.take i) slot) := by
  rcases parse_error_cases h with ⟨rfl, -⟩ | ⟨ns, s, -, hbegins, -⟩ |
    ⟨front, rest, rfl, hrest, hfront, -⟩ | ⟨front, w, rest, ns, s, rfl, hbegins, hw, rfl⟩
  · exact absurd Begins.start.viable hviable
  · exact absurd hbegins.viable hviable
  · have hlt : front.length < (front ++ rest).length := by
      have := List.length_pos_iff.mpr hrest
      rw [List.length_append]
      omega
    exact absurd (by rwa [List.take_left]) (hrule front.length hlt)
  · have hplace : (front ++ w :: rest)[front.length]? = some w := by simp
    refine ⟨front.length, w, hplace, hbegins.firstMisfit hw rest,
      s.refusal_eq_unknownWord_iff _ w, fun v a => ?_, fun hknown hverb => ?_⟩
    · rw [Awaiting.refusal_eq_actionRequiresIs_iff, MisplacedAction, hplace, Option.some.injEq,
        List.take_left, hbegins.getLast?_eq_iff]
      constructor
      · rintro ⟨rfl, rfl⟩
        exact ⟨rfl, fun hv => hw.2 v (.action a) rfl (fun _ _ => hv) rfl, rfl⟩
      · rintro ⟨hword, -, hs⟩
        exact ⟨hs, hword⟩
    · rw [List.take_left]
      exact ⟨s.slot, Awaiting.refusal_eq_unexpectedToken hknown hverb, hbegins.awaits⟩

end

/-- **Every error says what is wrong, and where.** Let words be refused. The error is that there
are none exactly if there are none, and that they end too soon exactly if more words would make
them a rule; then the slot it names is filled by the next word of such a rule. It is that words
are left over exactly if the words before those are a rule. Otherwise there is exactly one first
word with which the words are no longer viable, and the error names it: as unknown exactly if it
is outside the vocabulary, as an action that needs `IS` exactly if it is an action right after
another verb, and in all other cases as unexpected, with its category and its number. -/
theorem parse_error_exact {ws : List String} {e : ParseError} (h : parse ws = .error e) :
    (e = .emptyRun ↔ ws = []) ∧
      ((∃ slot, e = .unexpectedEnd slot) ↔ ws ≠ [] ∧ Viable ws ∧ ¬ IsRule ws) ∧
      (∀ slot, e = .unexpectedEnd slot → Awaits ws slot) ∧
      (∀ count index, e = .trailingTokens count index ↔
        IsRule (ws.take index) ∧ count = ws.length - index ∧ 0 < count) ∧
      (¬ Viable ws → (∀ index < ws.length, ¬ IsRule (ws.take index)) →
        ∃ i w, ws[i]? = some w ∧ FirstMisfit ws i ∧ (∀ j, FirstMisfit ws j → j = i) ∧
          (e = .unknownWord w i ↔ w ∉ vocabulary) ∧
          (∀ v a, e = .actionRequiresIs v a ↔ MisplacedAction ws i v a) ∧
          (w ∈ vocabulary → (∀ v a, ¬ MisplacedAction ws i v a) →
            ∃ slot, e = .unexpectedToken slot w (WordClass.ofWord w).category i ∧
              Awaits (ws.take i) slot)) := by
  have hno : ¬ IsRule ws := by
    rintro ⟨r, hr⟩
    rw [hr] at h
    cases h
  refine ⟨eq_emptyRun_iff h, ?_, fun slot => awaits_of_eq_unexpectedEnd h, fun count index => ?_,
    fun hviable hrule => ?_⟩
  · rw [eq_unexpectedEnd_iff h, and_iff_left hno]
  · rw [eq_trailingTokens_iff h]
    refine and_congr_right fun _ => ?_
    omega
  · obtain ⟨i, w, hw, hfirst, hunknown, haction, hother⟩ := exists_firstMisfit h hviable hrule
    exact ⟨i, w, hw, hfirst, fun j hj => hj.eq hfirst, hunknown, haction,
      fun hknown hplaced => hother hknown fun v a he => hplaced v a ((haction v a).mp he)⟩

/-- An action after two subjects and a verb that takes none. -/
def twoSubjectsHaveWin : List String := ["BABA", "AND", "FLAG", "HAS", "WIN", "IS"]

/-- The action is what is wrong with the words, although an unfit word follows it. -/
theorem parse_error_twoSubjectsHaveWin :
    parse twoSubjectsHaveWin = .error (.actionRequiresIs .has .win) ∧
      MisplacedAction twoSubjectsHaveWin 4 .has .win ∧ FirstMisfit twoSubjectsHaveWin 4 ∧
      ¬ Viable twoSubjectsHaveWin := by
  have herror : parse twoSubjectsHaveWin = .error (.actionRequiresIs .has .win) := by rfl
  obtain ⟨-, hend, -, hover, hmisfit⟩ := parse_error_exact herror
  have hno : ¬ IsRule twoSubjectsHaveWin := by
    rintro ⟨r, hr⟩
    rw [herror] at hr
    cases hr
  -- the error is neither of those for viable words and for parts that are rules
  have hviable : ¬ Viable twoSubjectsHaveWin := by
    intro hviable
    obtain ⟨slot, hslot⟩ := hend.mpr ⟨by decide, hviable, hno⟩
    cases hslot
  have hrule : ∀ index < twoSubjectsHaveWin.length,
      ¬ IsRule (twoSubjectsHaveWin.take index) := by
    intro index hlt hr
    have hover := (hover _ index).mpr ⟨hr, rfl, Nat.sub_pos_of_lt hlt⟩
    cases hover
  obtain ⟨i, w, hw, hfirst, -, -, haction, -⟩ := hmisfit hviable hrule
  have hplaced := (haction .has .win).mp rfl
  have hplace : ∀ i < 6, twoSubjectsHaveWin[i]? = some Action.win.word → i = 4 := by decide
  obtain rfl : i = 4 := hplace i (List.getElem?_eq_some_iff.mp hw).1 hplaced.1
  exact ⟨herror, hplaced, hfirst, hviable⟩

end WordTiles.Rule
