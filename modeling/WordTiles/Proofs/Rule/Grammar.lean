import Mathlib.Data.List.Basic
import WordTiles.Proofs.Rule.Reader

/-!
# Rules and their words

Reading words and writing a rule are inverse to each other: what is read is exactly what
grammatical rules are written as. The words with which the reader comes to a state are known
(`Begins.words_eq`, `begins_begun`), which gives this for lists of words
(`parse_eq_ok_iff`). A rule's text is its words with one space between two of them
(`text_eq_ofWords`), and no word has a space in it, so cutting the text at its spaces gives the
words back (`words_text`).

The main statement is `Rule.parse_iff_grammatical`.
-/

set_option autoImplicit false

namespace WordTiles

namespace Rule

variable {ws : List String} {ns : List Noun} {s : Awaiting} {r : Rule}

/-! ## The words of a beginning -/

theorem intersperse_concat {α : Type} (sep : α) (xs : List α) (x : α) :
    (xs ++ [x]).intersperse sep = xs.flatMap (fun y => [y, sep]) ++ [x] := by
  induction xs with
  | nil => rfl
  | cons y rest ih =>
      cases rest with
      | nil => rfl
      | cons z rest =>
          simp only [List.cons_append, List.intersperse_cons_cons] at ih ⊢
          rw [ih]
          rfl

/-- The words with which the reader sees some subjects and comes to a state. -/
def Awaiting.begun (ns : List Noun) : Awaiting → List String
  | .subject => (ns.map Noun.word).flatMap fun w => [w, connective]
  | .verb => (ns.map Noun.word).intersperse connective
  | .predicate v => (ns.map Noun.word).intersperse connective ++ [v.word]

theorem Awaiting.begun_verb_concat (ns : List Noun) (n : Noun) :
    Awaiting.verb.begun (ns ++ [n]) = Awaiting.subject.begun ns ++ [n.word] := by
  show (List.map Noun.word (ns ++ [n])).intersperse connective = _
  rw [List.map_append, List.map_singleton, intersperse_concat]
  rfl

theorem Awaiting.begun_subject (h : ns ≠ []) :
    Awaiting.subject.begun ns = Awaiting.verb.begun ns ++ [connective] := by
  obtain ⟨ms, n, rfl⟩ := (List.eq_nil_or_concat' ns).resolve_left h
  rw [begun_verb_concat]
  simp [begun]

theorem Begins.words_eq (h : Begins ws ns s) : ws = s.begun ns ∧ (s ≠ .subject → ns ≠ []) := by
  induction h with
  | start => exact ⟨rfl, fun h => absurd rfl h⟩
  | @subject ws ns _ n ih =>
      refine ⟨?_, fun _ => by simp⟩
      rw [Awaiting.begun_verb_concat, ← ih.1]
  | @connective ws ns _ ih =>
      refine ⟨?_, fun h => absurd rfl h⟩
      rw [Awaiting.begun_subject (ih.2 (by simp)), ← ih.1]
  | verb _ v ih =>
      refine ⟨?_, fun _ => ih.2 (by simp)⟩
      rw [ih.1]
      rfl

theorem begins_begun (h : ns ≠ []) : Begins (Awaiting.verb.begun ns) ns .verb := by
  induction ns using List.reverseRecOn with
  | nil => exact absurd rfl h
  | append_singleton ns n ih =>
      rw [Awaiting.begun_verb_concat]
      rcases eq_or_ne ns [] with rfl | hne
      · exact Begins.start.subject n
      · rw [Awaiting.begun_subject hne]
        exact (ih hne).connective.subject n

/-- What is read is what grammatical rules are written as. -/
theorem parse_eq_ok_iff : parse ws = .ok r ↔ r.Grammatical ∧ ws = r.words := by
  constructor
  · intro h
    obtain ⟨front, rfl, hbegins, hp⟩ := begins_of_parse h
    obtain ⟨hfront, hne⟩ := hbegins.words_eq
    refine ⟨⟨hne (by simp), hp⟩, ?_⟩
    rw [hfront, Awaiting.begun, words, List.append_assoc]
    rfl
  · rintro ⟨⟨hne, hp⟩, rfl⟩
    have hwords : r.words = (Awaiting.verb.begun r.subjects ++ [r.verb.word]) ++
        [r.predicate.word] := by
      rw [words, Awaiting.begun, List.append_assoc]
      rfl
    rw [hwords, ((begins_begun hne).verb r.verb).parse_completed hp []]
    rfl

/-! ## The text of a rule -/

theorem intercalate_intersperse (ws : List String) :
    " ".intercalate (ws.intersperse connective) = " AND ".intercalate ws := by
  induction ws with
  | nil => rfl
  | cons w rest ih =>
      cases rest with
      | nil => rfl
      | cons w' rest =>
          have hne : (w' :: rest).intersperse connective ≠ [] := by cases rest <;> simp
          rw [List.intersperse_cons_cons, String.intercalate_cons_cons,
            String.intercalate_cons_of_ne_nil hne, ih, String.intercalate_cons_cons]
          simp only [connective, String.append_assoc]
          rfl

/-- The text of a rule that has a subject is its words with one space between two of them. -/
theorem text_eq_ofWords (h : r.subjects ≠ []) : r.text = Line.ofWords r.words := by
  have hne : (r.subjects.map Noun.word).intersperse connective ≠ [] := by
    rw [ne_eq, ← List.length_eq_zero_iff, List.length_intersperse, List.length_map]
    have := List.length_pos_iff.mpr h
    omega
  rw [text, Line.ofWords, words, String.intercalate_append_of_ne_nil hne (by simp),
    intercalate_intersperse, String.intercalate_cons_cons, String.intercalate_singleton]
  simp only [String.append_assoc]

end Rule

/-- A word that can stand in a line of words: it has a character, and none of them is a
space. -/
def Line.IsWord (w : String) : Prop := w.toList ≠ [] ∧ ' ' ∉ w.toList

/-- Words that were joined by spaces are got back by cutting at the spaces. -/
theorem Line.words_ofWords {ws : List String} (h : ∀ w ∈ ws, Line.IsWord w) :
    Line.words (Line.ofWords ws) = ws := by
  rcases eq_or_ne ws [] with rfl | hne
  · rfl
  have hsplit : (Line.ofWords ws).toList.splitOn ' ' = ws.map String.toList := by
    rw [Line.ofWords, String.toList_intercalate]
    apply List.splitOn_intercalate
    · rintro cs hcs
      obtain ⟨w, hw, rfl⟩ := List.mem_map.mp hcs
      exact (h w hw).2
    · simpa using hne
  have hkept : (ws.map String.toList).filter (!·.isEmpty) = ws.map String.toList := by
    rw [List.filter_eq_self]
    rintro cs hcs
    obtain ⟨w, hw, rfl⟩ := List.mem_map.mp hcs
    simpa using (h w hw).1
  rw [Line.words, Line.pieces, hsplit, hkept, List.map_map]
  simp [Function.comp_def]

/-- Every word of the vocabulary can stand in a line of words. -/
theorem isWord_of_mem_vocabulary {w : String} (h : w ∈ vocabulary) : Line.IsWord w := by
  revert w
  unfold Line.IsWord vocabulary
  decide

namespace Rule

variable {r : Rule}

theorem eq_or_mem_of_mem_intersperse {α : Type} {sep x : α} {xs : List α}
    (h : x ∈ xs.intersperse sep) : x = sep ∨ x ∈ xs := by
  induction xs with
  | nil => cases h
  | cons y rest ih =>
      cases rest with
      | nil => exact .inr h
      | cons z rest =>
          rw [List.intersperse_cons_cons, List.mem_cons, List.mem_cons] at h
          rcases h with rfl | rfl | h
          · exact .inr List.mem_cons_self
          · exact .inl rfl
          · exact (ih h).imp_right (List.mem_cons_of_mem y)

theorem mem_vocabulary_of_mem_words {w : String} (h : w ∈ r.words) : w ∈ vocabulary := by
  rw [WordClass.mem_vocabulary_iff]
  rcases List.mem_append.mp h with hfront | hback
  · rcases eq_or_mem_of_mem_intersperse hfront with rfl | hsubject
    · exact ⟨.connective, rfl⟩
    · obtain ⟨n, -, rfl⟩ := List.mem_map.mp hsubject
      exact ⟨.noun n, rfl⟩
  · simp only [List.mem_cons, List.not_mem_nil, or_false] at hback
    rcases hback with rfl | rfl
    · exact ⟨.verb r.verb, rfl⟩
    · cases r.predicate with
      | noun n => exact ⟨.noun n, rfl⟩
      | action a => exact ⟨.action a, rfl⟩

/-- Cutting the text of a rule at its spaces gives its words. -/
theorem words_text (h : r.subjects ≠ []) : Line.words r.text = r.words := by
  rw [text_eq_ofWords h]
  exact Line.words_ofWords fun w hw => isWord_of_mem_vocabulary (mem_vocabulary_of_mem_words hw)

/-- **Reading is inverse to writing.** A list of words is read as a rule exactly if the rule has a
subject and an action only after `IS`, and the words are its subjects with `AND` between two of
them, its verb and its predicate. So the text of such a rule is cut at its spaces into these
words and read as the rule again, and words that are read as a rule are its text when a space is
put between two of them. -/
theorem parse_iff_grammatical (ws : List String) (r : Rule) :
    (parse ws = .ok r ↔ r.Grammatical ∧
        ws = (r.subjects.map Noun.word).intersperse "AND" ++ [r.verb.word, r.predicate.word]) ∧
      (r.Grammatical → parse (Line.words r.text) = .ok r) ∧
      (parse ws = .ok r → r.text = Line.ofWords ws) := by
  refine ⟨parse_eq_ok_iff, ?_, ?_⟩
  · intro hr
    exact parse_eq_ok_iff.mpr ⟨hr, words_text hr.1⟩
  · intro h
    obtain ⟨hr, rfl⟩ := parse_eq_ok_iff.mp h
    exact text_eq_ofWords hr.1

/-- A rule with two subjects. -/
def babaAndFlagWin : Rule := ⟨[.baba, .flag], .is, .action .win⟩

theorem parse_babaAndFlagWin :
    babaAndFlagWin.Grammatical ∧ babaAndFlagWin.text = "BABA AND FLAG IS WIN" ∧
      parse ["BABA", "AND", "FLAG", "IS", "WIN"] = .ok babaAndFlagWin ∧
      parse (Line.words babaAndFlagWin.text) = .ok babaAndFlagWin := by
  have hgrammatical : babaAndFlagWin.Grammatical := ⟨by decide, fun _ _ => rfl⟩
  obtain ⟨hread, htext, hwrite⟩ :=
    parse_iff_grammatical ["BABA", "AND", "FLAG", "IS", "WIN"] babaAndFlagWin
  have hparse := hread.mpr ⟨hgrammatical, rfl⟩
  exact ⟨hgrammatical, hwrite hparse, hparse, htext hgrammatical⟩

end Rule

end WordTiles
