import Mathlib.Data.List.Basic
import WordTiles.Json.Printer
import WordTiles.Json.Reader

/-!
# Strings and numbers of JSON, written and read

What is written for a string or a number is read back, whatever follows it in the text of a value:
a string ends at its closing quote, and a number where no digit, point or exponent can come
(`AtEnd`).

The main statements are

* `Json.elements?_flatMap_escape` and `Json.textOf?_map_elementOf`: strings of any characters;
* `Json.number?_intChars` and `Json.number?_decimal`: numbers.
-/

set_option autoImplicit false

namespace WordTiles

/-! ## Numerals -/

namespace Decimal

theorem isDigit_of_mem_digits {n : Nat} {c : Char} (h : c ∈ digits n) : c.isDigit = true :=
  Nat.isDigit_of_mem_toDigits (by decide) (by decide) h

theorem digits_ne_nil (n : Nat) : digits n ≠ [] := Nat.toDigits_ne_nil

/-- Only the numeral of zero begins with a zero. -/
theorem head?_digits_ne {n : Nat} (h : 0 < n) : (digits n).head? ≠ some '0' := by
  induction n using Nat.strongRecOn with
  | ind n ih =>
      by_cases hn : n < 10
      · rw [digits, Nat.toDigits_of_lt_base hn]
        have hdigit : ∀ d < 10, 0 < d → [Nat.digitChar d].head? ≠ some '0' := by decide
        exact hdigit n hn h
      · have hsplit : digits n = digits (n / 10) ++ [(n % 10).digitChar] :=
          Nat.toDigits_of_base_le (by decide) (by omega)
        rw [hsplit, List.head?_append_of_ne_nil _ (digits_ne_nil _)]
        exact ih (n / 10) (by omega) (by omega)

end Decimal

namespace Json

variable {cs rest : List Char} {n : Nat}

/-! ## Strings -/

/-- The part of a string that a written character is read as. Control characters without a letter
of their own are written by their numbers. -/
def elementOf (c : Char) : Element :=
  if c.toNat < 32 ∧ c ∉ ['\x08', '\x0c', '\n', '\r', '\t'] then .unit c.toNat else .char c

theorem value?_hex {c : Char} (h : c.toNat < 32) :
    Hex.value? (Hex.digits 4 c.toNat) = some c.toNat := by
  rw [Hex.value?_digits, Nat.mod_eq_of_lt]
  exact Nat.lt_trans h (by decide)

theorem elements?_escape (c : Char) (rest : List Char) :
    elements? (escape c ++ rest) =
      (elements? rest).map fun (es, after) => (elementOf c :: es, after) := by
  rw [escape]
  split
  next h => subst h; rfl
  split
  next h => subst h; rfl
  split
  next h => subst h; rfl
  split
  next h => subst h; rfl
  split
  next h => subst h; rfl
  split
  next h => subst h; rfl
  split
  next h => subst h; rfl
  split
  next hquote hslash hb hf hn hr ht hcontrol =>
    have helement : elementOf c = .unit c.toNat := by
      simp [elementOf, hcontrol, hb, hf, hn, hr, ht]
    obtain ⟨a, b, d, e, hdigits⟩ : ∃ a b d e, Hex.digits 4 c.toNat = [a, b, d, e] :=
      ⟨_, _, _, _, rfl⟩
    have hvalue : Hex.value? [a, b, d, e] = some c.toNat := hdigits ▸ value?_hex hcontrol
    rw [helement, hdigits]
    show (Hex.value? [a, b, d, e]).bind _ = _
    rw [hvalue]
    rfl
  next hquote hslash hb hf hn hr ht hcontrol =>
    have helement : elementOf c = .char c := by
      simp [elementOf, hcontrol]
    rw [helement, List.cons_append, List.nil_append, elements?.eq_def]
    split
    next heq => cases heq
    next heq => exact absurd (List.cons.inj heq).1 hquote
    next heq => exact absurd (List.cons.inj heq).1 hslash
    next heq => exact absurd (List.cons.inj heq).1 hslash
    next heq =>
      obtain ⟨rfl, rfl⟩ := List.cons.inj heq
      rw [if_neg (by simp [hcontrol, hslash])]

/-- What is written for some characters is read up to the closing quote. -/
theorem elements?_flatMap_escape (cs rest : List Char) :
    elements? (cs.flatMap escape ++ '"' :: rest) = some (cs.map elementOf, rest) := by
  induction cs with
  | nil => rfl
  | cons c cs ih =>
      rw [List.flatMap_cons, List.append_assoc, elements?_escape, ih]
      rfl

/-- A unit that is no half of a surrogate pair stands for a character, whatever follows. -/
theorem textOf?_unit {u : Nat} (h : u < 0xD800) (es : List Element) :
    textOf? (.unit u :: es) = (textOf? es).map (Char.ofNat u :: ·) := by
  have hhigh : isHighSurrogate u = false := by simp [isHighSurrogate]; omega
  have hlow : isLowSurrogate u = false := by simp [isLowSurrogate]; omega
  cases es with
  | nil => simp [textOf?, hhigh, hlow]
  | cons e es =>
      cases e with
      | char c => simp [textOf?, hhigh, hlow]
      | unit v => simp [textOf?, hhigh, hlow]

/-- The parts that are read stand for the characters that were written. -/
theorem textOf?_map_elementOf (cs : List Char) : textOf? (cs.map elementOf) = some cs := by
  induction cs with
  | nil => rfl
  | cons c cs ih =>
      rw [List.map_cons, elementOf]
      split
      next h =>
        rw [textOf?_unit (by omega), ih, Char.ofNat_toNat]
        rfl
      · rw [textOf?, ih]
        rfl

theorem scalar?_quoted (cs rest : List Char) :
    scalar? (quoted cs ++ rest) = some (.string (String.ofList cs), rest) := by
  show (elements? (cs.flatMap escape ++ ['"'] ++ rest)).map _ = _
  rw [List.append_assoc]
  show (elements? (cs.flatMap escape ++ '"' :: rest)).map _ = _
  rw [elements?_flatMap_escape]
  show some (ofElements (cs.map elementOf), rest) = _
  rw [ofElements, textOf?_map_elementOf]

/-! ## Numbers -/

/-- What can follow a number in the text of a value: nothing, or a character that separates. -/
def AtEnd (cs : List Char) : Prop := ∀ c ∈ cs.head?, c ∈ [',', ':', ']', '\x7d']

/-- What holds of each of the separators. -/
theorem forall_separators {P : Char → Prop} (h : P ',' ∧ P ':' ∧ P ']' ∧ P '\x7d') :
    ∀ c ∈ [',', ':', ']', '\x7d'], P c := by
  simpa using h

theorem atEnd_nil : AtEnd [] := fun _ h => by cases h

theorem atEnd_cons {c : Char} (h : c ∈ [',', ':', ']', '\x7d']) (cs : List Char) :
    AtEnd (c :: cs) := by
  intro c' hc
  cases hc
  exact h

/-- Digits are read up to the first character that is none. -/
theorem digits?_append {ds : List Char} (hds : ∀ c ∈ ds, c.isDigit = true) (hne : ds ≠ [])
    (hrest : ∀ c ∈ rest.head?, c.isDigit = false) : digits? (ds ++ rest) = some (ds, rest) := by
  have hnone : rest.takeWhile Char.isDigit = [] := by
    cases rest with
    | nil => rfl
    | cons c cs => simp [hrest c rfl]
  have hall : rest.dropWhile Char.isDigit = rest := by
    cases rest with
    | nil => rfl
    | cons c cs => simp [hrest c rfl]
  rw [digits?]
  simp only [List.takeWhile_append_of_pos hds, List.dropWhile_append_of_pos hds, hnone, hall,
    List.append_nil]
  rw [if_neg (by simpa using hne)]

/-- The numeral of a natural number is a whole part: it begins with no zero that is not the only
digit. -/
theorem wholePart?_digits (n : Nat) (hrest : ∀ c ∈ rest.head?, c.isDigit = false) :
    wholePart? (Decimal.digits n ++ rest) = some (Decimal.digits n, rest) := by
  rw [wholePart?, digits?_append (fun c => Decimal.isDigit_of_mem_digits) (Decimal.digits_ne_nil n)
    hrest]
  show (if _ then _ else _) = _
  rw [if_neg]
  rintro ⟨hzero, hlength⟩
  rcases Nat.eq_zero_or_pos n with rfl | hn
  · exact absurd hlength (by decide)
  · exact Decimal.head?_digits_ne hn hzero

theorem intChars_eq (i : Int) :
    Decimal.intChars i = signChars (decide (i < 0)) ++ Decimal.digits i.natAbs := by
  cases i with
  | ofNat n => rfl
  | negSucc n =>
      rw [decide_eq_true (Int.negSucc_lt_zero n)]
      rfl

theorem exists_digits_eq_cons (n : Nat) :
    ∃ c ds, Decimal.digits n = c :: ds ∧ c.isDigit = true := by
  cases hdigits : Decimal.digits n with
  | nil => exact absurd hdigits (Decimal.digits_ne_nil n)
  | cons c ds =>
      exact ⟨c, ds, rfl, Decimal.isDigit_of_mem_digits (hdigits ▸ List.mem_cons_self)⟩

theorem sign_signChars (negative : Bool) (n : Nat) (rest : List Char) :
    sign (signChars negative ++ (Decimal.digits n ++ rest)) =
      (negative, Decimal.digits n ++ rest) := by
  cases negative with
  | true => rfl
  | false =>
      obtain ⟨c, ds, hdigits, hc⟩ := exists_digits_eq_cons n
      rw [hdigits]
      show sign (c :: (ds ++ rest)) = _
      rw [sign]
      · rfl
      · intro tail heq
        rw [(List.cons.inj heq).1] at hc
        exact absurd hc (by decide)

theorem not_isDigit_of_atEnd (h : AtEnd rest) : ∀ c ∈ rest.head?, c.isDigit = false := by
  intro c hc
  exact forall_separators (P := fun c => c.isDigit = false) (by decide) c (h c hc)

theorem fraction?_eq (h : '.' ∉ rest.head?) : fraction? rest = some ([], rest) := by
  rw [fraction?]
  rintro tail rfl
  exact h rfl

theorem exponent?_of_atEnd (h : AtEnd rest) : exponent? rest = some (none, rest) := by
  cases rest with
  | nil => rfl
  | cons c cs =>
      have hends : ∀ c ∈ [',', ':', ']', '\x7d'], ¬ (c = 'e' ∨ c = 'E') :=
        forall_separators (by decide)
      rw [exponent?, if_neg (hends c (h c rfl))]

theorem signedDigits?_intChars (e : Int) (h : AtEnd rest) :
    signedDigits? (Decimal.intChars e ++ rest) = some (e, rest) := by
  have hdigits : ∀ n, digits? (Decimal.digits n ++ rest) = some (Decimal.digits n, rest) :=
    fun n => digits?_append (fun c => Decimal.isDigit_of_mem_digits) (Decimal.digits_ne_nil n)
      (not_isDigit_of_atEnd h)
  cases e with
  | ofNat n =>
      obtain ⟨c, ds, hcons, hc⟩ := exists_digits_eq_cons n
      show signedDigits? (Decimal.digits n ++ rest) = _
      rw [signedDigits?, hdigits]
      · show some ((Decimal.value (Decimal.digits n) : Int), rest) = _
        rw [Decimal.value_digits]
        rfl
      all_goals
        intro tail heq
        rw [hcons] at heq
        rw [(List.cons.inj heq).1] at hc
        exact absurd hc (by decide)
  | negSucc n =>
      show (digits? (Decimal.digits (n + 1) ++ rest)).map _ = _
      rw [hdigits]
      show some (-(Decimal.value (Decimal.digits (n + 1)) : Int), rest) = _
      rw [Decimal.value_digits]
      rfl

theorem number?_intChars (i : Int) (h : AtEnd rest) :
    number? (Decimal.intChars i ++ rest) = some (.integer i, rest) := by
  have hpoint : '.' ∉ rest.head? := fun hc => absurd (h _ hc) (by decide)
  have hvalue : ofParts (decide (i < 0)) (Decimal.digits i.natAbs) [] none = .integer i := by
    have hn : ¬ (decide (i < 0) = true ∧ i.natAbs = 0) := by simp; omega
    rw [ofParts, List.append_nil, Decimal.value_digits, if_pos ⟨rfl, rfl, hn⟩]
    congr 1
    split
    next hi => simp at hi; omega
    next hi => simp at hi; omega
  rw [intChars_eq, List.append_assoc, number?]
  simp only [sign_signChars, wholePart?_digits _ (not_isDigit_of_atEnd h), fraction?_eq hpoint,
    exponent?_of_atEnd h, Option.bind_eq_bind, Option.bind_some, hvalue]
  rfl

/-- What is written for any other number is read as a number of that sort. -/
theorem number?_decimal (negative : Bool) (n : Nat) (e : Int) (h : AtEnd rest) :
    number? (signChars negative ++ (Decimal.digits n ++ 'e' :: (Decimal.intChars e ++ rest))) =
      some (.decimal negative n e, rest) := by
  have hdigit : ∀ c ∈ ('e' :: (Decimal.intChars e ++ rest)).head?, c.isDigit = false := by
    rintro c ⟨⟩
    decide
  have hpoint : '.' ∉ ('e' :: (Decimal.intChars e ++ rest)).head? := by
    rw [List.head?_cons]
    decide
  have hexponent : exponent? ('e' :: (Decimal.intChars e ++ rest)) = some (some e, rest) := by
    rw [exponent?, if_pos (.inl rfl), signedDigits?_intChars e h]
    rfl
  have hvalue : ofParts negative (Decimal.digits n) [] (some e) = .decimal negative n e := by
    rw [ofParts, List.append_nil, Decimal.value_digits, if_neg (by simp)]
    simp
  rw [number?]
  simp only [sign_signChars, wholePart?_digits _ hdigit, fraction?_eq hpoint, hexponent,
    Option.bind_eq_bind, Option.bind_some, hvalue]
  rfl

end Json

end WordTiles
