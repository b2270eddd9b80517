import WordTiles.Proofs.Json.Scalar

/-!
# JSON text, written and read

What is written for a value reads back as this value, whatever the value. The written text is cut
into the tokens of the value (`Json.tokensOf`), and these are put together to the value again.

The main statements are

* `Json.cuts_chars`: written text is cut into the tokens of the value;
* `Json.reads`: these tokens are put together to the value;
* `Json.ofText?_text`: what is written for a value is read as this value;
* `Json.printed_chars`: written text holds no control characters.
-/

set_option autoImplicit false

namespace WordTiles.Json

variable {rest : List Char} {after : List Token} {j : Json}

/-! ## The tokens of a value -/

mutual

/-- The tokens of the text that is written for a value. -/
def tokensOf : Json → List Token
  | .array items => .openBracket :: ([.comma].intercalate (itemTokens items) ++ [.closeBracket])
  | .object members => .openBrace :: ([.comma].intercalate (memberTokens members) ++ [.closeBrace])
  | .null => [.scalar .null]
  | .bool b => [.scalar (.bool b)]
  | .integer i => [.scalar (.integer i)]
  | .decimal negative digits exponent => [.scalar (.decimal negative digits exponent)]
  | .string s => [.scalar (.string s)]
  | .garbled => [.scalar .garbled]

def itemTokens : List Json → List (List Token)
  | [] => []
  | j :: rest => tokensOf j :: itemTokens rest

def memberTokens : List (String × Json) → List (List Token)
  | [] => []
  | (name, j) :: rest => (.scalar (.string name) :: .colon :: tokensOf j) :: memberTokens rest

end

/-! ## Cutting -/

theorem tokens_nil (fuel : Nat) : tokens (fuel + 1) [] = [] := rfl

theorem tokens_punctuation {c : Char} {t : Token} (hc : punctuation? c = some t)
    (hblank : isBlank c = false) (fuel : Nat) (cs : List Char) :
    tokens (fuel + 1) (c :: cs) = t :: tokens fuel cs := by
  rw [tokens, hblank, hc]
  rfl

/-- Characters that are read as one value that is no container. -/
structure Scalar (j : Json) (cs : List Char) : Prop where
  head : ∃ c ∈ cs.head?, isBlank c = false ∧ punctuation? c = none
  scalar?_append : ∀ rest, AtEnd rest → scalar? (cs ++ rest) = some (j, rest)

theorem Scalar.tokens_append {cs : List Char} (h : Scalar j cs) (hrest : AtEnd rest)
    (fuel : Nat) : tokens (fuel + 1) (cs ++ rest) = .scalar j :: tokens fuel rest := by
  obtain ⟨c, hc, hblank, hpunctuation⟩ := h.head
  obtain ⟨tail, rfl⟩ := List.head?_eq_some_iff.mp hc
  have hscalar := h.scalar?_append rest hrest
  rw [List.cons_append] at hscalar ⊢
  rw [tokens, hblank, hpunctuation, hscalar]
  rfl

theorem isPrefixOf?_append (cs rest : List Char) : cs.isPrefixOf? (cs ++ rest) = some rest := by
  induction cs with
  | nil => rfl
  | cons c cs ih => simp [List.isPrefixOf?, ih]

theorem scalar_null : Scalar .null (chars .null) where
  head := ⟨'n', rfl, rfl, rfl⟩
  scalar?_append rest _ := by
    show ("ull".toList.isPrefixOf? ("ull".toList ++ rest)).map _ = _
    rw [isPrefixOf?_append]
    rfl

theorem scalar_bool (b : Bool) : Scalar (.bool b) (chars (.bool b)) := by
  cases b with
  | true =>
      refine ⟨⟨'t', rfl, rfl, rfl⟩, fun rest _ => ?_⟩
      show ("rue".toList.isPrefixOf? ("rue".toList ++ rest)).map _ = _
      rw [isPrefixOf?_append]
      rfl
  | false =>
      refine ⟨⟨'f', rfl, rfl, rfl⟩, fun rest _ => ?_⟩
      show ("alse".toList.isPrefixOf? ("alse".toList ++ rest)).map _ = _
      rw [isPrefixOf?_append]
      rfl

theorem scalar_quoted (s : String) : Scalar (.string s) (quoted s.toList) where
  head := ⟨'"', rfl, rfl, rfl⟩
  scalar?_append rest _ := by rw [scalar?_quoted, String.ofList_toList]

theorem scalar_garbled : Scalar .garbled (chars .garbled) where
  head := ⟨'"', rfl, rfl, rfl⟩
  scalar?_append rest _ := by
    show scalar? ('"' :: '\\' :: 'u' :: 'd' :: '8' :: '0' :: '0' :: '"' :: rest) = _
    rfl

theorem scalar_of_number {cs : List Char} {c : Char} (hc : c ∈ cs.head?)
    (hbegins : c.isDigit = true ∨ c = '-')
    (hnumber : ∀ rest, AtEnd rest → number? (cs ++ rest) = some (j, rest)) : Scalar j cs := by
  have hne : ∀ d : Char, ¬ (d.isDigit = true ∨ d = '-') → c ≠ d := fun d hd h => hd (h ▸ hbegins)
  refine ⟨⟨c, hc, ?_, ?_⟩, fun rest hrest => ?_⟩
  · simp [isBlank, hne ' ' (by decide), hne '\t' (by decide), hne '\n' (by decide),
      hne '\r' (by decide)]
  · simp [punctuation?, hne '[' (by decide), hne ']' (by decide), hne '\x7b' (by decide),
      hne '\x7d' (by decide), hne ',' (by decide), hne ':' (by decide)]
  · obtain ⟨tail, rfl⟩ := List.head?_eq_some_iff.mp hc
    rw [← hnumber rest hrest, List.cons_append, scalar?]
    all_goals
      intro cs heq
      exact hne _ (by decide) (List.cons.inj heq).1

/-- What is written for a number begins with a digit or a sign. -/
theorem exists_head_signChars (negative : Bool) (n : Nat) (cs : List Char) :
    ∃ c ∈ (signChars negative ++ (Decimal.digits n ++ cs)).head?, c.isDigit = true ∨ c = '-' := by
  cases negative with
  | true => exact ⟨'-', rfl, .inr rfl⟩
  | false =>
      obtain ⟨c, ds, hdigits, hc⟩ := exists_digits_eq_cons n
      exact ⟨c, by rw [hdigits]; rfl, .inl hc⟩

theorem scalar_integer (i : Int) : Scalar (.integer i) (chars (.integer i)) := by
  obtain ⟨c, hc, hbegins⟩ := exists_head_signChars (decide (i < 0)) i.natAbs []
  rw [List.append_nil, ← intChars_eq] at hc
  exact scalar_of_number hc hbegins fun rest hrest => number?_intChars i hrest

theorem scalar_decimal (negative : Bool) (n : Nat) (e : Int) :
    Scalar (.decimal negative n e) (chars (.decimal negative n e)) := by
  have hchars : chars (.decimal negative n e) =
      signChars negative ++ (Decimal.digits n ++ 'e' :: Decimal.intChars e) :=
    List.append_assoc ..
  obtain ⟨c, hc, hbegins⟩ := exists_head_signChars negative n ('e' :: Decimal.intChars e)
  rw [hchars]
  apply scalar_of_number hc hbegins
  intro rest hrest
  rw [← number?_decimal negative n e hrest]
  simp only [List.append_assoc, List.cons_append]

/-! ## Cutting what was written -/

/-- Characters that are cut into given tokens, one for each step, whatever separates them from what
comes then. Every token has a character at least. -/
structure Cuts (cs : List Char) (ts : List Token) : Prop where
  length_le : ts.length ≤ cs.length
  tokens_append : ∀ rest fuel, AtEnd rest →
    tokens (fuel + ts.length) (cs ++ rest) = ts ++ tokens fuel rest

theorem Scalar.cuts {cs : List Char} (h : Scalar j cs) : Cuts cs [.scalar j] where
  length_le := by
    obtain ⟨c, hc, -⟩ := h.head
    obtain ⟨tail, rfl⟩ := List.head?_eq_some_iff.mp hc
    simp
  tokens_append _ fuel hrest := h.tokens_append hrest fuel

/-- A separator between two parts ends the first of them. -/
theorem Cuts.append {cs cs' : List Char} {ts ts' : List Token} {c : Char} {t : Token}
    (h : Cuts cs ts) (h' : Cuts cs' ts') (hc : c ∈ [',', ':', ']', '\x7d'])
    (ht : punctuation? c = some t) (hblank : isBlank c = false) :
    Cuts (cs ++ c :: cs') (ts ++ t :: ts') where
  length_le := by
    have hle := h.length_le
    have hle' := h'.length_le
    simp only [List.length_append, List.length_cons]
    omega
  tokens_append rest fuel hrest :=
    calc
      tokens (fuel + (ts ++ t :: ts').length) (cs ++ c :: cs' ++ rest)
        = tokens (fuel + ts'.length + 1 + ts.length) (cs ++ c :: (cs' ++ rest)) := by
          rw [List.append_assoc, List.length_append, List.length_cons]
          congr 1
          omega
      _ = ts ++ tokens (fuel + ts'.length + 1) (c :: (cs' ++ rest)) :=
          h.tokens_append _ _ (atEnd_cons hc _)
      _ = ts ++ t :: (ts' ++ tokens fuel rest) := by
          rw [tokens_punctuation ht hblank, h'.tokens_append rest fuel hrest]
      _ = ts ++ t :: ts' ++ tokens fuel rest := by
          rw [List.append_assoc]
          rfl

theorem cuts_nil : Cuts [] [] := ⟨Nat.le_refl 0, fun _ _ _ => rfl⟩

theorem cuts_intercalate {css : List (List Char)} {tss : List (List Token)}
    (h : List.Forall₂ Cuts css tss) : Cuts ([','].intercalate css) ([.comma].intercalate tss) := by
  induction h with
  | nil => exact cuts_nil
  | cons hfirst hrest ih =>
      cases hrest with
      | nil =>
          rw [List.intercalate_singleton, List.intercalate_singleton]
          exact hfirst
      | cons hsecond hrest =>
          rw [List.intercalate_cons_cons, List.intercalate_cons_cons, List.append_assoc,
            List.append_assoc]
          exact hfirst.append ih (by decide) rfl rfl

theorem Cuts.enclosed {cs : List Char} {ts : List Token} {first last : Char} {t t' : Token}
    (h : Cuts cs ts) (hlast : last ∈ [',', ':', ']', '\x7d']) (ht : punctuation? first = some t)
    (ht' : punctuation? last = some t') (hblank : isBlank first = false)
    (hblank' : isBlank last = false) :
    Cuts (first :: (cs ++ [last])) (t :: (ts ++ [t'])) := by
  have hinner := h.append cuts_nil hlast ht' hblank'
  refine ⟨Nat.succ_le_succ hinner.length_le, fun rest fuel hrest => ?_⟩
  show tokens (fuel + (ts ++ [t']).length + 1) (first :: (cs ++ [last] ++ rest)) = _
  rw [tokens_punctuation ht hblank, hinner.tokens_append rest fuel hrest]
  rfl

mutual

/-- What is written for a value is cut into its tokens. -/
theorem cuts_chars : (j : Json) → Cuts (chars j) (tokensOf j)
  | .null => scalar_null.cuts
  | .bool b => (scalar_bool b).cuts
  | .integer i => (scalar_integer i).cuts
  | .decimal negative n e => (scalar_decimal negative n e).cuts
  | .string s => (scalar_quoted s).cuts
  | .garbled => scalar_garbled.cuts
  | .array items => (cuts_intercalate (cuts_itemChars items)).enclosed (by decide) rfl rfl rfl rfl
  | .object members =>
    (cuts_intercalate (cuts_memberChars members)).enclosed (by decide) rfl rfl rfl rfl

theorem cuts_itemChars : (items : List Json) →
    List.Forall₂ Cuts (itemChars items) (itemTokens items)
  | [] => .nil
  | j :: rest => .cons (cuts_chars j) (cuts_itemChars rest)

theorem cuts_memberChars : (members : List (String × Json)) →
    List.Forall₂ Cuts (memberChars members) (memberTokens members)
  | [] => .nil
  | (name, j) :: rest =>
    .cons ((scalar_quoted name).cuts.append (cuts_chars j) (by decide) rfl rfl)
      (cuts_memberChars rest)

end

/-! ## Putting tokens together -/

/-- The tokens of a value are put together to this value, whatever follows them. A container and
its parts take a step each, so twice the number of tokens is enough. -/
def Reads (j : Json) : Prop :=
  ∀ fuel rest, 2 * (tokensOf j).length ≤ fuel → value? fuel (tokensOf j ++ rest) = some (j, rest)

/-- No value begins like the end of a container. -/
theorem exists_tokensOf_eq_cons (j : Json) :
    ∃ t ts, tokensOf j = t :: ts ∧ t ≠ .closeBracket := by
  cases j
  all_goals exact ⟨_, _, rfl, nofun⟩

/-- A value that is no container is one token. -/
theorem reads_scalar (h : tokensOf j = [.scalar j]) : Reads j := by
  intro fuel rest hfuel
  rw [h] at hfuel ⊢
  obtain ⟨fuel, rfl⟩ : ∃ k, fuel = k + 1 := ⟨fuel - 1, by simp at hfuel; omega⟩
  rfl

variable {name : String} {ts : List Token} {fuel : Nat}

theorem items?_last (h : Reads j) (hfuel : 2 * (tokensOf j).length ≤ fuel) :
    items? (fuel + 1) (tokensOf j ++ .closeBracket :: after) = some ([j], after) := by
  rw [items?, h fuel _ hfuel]

theorem items?_comma (h : Reads j) (hfuel : 2 * (tokensOf j).length ≤ fuel) :
    items? (fuel + 1) (tokensOf j ++ .comma :: ts) =
      (items? fuel ts).map fun (items, after) => (j :: items, after) := by
  rw [items?, h fuel _ hfuel]

theorem members?_last (h : Reads j) (hfuel : 2 * (tokensOf j).length ≤ fuel) :
    members? (fuel + 1) (.scalar (.string name) :: .colon :: (tokensOf j ++ .closeBrace :: after)) =
      some ([(some name, j)], after) := by
  simp only [members?, memberName?, h fuel _ hfuel, Option.bind_some]

theorem members?_comma (h : Reads j) (hfuel : 2 * (tokensOf j).length ≤ fuel) :
    members? (fuel + 1) (.scalar (.string name) :: .colon :: (tokensOf j ++ .comma :: ts)) =
      (members? fuel ts).map fun (members, after) => ((some name, j) :: members, after) := by
  simp only [members?, memberName?, h fuel _ hfuel, Option.bind_some]

/-- The items of an array, with commas between them, are read up to the closing bracket. -/
theorem items?_intercalate {items : List Json} (h : ∀ j ∈ items, Reads j) (hne : items ≠ []) :
    ∀ fuel after, 2 * ([.comma].intercalate (itemTokens items)).length < fuel →
      items? fuel ([.comma].intercalate (itemTokens items) ++ .closeBracket :: after) =
        some (items, after) := by
  induction items with
  | nil => exact absurd rfl hne
  | cons j items ih =>
      rintro (_ | fuel) after hfuel
      · exact absurd hfuel (Nat.not_lt_zero _)
      have hj : Reads j := h j List.mem_cons_self
      cases items with
      | nil =>
          simp only [itemTokens, List.intercalate_singleton] at hfuel ⊢
          exact items?_last hj (by omega)
      | cons j' items =>
          have hrest := ih (fun j hj => h j (List.mem_cons_of_mem _ hj)) (List.cons_ne_nil _ _)
          simp only [itemTokens, List.intercalate_cons_cons, List.append_assoc,
            List.cons_append, List.nil_append, List.length_append, List.length_cons]
            at hfuel hrest ⊢
          rw [items?_comma hj (by omega), hrest fuel after (by omega)]
          rfl

/-- The members of an object, with commas between them, are read up to the closing brace. -/
theorem members?_intercalate {members : List (String × Json)} (h : ∀ m ∈ members, Reads m.2)
    (hne : members ≠ []) :
    ∀ fuel after, 2 * ([.comma].intercalate (memberTokens members)).length < fuel →
      members? fuel ([.comma].intercalate (memberTokens members) ++ .closeBrace :: after) =
        some (members.map fun m => (some m.1, m.2), after) := by
  induction members with
  | nil => exact absurd rfl hne
  | cons m members ih =>
      obtain ⟨name, j⟩ := m
      rintro (_ | fuel) after hfuel
      · exact absurd hfuel (Nat.not_lt_zero _)
      have hj : Reads j := h (name, j) List.mem_cons_self
      cases members with
      | nil =>
          simp only [memberTokens, List.intercalate_singleton, List.length_cons,
            List.cons_append] at hfuel ⊢
          exact members?_last hj (by omega)
      | cons m' members =>
          have hrest := ih (fun m hm => h m (List.mem_cons_of_mem _ hm)) (List.cons_ne_nil _ _)
          simp only [memberTokens, List.intercalate_cons_cons, List.append_assoc,
            List.cons_append, List.nil_append, List.length_append, List.length_cons]
            at hfuel hrest ⊢
          rw [members?_comma hj (by omega), hrest fuel after (by omega)]
          rfl

theorem ofMembers_named (members : List (String × Json)) :
    ofMembers (members.map fun m => (some m.1, m.2)) = .object members := by
  have hnamed : (members.map fun m => (some m.1, m.2)).mapM
      (fun m => m.1.map (·, m.2)) = some members := by
    induction members with
    | nil => rfl
    | cons m members ih => simp [ih]
  rw [ofMembers]
  -- the two functions are equal by unfolding only
  erw [hnamed]

/-- Parts with commas between them begin like the first part. -/
theorem exists_intercalate_eq_cons (t : Token) (ts : List Token) (tss : List (List Token)) :
    ∃ ts', [Token.comma].intercalate ((t :: ts) :: tss) = t :: ts' := by
  cases tss with
  | nil => exact ⟨ts, List.intercalate_singleton ..⟩
  | cons ts' tss => exact ⟨_, List.intercalate_cons_cons ..⟩

theorem value?_openBracket {t : Token} (ht : t ≠ .closeBracket) :
    value? (fuel + 1) (.openBracket :: t :: ts) =
      (items? fuel (t :: ts)).map fun (items, after) => (.array items, after) := by
  rw [value?]
  rintro rest ⟨⟩
  exact ht rfl

theorem value?_openBrace {t : Token} (ht : t ≠ .closeBrace) :
    value? (fuel + 1) (.openBrace :: t :: ts) =
      (members? fuel (t :: ts)).map fun (members, after) => (ofMembers members, after) := by
  rw [value?]
  rintro rest ⟨⟩
  exact ht rfl

theorem reads_array {items : List Json} (h : ∀ j ∈ items, Reads j) : Reads (.array items) := by
  rintro (_ | fuel) after hfuel
  · simp [tokensOf] at hfuel
  cases items with
  | nil => rfl
  | cons j items =>
      -- the array does not end at once, for its first item begins with no closing bracket
      obtain ⟨t, ts, hj, hne⟩ := exists_tokensOf_eq_cons j
      obtain ⟨ts', hts⟩ := exists_intercalate_eq_cons t ts (itemTokens items)
      have hitems := items?_intercalate h (List.cons_ne_nil _ _) fuel after
        (by simp only [tokensOf, List.length_cons, List.length_append] at hfuel; omega)
      rw [itemTokens, hj, hts] at hitems
      rw [tokensOf, itemTokens, hj, hts]
      simp only [List.cons_append, List.append_assoc, List.nil_append] at hitems ⊢
      rw [value?_openBracket hne, hitems]
      rfl

theorem reads_object {members : List (String × Json)} (h : ∀ m ∈ members, Reads m.2) :
    Reads (.object members) := by
  rintro (_ | fuel) after hfuel
  · simp [tokensOf] at hfuel
  cases members with
  | nil => rfl
  | cons m members =>
      obtain ⟨ts', hts⟩ := exists_intercalate_eq_cons (.scalar (.string m.1))
        (.colon :: tokensOf m.2) (memberTokens members)
      have hmembers := members?_intercalate h (List.cons_ne_nil _ _) fuel after
        (by simp only [tokensOf, List.length_cons, List.length_append] at hfuel; omega)
      rw [memberTokens, hts] at hmembers
      rw [tokensOf, memberTokens, hts]
      simp only [List.cons_append, List.append_assoc, List.nil_append] at hmembers ⊢
      have hne : Token.scalar (.string m.1) ≠ .closeBrace := nofun
      rw [value?_openBrace hne, hmembers]
      show some (ofMembers _, after) = _
      rw [ofMembers_named]

mutual

theorem reads : (j : Json) → Reads j
  | .null => reads_scalar rfl
  | .bool _ => reads_scalar rfl
  | .integer _ => reads_scalar rfl
  | .decimal .. => reads_scalar rfl
  | .string _ => reads_scalar rfl
  | .garbled => reads_scalar rfl
  | .array items => reads_array (reads_items items)
  | .object members => reads_object (reads_members members)

theorem reads_items : (items : List Json) → ∀ j ∈ items, Reads j
  | [] => List.forall_mem_nil _
  | j :: items => List.forall_mem_cons.mpr ⟨reads j, reads_items items⟩

theorem reads_members : (members : List (String × Json)) → ∀ m ∈ members, Reads m.2
  | [] => List.forall_mem_nil _
  | (_, j) :: members => List.forall_mem_cons.mpr ⟨reads j, reads_members members⟩

end

/-! ## The text of a value -/

/-- The first value of a text that was written is the value it was written for, and nothing
follows it. -/
theorem first?_chars (j : Json) : first? (chars j) = some (j, []) := by
  -- there is a step left after the last token, as no token is without characters
  have hle := (cuts_chars j).length_le
  have htokens : tokens ((chars j).length + 1) (chars j) = tokensOf j := by
    have hcut := (cuts_chars j).tokens_append [] ((chars j).length - (tokensOf j).length + 1)
      atEnd_nil
    rw [List.append_nil, tokens_nil, List.append_nil] at hcut
    rw [← hcut]
    congr 1
    omega
  have hvalue := reads j (2 * (tokensOf j).length + 1) [] (Nat.le_succ _)
  rw [List.append_nil] at hvalue
  rw [first?, htokens]
  exact hvalue

/-- What is written for a value is read as this value. -/
theorem ofText?_text (j : Json) : ofText? j.text = some j := by
  rw [ofText?, text, String.toList_ofList, ofChars?, first?_chars]

theorem text_injective : Function.Injective text := by
  intro j j' h
  have hread : some j = some j' := by rw [← ofText?_text j, h, ofText?_text]
  exact Option.some.inj hread

/-! ## One line -/

def Printed (cs : List Char) : Prop := ∀ c ∈ cs, 32 ≤ c.toNat

instance (cs : List Char) : Decidable (Printed cs) :=
  List.decidableBAll (fun c : Char => 32 ≤ c.toNat) cs

theorem Printed.append {cs cs' : List Char} (h : Printed cs) (h' : Printed cs') :
    Printed (cs ++ cs') := fun c hc => (List.mem_append.mp hc).elim (h c) (h' c)

theorem Printed.cons {c : Char} {cs : List Char} (hc : 32 ≤ c.toNat) (h : Printed cs) :
    Printed (c :: cs) := by
  intro c' hc'
  rcases List.mem_cons.mp hc' with rfl | hc'
  · exact hc
  · exact h c' hc'

theorem Printed.intercalate {css : List (List Char)} (h : ∀ cs ∈ css, Printed cs) :
    Printed ([','].intercalate css) := by
  induction css with
  | nil => exact List.forall_mem_nil _
  | cons cs css ih =>
      have hrest := ih fun cs' hcs' => h cs' (List.mem_cons_of_mem _ hcs')
      cases css with
      | nil =>
          rw [List.intercalate_singleton]
          exact h cs List.mem_cons_self
      | cons cs' css =>
          rw [List.intercalate_cons_cons]
          exact ((h cs List.mem_cons_self).append (by decide)).append hrest

theorem printed_hexDigits (width n : Nat) : Printed (Hex.digits width n) := by
  have hdigit : ∀ d < 16, Printed [Hex.digit d] := by decide
  induction width generalizing n with
  | zero => exact List.forall_mem_nil _
  | succ width ih => exact (ih (n / 16)).append (hdigit (n % 16) (Nat.mod_lt _ (by decide)))

theorem printed_digits (n : Nat) : Printed (Decimal.digits n) := by
  intro c hc
  have hdigit := Decimal.isDigit_of_mem_digits hc
  simp only [Char.isDigit, Bool.and_eq_true, decide_eq_true_eq] at hdigit
  exact Nat.le_trans (by decide) hdigit.1

theorem printed_signChars (negative : Bool) : Printed (signChars negative) := by
  cases negative
  all_goals decide

theorem printed_intChars (i : Int) : Printed (Decimal.intChars i) := by
  rw [intChars_eq]
  exact (printed_signChars _).append (printed_digits _)

/-- What a character is written as holds no control character, for these are escaped. -/
theorem printed_escape (c : Char) : Printed (escape c) := by
  unfold escape
  repeat' split
  all_goals try decide
  next hcontrol => exact (Printed.cons (by decide) (printed_hexDigits 4 _)).cons (by decide)
  next hcontrol => exact Printed.cons (Nat.le_of_not_lt hcontrol) (List.forall_mem_nil _)

theorem printed_quoted (cs : List Char) : Printed (quoted cs) := by
  refine Printed.cons (by decide) (Printed.append ?_ (by decide))
  intro c hc
  obtain ⟨c', -, hc'⟩ := List.mem_flatMap.mp hc
  exact printed_escape c' c hc'

mutual

/-- What is written for a value holds no control character, so it is one line. -/
theorem printed_chars : (j : Json) → Printed (chars j)
  | .null => by decide
  | .bool true => by decide
  | .bool false => by decide
  | .integer i => printed_intChars i
  | .decimal negative n e =>
    ((printed_signChars negative).append (printed_digits n)).append
      ((printed_intChars e).cons (by decide))
  | .string s => printed_quoted s.toList
  | .garbled => by decide
  | .array items =>
    ((Printed.intercalate (printed_itemChars items)).append (by decide)).cons (by decide)
  | .object members =>
    ((Printed.intercalate (printed_memberChars members)).append (by decide)).cons (by decide)

theorem printed_itemChars : (items : List Json) → ∀ cs ∈ itemChars items, Printed cs
  | [] => List.forall_mem_nil _
  | j :: rest => List.forall_mem_cons.mpr ⟨printed_chars j, printed_itemChars rest⟩

theorem printed_memberChars : (members : List (String × Json)) →
    ∀ cs ∈ memberChars members, Printed cs
  | [] => List.forall_mem_nil _
  | (name, j) :: rest => List.forall_mem_cons.mpr
    ⟨(printed_quoted name.toList).append ((printed_chars j).cons (by decide)),
      printed_memberChars rest⟩

end

end WordTiles.Json
