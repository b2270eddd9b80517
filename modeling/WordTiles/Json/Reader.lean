import WordTiles.Hex
import WordTiles.Json.Basic

/-!
# Reading JSON

The text is cut into tokens, which are then put together to a value. Blanks may stand between
tokens: spaces, tabs, line feeds and carriage returns. A text of JSON is one value; `first?`
reads the first value of any text, whatever follows it.
-/

set_option autoImplicit false

namespace WordTiles.Json

/-! ## Strings -/

/-- A part of a string: a character, or a unit of two bytes written by its number. -/
inductive Element where
  | char (c : Char)
  | unit (u : Nat)
  deriving DecidableEq

def unescape? (c : Char) : Option Char :=
  if c = '"' then some '"'
  else if c = '\\' then some '\\'
  else if c = '/' then some '/'
  else if c = 'b' then some '\x08'
  else if c = 'f' then some '\x0c'
  else if c = 'n' then some '\n'
  else if c = 'r' then some '\r'
  else if c = 't' then some '\t'
  else none

/-- Reads the parts of a string up to its closing quote, and gives what follows. Control
characters must be escaped. -/
def elements? : List Char → Option (List Element × List Char)
  | [] => none
  | '"' :: rest => some ([], rest)
  | '\\' :: 'u' :: a :: b :: c :: d :: rest =>
    (Hex.value? [a, b, c, d]).bind fun u =>
      (elements? rest).map fun (es, after) => (.unit u :: es, after)
  | '\\' :: c :: rest =>
    (unescape? c).bind fun e =>
      (elements? rest).map fun (es, after) => (.char e :: es, after)
  | c :: rest =>
    if c.toNat < 32 ∨ c = '\\' then none
    else (elements? rest).map fun (es, after) => (.char c :: es, after)

def isHighSurrogate (u : Nat) : Bool := decide (0xD800 ≤ u ∧ u < 0xDC00)

def isLowSurrogate (u : Nat) : Bool := decide (0xDC00 ≤ u ∧ u < 0xE000)

def ofSurrogates (high low : Nat) : Char :=
  Char.ofNat (0x10000 + (high - 0xD800) * 0x400 + (low - 0xDC00))

/-- The text that the parts of a string stand for; nothing if a half of a surrogate pair is
without its other half. -/
def textOf? : List Element → Option (List Char)
  | [] => some []
  | .char c :: rest => (textOf? rest).map (c :: ·)
  | .unit u :: .unit v :: rest =>
    if isHighSurrogate u then
      if isLowSurrogate v then (textOf? rest).map (ofSurrogates u v :: ·) else none
    else if isLowSurrogate u then none
    else (textOf? (.unit v :: rest)).map (Char.ofNat u :: ·)
  | .unit u :: rest =>
    if isHighSurrogate u || isLowSurrogate u then none
    else (textOf? rest).map (Char.ofNat u :: ·)

def ofElements (es : List Element) : Json :=
  match textOf? es with
  | some cs => .string (String.ofList cs)
  | none => .garbled

/-! ## Numbers -/

def sign : List Char → Bool × List Char
  | '-' :: rest => (true, rest)
  | cs => (false, cs)

def digits? (cs : List Char) : Option (List Char × List Char) :=
  let ds := cs.takeWhile Char.isDigit
  if ds.isEmpty then none else some (ds, cs.dropWhile Char.isDigit)

/-- Reads digits that do not begin with a zero, unless it is the only one. -/
def wholePart? (cs : List Char) : Option (List Char × List Char) :=
  (digits? cs).bind fun (ds, rest) =>
    if ds.head? = some '0' ∧ 1 < ds.length then none else some (ds, rest)

def fraction? : List Char → Option (List Char × List Char)
  | '.' :: rest => digits? rest
  | cs => some ([], cs)

/-- Reads a sign and digits after the letter of an exponent. -/
def signedDigits? : List Char → Option (Int × List Char)
  | '-' :: rest => (digits? rest).map fun (ds, after) => (-(Decimal.value ds : Int), after)
  | '+' :: rest => (digits? rest).map fun (ds, after) => ((Decimal.value ds : Int), after)
  | cs => (digits? cs).map fun (ds, after) => ((Decimal.value ds : Int), after)

def exponent? : List Char → Option (Option Int × List Char)
  | c :: rest =>
    if c = 'e' ∨ c = 'E' then (signedDigits? rest).map fun (e, after) => (some e, after)
    else some (none, c :: rest)
  | [] => some (none, [])

def ofParts (negative : Bool) (whole fraction : List Char) (exponent : Option Int) : Json :=
  let n := Decimal.value (whole ++ fraction)
  if fraction.isEmpty ∧ exponent.isNone ∧ ¬ (negative ∧ n = 0) then
    .integer (if negative then -(n : Int) else n)
  else .decimal negative n (exponent.getD 0 - fraction.length)

def number? (cs : List Char) : Option (Json × List Char) := do
  let (negative, cs) := sign cs
  let (whole, cs) ← wholePart? cs
  let (fraction, cs) ← fraction? cs
  let (exponent, cs) ← exponent? cs
  return (ofParts negative whole fraction exponent, cs)

/-! ## Tokens -/

/-- A token: a bracket, a separator, a value that is no container, or what cannot be cut into
tokens. -/
inductive Token where
  | openBracket
  | closeBracket
  | openBrace
  | closeBrace
  | comma
  | colon
  | scalar (value : Json)
  | invalid

def isBlank (c : Char) : Bool := c == ' ' || c == '\t' || c == '\n' || c == '\r'

def punctuation? (c : Char) : Option Token :=
  if c = '[' then some .openBracket
  else if c = ']' then some .closeBracket
  else if c = '\x7b' then some .openBrace
  else if c = '\x7d' then some .closeBrace
  else if c = ',' then some .comma
  else if c = ':' then some .colon
  else none

/-- Reads a value that is no container, and gives what follows. -/
def scalar? (cs : List Char) : Option (Json × List Char) :=
  match cs with
  | '"' :: rest => (elements? rest).map fun (es, after) => (ofElements es, after)
  | 'n' :: rest => ("ull".toList.isPrefixOf? rest).map (Json.null, ·)
  | 't' :: rest => ("rue".toList.isPrefixOf? rest).map (Json.bool true, ·)
  | 'f' :: rest => ("alse".toList.isPrefixOf? rest).map (Json.bool false, ·)
  | cs => number? cs

/-- Cuts a text into tokens, up to the first place that is none. Every step takes a character
at least, so the length of the text bounds their number. -/
def tokens : (fuel : Nat) → List Char → List Token
  | 0, _ => [.invalid]
  | _ + 1, [] => []
  | fuel + 1, c :: cs =>
    if isBlank c then tokens fuel cs
    else
      match punctuation? c with
      | some t => t :: tokens fuel cs
      | none =>
        match scalar? (c :: cs) with
        | some (j, rest) => .scalar j :: tokens fuel rest
        | none => [.invalid]

/-! ## Values -/

/-- The name that a string gives to a member; a garbled one gives none. -/
def memberName? : Token → Option (Option String)
  | .scalar (.string name) => some (some name)
  | .scalar .garbled => some none
  | _ => none

/-- The object of some members, which is garbled if one of them has no name. -/
def ofMembers (members : List (Option String × Json)) : Json :=
  match members.mapM fun (name, j) => name.map (·, j) with
  | some named => .object named
  | none => .garbled

mutual

def value? : (fuel : Nat) → List Token → Option (Json × List Token)
  | 0, _ => none
  | _ + 1, .scalar j :: rest => some (j, rest)
  | _ + 1, .openBracket :: .closeBracket :: rest => some (.array [], rest)
  | fuel + 1, .openBracket :: rest =>
    (items? fuel rest).map fun (items, after) => (.array items, after)
  | _ + 1, .openBrace :: .closeBrace :: rest => some (.object [], rest)
  | fuel + 1, .openBrace :: rest =>
    (members? fuel rest).map fun (members, after) => (ofMembers members, after)
  | _ + 1, _ => none

/-- Reads the items of an array up to its closing bracket. -/
def items? : (fuel : Nat) → List Token → Option (List Json × List Token)
  | 0, _ => none
  | fuel + 1, ts =>
    match value? fuel ts with
    | some (j, .closeBracket :: rest) => some ([j], rest)
    | some (j, .comma :: rest) => (items? fuel rest).map fun (js, after) => (j :: js, after)
    | _ => none

/-- Reads the members of an object up to its closing brace. -/
def members? : (fuel : Nat) → List Token → Option (List (Option String × Json) × List Token)
  | 0, _ => none
  | fuel + 1, t :: .colon :: ts =>
    (memberName? t).bind fun name =>
      match value? fuel ts with
      | some (j, .closeBrace :: rest) => some ([(name, j)], rest)
      | some (j, .comma :: rest) =>
        (members? fuel rest).map fun (ms, after) => ((name, j) :: ms, after)
      | _ => none
  | _ + 1, _ => none

end

/-- Reads the first value of a text, and gives the tokens that follow it. A value and its items
or members take turns, so twice the number of tokens bounds the nesting of calls. -/
def first? (cs : List Char) : Option (Json × List Token) :=
  let ts := tokens (cs.length + 1) cs
  value? (2 * ts.length + 1) ts

def ofChars? (cs : List Char) : Option Json :=
  match first? cs with
  | some (j, []) => some j
  | _ => none

/-- Reads a value from text, which must hold nothing else. -/
def ofText? (s : String) : Option Json := ofChars? s.toList

end WordTiles.Json
