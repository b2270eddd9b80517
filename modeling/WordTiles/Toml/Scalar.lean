import WordTiles.Double
import WordTiles.Hex
import WordTiles.Toml.Basic

/-!
# Numbers, dates and truth values of TOML

A value that is neither a string nor in brackets is one run of letters, digits and the signs
`+ - _ . :`. What it is, its form decides; the forms exclude each other. Only a date and a time
with a space between them are two runs.
-/

set_option autoImplicit false

namespace WordTiles.Toml

def isRunChar (c : Char) : Bool :=
  c.isAlphanum || c == '+' || c == '-' || c == '_' || c == '.' || c == ':'

/-! ## Numbers -/

/-- Takes the underscores out of a run of digits; each must stand between two digits. -/
def groupedDigits? (isDigit : Char → Bool) (cs : List Char) : Option (List Char) :=
  let groups := cs.splitOn '_'
  if groups.all fun g => !g.isEmpty && g.all isDigit then some groups.flatten else none

/-- A sign, if there is one, and what follows it. -/
def sign (cs : List Char) : Bool × List Char :=
  match cs with
  | '-' :: rest => (true, rest)
  | '+' :: rest => (false, rest)
  | _ => (false, cs)

/-- The digits of the whole part of a number, which do not begin with a zero unless it is the
only one. -/
def wholeDigits? (cs : List Char) : Option (List Char) :=
  (groupedDigits? Char.isDigit cs).bind fun ds =>
    if ds.head? = some '0' ∧ 1 < ds.length then none else some ds

/-- Integers have 64 bits. -/
def integerInRange? (i : Int) : Option Int :=
  if -9223372036854775808 ≤ i ∧ i ≤ 9223372036854775807 then some i else none

/-- The value of digits of a base that is a power of two. -/
def baseValue? (base : Nat) (cs : List Char) : Option Int :=
  (groupedDigits? (fun c => ((Hex.digit? c).map (decide <| · < base)).getD false) cs).bind
    fun ds => (ds.foldl (fun n c => base * n + (Hex.digit? c).getD 0) 0 : Nat) |> integerInRange?

def integer? (cs : List Char) : Option Int :=
  match cs with
  | '0' :: 'x' :: rest => baseValue? 16 rest
  | '0' :: 'o' :: rest => baseValue? 8 rest
  | '0' :: 'b' :: rest => baseValue? 2 rest
  | _ =>
    let (negative, rest) := sign cs
    (wholeDigits? rest).bind fun ds =>
      integerInRange? (if negative then -(Decimal.value ds : Int) else Decimal.value ds)

/-- Reads the exponent of a float, with its letter: nothing, if there is none. -/
def exponent? : List Char → Option (Option Int)
  | [] => some none
  | c :: rest =>
    if c = 'e' ∨ c = 'E' then
      let (negative, digits) := sign rest
      (groupedDigits? Char.isDigit digits).map fun ds =>
        some (if negative then -(Decimal.value ds : Int) else Decimal.value ds)
    else none

/-- The parts of a number may hold these characters. -/
def isDigitOrMark (c : Char) : Bool := c.isDigit || c == '_'

/-- Whether digits without a sign are a float: a whole part, and after it a fraction, an
exponent or both. A number above all doubles is no float. -/
def isPlainFloat (negative : Bool) (cs : List Char) : Bool :=
  match wholeDigits? (cs.takeWhile isDigitOrMark), cs.dropWhile isDigitOrMark with
  | some whole, '.' :: rest =>
    match groupedDigits? Char.isDigit (rest.takeWhile isDigitOrMark),
        exponent? (rest.dropWhile isDigitOrMark) with
    | some fraction, some e =>
      negative || Double.isFinite (Decimal.value (whole ++ fraction))
        (e.getD 0 - fraction.length)
    | _, _ => false
  | some whole, rest =>
    match exponent? rest with
    | some (some e) => negative || Double.isFinite (Decimal.value whole) e
    | _ => false
  | none, _ => false

def isFloat (cs : List Char) : Bool :=
  let (negative, rest) := sign cs
  rest == "inf".toList || rest == "nan".toList || isPlainFloat negative rest

/-! ## Dates and times -/

/-- Reads a number of exactly so many digits, from a range. -/
def fixedDigits? (width least greatest : Nat) (cs : List Char) : Option (Nat × List Char) :=
  let ds := cs.take width
  let n := Decimal.value ds
  if ds.length = width ∧ ds.all Char.isDigit ∧ least ≤ n ∧ n ≤ greatest then
    some (n, cs.drop width)
  else none

def mark? (c : Char) : List Char → Option (List Char)
  | x :: rest => if x = c then some rest else none
  | [] => none

def isLeapYear (year : Nat) : Bool :=
  year % 4 == 0 && (year % 100 != 0 || year % 400 == 0)

def daysOfMonth (year month : Nat) : Nat :=
  if month = 2 then if isLeapYear year then 29 else 28
  else if month = 4 ∨ month = 6 ∨ month = 9 ∨ month = 11 then 30
  else 31

def skipDate? (cs : List Char) : Option (List Char) := do
  let (year, cs) ← fixedDigits? 4 0 9999 cs
  let cs ← mark? '-' cs
  let (month, cs) ← fixedDigits? 2 1 12 cs
  let cs ← mark? '-' cs
  let (_, cs) ← fixedDigits? 2 1 (daysOfMonth year month) cs
  return cs

def skipFraction? : List Char → Option (List Char)
  | '.' :: rest =>
    if (rest.takeWhile Char.isDigit).isEmpty then none else some (rest.dropWhile Char.isDigit)
  | cs => some cs

/-- Passes over a time of day. A minute may have a leap second. -/
def skipTime? (cs : List Char) : Option (List Char) := do
  let (_, cs) ← fixedDigits? 2 0 23 cs
  let cs ← mark? ':' cs
  let (_, cs) ← fixedDigits? 2 0 59 cs
  let cs ← mark? ':' cs
  let (_, cs) ← fixedDigits? 2 0 60 cs
  skipFraction? cs

def skipOffset? (cs : List Char) : Option (List Char) :=
  match cs with
  | [] => some []
  | c :: rest =>
    if c = 'Z' ∨ c = 'z' then some rest
    else if c = '+' ∨ c = '-' then do
      let (_, cs) ← fixedDigits? 2 0 23 rest
      let cs ← mark? ':' cs
      let (_, cs) ← fixedDigits? 2 0 59 cs
      return cs
    else none

def isDate (cs : List Char) : Bool := skipDate? cs == some []

def isTime (cs : List Char) : Bool := skipTime? cs == some []

/-- Whether a run is a time of day that can follow a date, so that the distance from world
time may be given. -/
def isTimeOfDate (cs : List Char) : Bool := (skipTime? cs).bind skipOffset? == some []

def isDateTime (cs : List Char) : Bool :=
  match skipDate? cs with
  | some (c :: rest) => (c == 'T' || c == 't') && isTimeOfDate rest
  | _ => false

/-! ## Runs -/

def ofRun? (cs : List Char) : Option Toml :=
  if cs = "true".toList then some (.boolean true)
  else if cs = "false".toList then some (.boolean false)
  else
    match integer? cs with
    | some i => some (.integer i)
    | none =>
      if isFloat cs then some (.float (String.ofList cs))
      else if isDate cs || isTime cs || isDateTime cs then
        some (.dateTime (String.ofList cs))
      else none

/-- Reads a value that is a run, or a date and a time with a space between them, and gives
what follows. -/
def scalar? (cs : List Char) : Option (Toml × List Char) :=
  let run := cs.takeWhile isRunChar
  let rest := cs.dropWhile isRunChar
  let time := (rest.drop 1).takeWhile isRunChar
  if isDate run ∧ rest.head? = some ' ' ∧ isTimeOfDate time then
    some (.dateTime (String.ofList (run ++ ' ' :: time)), (rest.drop 1).dropWhile isRunChar)
  else (ofRun? run).map (·, rest)

end WordTiles.Toml
