/-!
# Lines, words and numerals

A line of text is cut into words at its spaces, and words are joined into a line by single
spaces. A cut leaves no empty words, so that it does not matter how many spaces stand between
two words or at the ends of the line.

The numerals that messages and JSON text are written with are decimal: no leading zeros, no
thousands marks, and a minus sign in front of a negative number. Reading the digits of a natural
number gives the number back (`Decimal.value_digits`).
-/

set_option autoImplicit false

namespace WordTiles

namespace Line

/-- The non-empty stretches between two separators. -/
def pieces (separator : Char) (cs : List Char) : List (List Char) :=
  (cs.splitOn separator).filter (!·.isEmpty)

def words (line : String) : List String := (pieces ' ' line.toList).map String.ofList

def ofWords (ws : List String) : String := " ".intercalate ws

end Line

namespace Decimal

/-- The digits of a natural number, most significant first; zero is the one digit `0`. -/
def digits (n : Nat) : List Char := Nat.toDigits 10 n

/-- The number a list of decimal digits stands for. -/
def value (cs : List Char) : Nat := Nat.ofDigitChars 10 cs 0

theorem value_digits (n : Nat) : value (digits n) = n :=
  Nat.ofDigitChars_toDigits (by decide) (by decide)

def intChars : Int → List Char
  | .ofNat n => digits n
  | .negSucc n => '-' :: digits (n + 1)

def natText (n : Nat) : String := String.ofList (digits n)

def intText (i : Int) : String := String.ofList (intChars i)

end Decimal

end WordTiles
