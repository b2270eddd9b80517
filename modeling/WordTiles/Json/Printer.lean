import WordTiles.Hex
import WordTiles.Json.Basic

/-!
# Writing JSON

The compact text of a value: no blanks, members in their order. In strings a quote, a
backslash and the control characters are escaped, those with a letter of their own by that
letter and the others by four hexadecimal digits; every other character stands for itself.
-/

set_option autoImplicit false

namespace WordTiles.Json

/-- A character as it is written in a string. -/
def escape (c : Char) : List Char :=
  if c = '"' then ['\\', '"']
  else if c = '\\' then ['\\', '\\']
  else if c = '\x08' then ['\\', 'b']
  else if c = '\x0c' then ['\\', 'f']
  else if c = '\n' then ['\\', 'n']
  else if c = '\r' then ['\\', 'r']
  else if c = '\t' then ['\\', 't']
  else if c.toNat < 32 then '\\' :: 'u' :: Hex.digits 4 c.toNat
  else [c]

def quoted (cs : List Char) : List Char := '"' :: (cs.flatMap escape ++ ['"'])

def signChars (negative : Bool) : List Char := if negative then ['-'] else []

mutual

def chars : Json → List Char
  | .null => "null".toList
  | .bool true => "true".toList
  | .bool false => "false".toList
  | .integer i => Decimal.intChars i
  | .decimal negative digits exponent =>
    signChars negative ++ Decimal.digits digits ++ 'e' :: Decimal.intChars exponent
  | .string s => quoted s.toList
  | .garbled => "\"\\ud800\"".toList
  | .array items => '[' :: ([','].intercalate (itemChars items) ++ [']'])
  | .object members => '\x7b' :: ([','].intercalate (memberChars members) ++ ['\x7d'])

def itemChars : List Json → List (List Char)
  | [] => []
  | j :: rest => chars j :: itemChars rest

def memberChars : List (String × Json) → List (List Char)
  | [] => []
  | (name, j) :: rest => (quoted name.toList ++ ':' :: chars j) :: memberChars rest

end

def text (j : Json) : String := String.ofList j.chars

end WordTiles.Json
