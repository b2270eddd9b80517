import WordTiles.Hex

/-!
# Characters, strings and keys of TOML

Readers of strings take the text after the opening quotes, and give the string and what
follows its closing quotes.
-/

set_option autoImplicit false

namespace WordTiles.Toml

/-- The characters that stand between tokens of one line. -/
def isBlank (c : Char) : Bool := c == ' ' || c == '\t'

/-- The characters allowed in comments and within one line of a string: all but the control
characters, of which only the tab is allowed. -/
def isTextChar (c : Char) : Bool := c == '\t' || (32 ≤ c.toNat && c.toNat != 127)

def skipBlanks (cs : List Char) : List Char := cs.dropWhile isBlank

/-- Passes over blanks, line ends and comments. A comment ends with its line, and a comment
that holds a control character is no comment. -/
def skipTrivia? (inComment : Bool) : List Char → Option (List Char)
  | [] => some []
  | '\n' :: rest => skipTrivia? false rest
  | '\r' :: '\n' :: rest => skipTrivia? false rest
  | c :: rest =>
    if inComment then
      if isTextChar c then skipTrivia? true rest else none
    else if isBlank c then skipTrivia? false rest
    else if c = '#' then skipTrivia? true rest
    else some (c :: rest)

/-- Whether a line ends here, blanks and a comment apart. -/
def endsLine (cs : List Char) : Bool :=
  match skipBlanks cs with
  | [] => true
  | '#' :: _ => true
  | '\n' :: _ => true
  | '\r' :: '\n' :: _ => true
  | _ => false

/-! ## Strings -/

def unescape? (c : Char) : Option Char :=
  if c = 'b' then some '\x08'
  else if c = 't' then some '\t'
  else if c = 'n' then some '\n'
  else if c = 'f' then some '\x0c'
  else if c = 'r' then some '\r'
  else if c = '"' then some '"'
  else if c = '\\' then some '\\'
  else none

def scalarChar? (digits : List Char) : Option Char :=
  (Hex.value? digits).bind fun n =>
    if n < 0xD800 ∨ (0xE000 ≤ n ∧ n < 0x110000) then some (Char.ofNat n) else none

def consChar (c : Char) (read : List Char × List Char) : List Char × List Char :=
  (c :: read.1, read.2)

def basicString? : List Char → Option (List Char × List Char)
  | [] => none
  | '"' :: rest => some ([], rest)
  | '\\' :: 'u' :: a :: b :: c :: d :: rest =>
    (scalarChar? [a, b, c, d]).bind fun x => (basicString? rest).map (consChar x)
  | '\\' :: 'U' :: a :: b :: c :: d :: e :: f :: g :: h :: rest =>
    (scalarChar? [a, b, c, d, e, f, g, h]).bind fun x => (basicString? rest).map (consChar x)
  | '\\' :: c :: rest =>
    (unescape? c).bind fun x => (basicString? rest).map (consChar x)
  | c :: rest =>
    if isTextChar c ∧ c ≠ '\\' then (basicString? rest).map (consChar c) else none

/-- Reads a string in single quotes, which has no escapes. -/
def literalString? : List Char → Option (List Char × List Char)
  | [] => none
  | '\'' :: rest => some ([], rest)
  | c :: rest => if isTextChar c then (literalString? rest).map (consChar c) else none

/-- A line end directly after the opening quotes of a string of several lines is not part of
it. -/
def skipLineEnd : List Char → List Char
  | '\n' :: rest => rest
  | '\r' :: '\n' :: rest => rest
  | cs => cs

/-- Reads a string of several lines in three double quotes. Up to two quotes may stand before
the closing ones. A backslash at the end of a line takes away all blanks and line ends that
follow, which is what `skipping` does. -/
def basicLines? (skipping : Bool) : List Char → Option (List Char × List Char)
  | [] => none
  | '"' :: '"' :: '"' :: '"' :: '"' :: rest => some (['"', '"'], rest)
  | '"' :: '"' :: '"' :: '"' :: rest => some (['"'], rest)
  | '"' :: '"' :: '"' :: rest => some ([], rest)
  | '\r' :: '\n' :: rest =>
    if skipping then basicLines? true rest else (basicLines? false rest).map (consChar '\n')
  | '\n' :: rest =>
    if skipping then basicLines? true rest else (basicLines? false rest).map (consChar '\n')
  | '\\' :: 'u' :: a :: b :: c :: d :: rest =>
    (scalarChar? [a, b, c, d]).bind fun x => (basicLines? false rest).map (consChar x)
  | '\\' :: 'U' :: a :: b :: c :: d :: e :: f :: g :: h :: rest =>
    (scalarChar? [a, b, c, d, e, f, g, h]).bind fun x =>
      (basicLines? false rest).map (consChar x)
  | '\\' :: c :: rest =>
    match unescape? c with
    | some x => (basicLines? false rest).map (consChar x)
    | none =>
      match skipBlanks (c :: rest) with
      | '\n' :: _ => basicLines? true (c :: rest)
      | '\r' :: '\n' :: _ => basicLines? true (c :: rest)
      | _ => none
  | c :: rest =>
    if skipping ∧ isBlank c then basicLines? true rest
    else if isTextChar c ∧ c ≠ '\\' then (basicLines? false rest).map (consChar c)
    else none

/-- Reads a string of several lines in three single quotes. Up to two quotes may stand before
the closing ones. -/
def literalLines? : List Char → Option (List Char × List Char)
  | [] => none
  | '\'' :: '\'' :: '\'' :: '\'' :: '\'' :: rest => some (['\'', '\''], rest)
  | '\'' :: '\'' :: '\'' :: '\'' :: rest => some (['\''], rest)
  | '\'' :: '\'' :: '\'' :: rest => some ([], rest)
  | '\r' :: '\n' :: rest => (literalLines? rest).map (consChar '\n')
  | '\n' :: rest => (literalLines? rest).map (consChar '\n')
  | c :: rest => if isTextChar c then (literalLines? rest).map (consChar c) else none

/-- Reads a string with any of the four kinds of quotes. -/
def string? : List Char → Option (List Char × List Char)
  | '"' :: '"' :: '"' :: rest => basicLines? false (skipLineEnd rest)
  | '"' :: rest => basicString? rest
  | '\'' :: '\'' :: '\'' :: rest => literalLines? (skipLineEnd rest)
  | '\'' :: rest => literalString? rest
  | _ => none

/-! ## Keys -/

def isKeyChar (c : Char) : Bool := c.isAlphanum || c == '_' || c == '-'

/-- Reads one name of a key, and gives what follows. -/
def name? : List Char → Option (String × List Char)
  | '"' :: rest => (basicString? rest).map fun (cs, after) => (String.ofList cs, after)
  | '\'' :: rest => (literalString? rest).map fun (cs, after) => (String.ofList cs, after)
  | cs =>
    let run := cs.takeWhile isKeyChar
    if run.isEmpty then none else some (String.ofList run, cs.dropWhile isKeyChar)

/-- Reads names joined by dots, with blanks around the dots, and gives what follows. -/
def names? : (fuel : Nat) → List Char → Option (List String × List Char)
  | 0, _ => none
  | fuel + 1, cs =>
    (name? cs).bind fun (name, rest) =>
      match skipBlanks rest with
      | '.' :: more =>
        (names? fuel (skipBlanks more)).map fun (names, after) => (name :: names, after)
      | after => some ([name], after)

/-- How deep values may be nested, and from how many names on a key is refused. -/
def depthLimit : Nat := 80

def key? (cs : List Char) : Option (List String × List Char) :=
  (names? (cs.length + 1) cs).bind fun (names, after) =>
    if names.length < depthLimit then some (names, after) else none

end WordTiles.Toml
