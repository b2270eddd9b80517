import WordTiles.Toml.Scalar
import WordTiles.Toml.Text

/-!
# Reading TOML

A document is a sequence of lines, each of them blank, a comment, a header or an entry. Values
in brackets may go over several lines, inline tables may not.
-/

set_option autoImplicit false

namespace WordTiles.Toml

def inlineTable? (es : List (Path × Toml)) : Option Toml :=
  (es.foldlM (fun entries (path, v) => Entries.insert v path entries) []).map (.table .inline)

mutual

/-- Reads a value that is nested in `depth` others, and gives what follows. -/
def value? : (fuel depth : Nat) → List Char → Option (Toml × List Char)
  | 0, _, _ => none
  | _ + 1, _, '"' :: rest =>
    (string? ('"' :: rest)).map fun (cs, after) => (.string (String.ofList cs), after)
  | _ + 1, _, '\'' :: rest =>
    (string? ('\'' :: rest)).map fun (cs, after) => (.string (String.ofList cs), after)
  | fuel + 1, depth, '[' :: rest =>
    if depth + 1 < depthLimit then
      (items? fuel (depth + 1) rest).map fun (items, after) => (.array items, after)
    else none
  | fuel + 1, depth, '\x7b' :: rest =>
    if depth + 1 < depthLimit then
      match skipBlanks rest with
      | '\x7d' :: after => some (.table .inline [], after)
      | inner =>
        (entries? fuel (depth + 1) inner).bind fun (es, after) =>
          (inlineTable? es).map (·, after)
    else none
  | _ + 1, _, cs => scalar? cs

/-- Reads the items of an array up to its closing bracket. A comma may stand after the last
item. -/
def items? : (fuel depth : Nat) → List Char → Option (List Toml × List Char)
  | 0, _, _ => none
  | fuel + 1, depth, cs =>
    match skipTrivia? false cs with
    | none => none
    | some (']' :: rest) => some ([], rest)
    | some inner =>
      (value? fuel depth inner).bind fun (v, rest) =>
        match skipTrivia? false rest with
        | some (',' :: more) =>
          (items? fuel depth more).map fun (vs, after) => (v :: vs, after)
        | some (']' :: after) => some ([v], after)
        | _ => none

/-- Reads the entries of an inline table, at least one, up to its closing brace. -/
def entries? : (fuel depth : Nat) → List Char → Option (List (Path × Toml) × List Char)
  | 0, _, _ => none
  | fuel + 1, depth, cs =>
    (key? cs).bind fun (path, rest) =>
      match skipBlanks rest with
      | '=' :: more =>
        (value? fuel depth (skipBlanks more)).bind fun (v, rest) =>
          match skipBlanks rest with
          | ',' :: more =>
            (entries? fuel depth (skipBlanks more)).map fun (es, after) =>
              ((path, v) :: es, after)
          | '\x7d' :: after => some ([(path, v)], after)
          | _ => none
      | _ => none

end

def keyValue? (cs : List Char) : Option (Statement × List Char) :=
  (key? cs).bind fun (path, rest) =>
    match skipBlanks rest with
    | '=' :: more =>
      (value? (2 * more.length + 1) 0 (skipBlanks more)).map fun (v, after) =>
        (.entry path v, after)
    | _ => none

/-- Reads the path of a header after its opening brackets, and splits off its last name. -/
def headerPath? (cs : List Char) : Option (Path × String × List Char) :=
  (key? (skipBlanks cs)).bind fun (path, rest) =>
    path.getLast?.map fun name => (path.dropLast, name, skipBlanks rest)

/-- Reads a header or an entry, and gives what follows. -/
def statement? : List Char → Option (Statement × List Char)
  | '[' :: '[' :: rest =>
    match headerPath? rest with
    | some (parent, name, ']' :: ']' :: after) => some (.element parent name, after)
    | _ => none
  | '[' :: rest =>
    match headerPath? rest with
    | some (parent, name, ']' :: after) => some (.header parent name, after)
    | _ => none
  | cs => keyValue? cs

/-- Reads headers and entries, of which each must end its line. -/
def statements? : (fuel : Nat) → List Char → Option (List Statement)
  | 0, _ => none
  | fuel + 1, cs =>
    match skipTrivia? false cs with
    | none => none
    | some [] => some []
    | some inner =>
      (statement? inner).bind fun (s, rest) =>
        if endsLine rest then (statements? fuel rest).map (s :: ·) else none

/-- A mark at the beginning of a text that tells how it is encoded. -/
def byteOrderMark : Char := '\ufeff'

def ofChars? (cs : List Char) : Option Entries :=
  let cs := if cs.head? = some byteOrderMark then cs.drop 1 else cs
  ((statements? (cs.length + 1) cs).bind (·.foldlM Document.add Document.empty)).map
    Document.entries

def ofText? (s : String) : Option Entries := ofChars? s.toList

end WordTiles.Toml
