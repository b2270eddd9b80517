/-!
# TOML values and documents

The values of TOML 1.0, and how a document builds its tables. A table can be built in several
places, but it can be defined once only; what may still be added to it depends on how it came
about, which `Origin` records.
-/

set_option autoImplicit false

namespace WordTiles.Toml

/-- How a table came about. -/
inductive Origin where
  /-- By braces. Nothing can be added. -/
  | inline
  /-- By its own header. Headers can add tables below it. -/
  | header
  /-- By the header of a table below it. It can still get a header of its own. -/
  | implied
  /-- By a key with dots. Further keys with dots can add to it. -/
  | dotted
  deriving DecidableEq

end Toml

/-- A TOML value. Floats, dates and times are kept as they are written. -/
inductive Toml where
  | string (text : String)
  | integer (value : Int)
  | float (literal : String)
  | boolean (value : Bool)
  | dateTime (literal : String)
  | array (items : List Toml)
  | table (origin : Toml.Origin) (entries : List (String × Toml))
  /-- Tables that share one header in double brackets, in the order of the headers. -/
  | tables (elements : List (List (String × Toml)))

namespace Toml

abbrev Entries := List (String × Toml)

/-- The path of a key: the names between the dots. -/
abbrev Path := List String

namespace Entries

/-- Puts a value in the place of the entry with a name, or at the end if there is none. -/
def put (name : String) (v : Toml) : Entries → Entries
  | [] => [(name, v)]
  | (n, w) :: rest => if n == name then (n, v) :: rest else (n, w) :: put name v rest

/-- Adds a value under a path of which all names but the last lead through tables made by
keys with dots. The table that gets the value must be one of these, so a table with a header
of its own is not added to from elsewhere. -/
def insert (v : Toml) : Path → Entries → Option Entries
  | [], _ => none
  | [name], es => if (es.lookup name).isSome then none else some (es ++ [(name, v)])
  | name :: inner :: path, es =>
    match es.lookup name with
    | none => (insert v (inner :: path) []).map fun sub => es ++ [(name, .table .dotted sub)]
    | some (.table .dotted sub) =>
      (insert v (inner :: path) sub).map fun sub => put name (.table .dotted sub) es
    | some (.table .implied sub) =>
      if path.isEmpty then none
      else (insert v (inner :: path) sub).map fun sub => put name (.table .implied sub) es
    | some (.tables elements) =>
      if path.isEmpty then none
      else
        elements.getLast?.bind fun sub =>
          (insert v (inner :: path) sub).map fun sub =>
            put name (.tables (elements.dropLast ++ [sub])) es
    | some _ => none

/-- Changes the table that a header names, given as a path from the top. Tables on the way
that are not there yet are implied, and of tables with a header in double brackets the last
one is meant. -/
def atHeader (change : Entries → Option Entries) : Path → Entries → Option Entries
  | [], es => change es
  | name :: path, es =>
    match es.lookup name with
    | none => (atHeader change path []).map fun sub => es ++ [(name, .table .implied sub)]
    | some (.table .inline _) => none
    | some (.table origin sub) =>
      (atHeader change path sub).map fun sub => put name (.table origin sub) es
    | some (.tables elements) =>
      elements.getLast?.bind fun sub =>
        (atHeader change path sub).map fun sub =>
          put name (.tables (elements.dropLast ++ [sub])) es
    | some _ => none

def define (name : String) (es : Entries) : Option Entries :=
  match es.lookup name with
  | none => some (es ++ [(name, .table .header [])])
  | some (.table .implied sub) => some (put name (.table .header sub) es)
  | some _ => none

/-- Adds the table of a header in double brackets below its parent. -/
def append (name : String) (es : Entries) : Option Entries :=
  match es.lookup name with
  | none => some (es ++ [(name, .tables [[]])])
  | some (.tables elements) => some (put name (.tables (elements ++ [[]])) es)
  | some _ => none

end Entries

/-- A line of a document that is not blank. -/
inductive Statement where
  /-- The header of a table. -/
  | header (parent : Path) (name : String)
  /-- The header, in double brackets, of one more of several tables. -/
  | element (parent : Path) (name : String)
  /-- A value for a key of the table of the last header. -/
  | entry (path : Path) (value : Toml)

/-- A document so far: the table of the last header, and all entries. -/
structure Document where
  current : Path
  entries : Entries

namespace Document

def empty : Document := ⟨[], []⟩

def add (doc : Document) : Statement → Option Document
  | .header parent name =>
    (Entries.atHeader (Entries.define name) parent doc.entries).map
      (⟨parent ++ [name], ·⟩)
  | .element parent name =>
    (Entries.atHeader (Entries.append name) parent doc.entries).map
      (⟨parent ++ [name], ·⟩)
  | .entry path v =>
    (Entries.atHeader (Entries.insert v path) doc.current doc.entries).map
      (⟨doc.current, ·⟩)

end Document

end WordTiles.Toml
