import WordTiles.Game
import WordTiles.Json.Printer
import WordTiles.Json.Reader
import WordTiles.Json.Record
import WordTiles.Toml.Reader

/-!
# Settings in JSON and TOML

Every setting may be missing and then has its default, and settings of other names are passed
over. In JSON the limit on push chains may be `null`, which means that there is none. The
names are the same in both formats.
-/

set_option autoImplicit false

namespace WordTiles.Config

def limitName : String := "max_push_depth"

def hazardsName : String := "resolve_hazards"

def eventsName : String := "record_events"

def toJson (c : Config) : Json :=
  .object [(limitName, .ofOption .ofNat c.pushLimit), (hazardsName, .bool c.hazards),
    (eventsName, .bool c.recordEvents)]

def ofJson? (j : Json) : Option Config :=
  match j.fields? [limitName, hazardsName, eventsName] with
  | some [limit, hazards, recordEvents] => do
    return ⟨← Json.optional? Json.count? limit,
      ← Json.orElse? Config.default.hazards Json.bool? hazards,
      ← Json.orElse? Config.default.recordEvents Json.bool? recordEvents⟩
  | _ => none

def ofJsonText? (s : String) : Option Config := (Json.ofText? s).bind ofJson?

def limitOfToml? (es : Toml.Entries) : Option (Option Nat) :=
  match es.lookup limitName with
  | none => some none
  | some (.integer (.ofNat n)) => some (some n)
  | some _ => none

def boolOfToml? (default : Bool) (name : String) (es : Toml.Entries) : Option Bool :=
  match es.lookup name with
  | none => some default
  | some (.boolean b) => some b
  | some _ => none

def ofToml? (s : String) : Option Config := do
  let es ← Toml.ofText? s
  return ⟨← limitOfToml? es, ← boolOfToml? Config.default.hazards hazardsName es,
    ← boolOfToml? Config.default.recordEvents eventsName es⟩

end WordTiles.Config
