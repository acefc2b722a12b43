import ContractQuery.Settings.Basic
import ContractQuery.Toml.Reader

/-!
# Settings from TOML

Settings are a table with the tables `parse`, which has a `format`, and `prune`, which has
`kinds`. All of these may be missing and no other name may occur. The two inner tables may
also be arrays that give their entries in order; items in excess are not looked at. A format
is a name, or a table with the name as its only entry and an empty table or an empty array as
its value.
-/

namespace ContractQuery.Settings

/-- A format. -/
def formatOfToml? : Toml → Option Format
  | .text s => Format.ofName? s
  | .table [(name, .table [])] => Format.ofName? name
  | .table [(name, .array [])] => Format.ofName? name
  | _ => none

/-- A text. -/
def textOfToml? : Toml → Option String
  | .text s => some s
  | _ => none

/-- A list of texts. -/
def kindsOfToml? : Toml → Option (List String)
  | .array items => items.mapM textOfToml?
  | _ => none

/-- A table with at most one entry, whose name is given, or an array that starts with its
value. Without a value the result is `initial`. -/
def single? {α : Type} (name : String) (decode : Toml → Option α) (initial : α) :
    Toml → Option α
  | .table [] => some initial
  | .table [(n, v)] => if n = name then decode v else none
  | .array [] => some initial
  | .array (v :: _) => decode v
  | _ => none

/-- Takes up one entry of the outer table. -/
def add? (s : Settings) : String × Toml → Option Settings
  | ("parse", v) => return { s with format := ← single? "format" formatOfToml? s.format v }
  | ("prune", v) => return { s with kinds := ← single? "kinds" kindsOfToml? s.kinds v }
  | _ => none

/-- The settings that a table describes. -/
def ofTable? (entries : Record Toml) : Option Settings := entries.foldlM add? default

/-- Reads settings from a text. The path is where the text comes from. -/
def parse (text : String) (path : Option String) : Except SettingsError Settings :=
  match (Toml.parse? text).bind ofTable? with
  | some s => s.validate path
  | none => .error (.notToml path)

/-! ### Discovery -/

/-- The file that is looked for in the working directory. -/
def fileName : String := "solq.toml"

/-- The environment variable that names a settings file. -/
def variableName : String := "SOLQ_CONFIG"

/-- Reads the settings file at a path, which messages show as `shown`. -/
def load (disk : Disk) (path shown : String) : Except SettingsError Settings := do
  let (text, _) ← (disk.readText path).mapError (.unreadable shown)
  parse text (some shown)

/-- The settings file of a directory, as messages show it. -/
def pathIn (directory : String) : String :=
  if directory.endsWith "/" then directory ++ fileName else directory ++ "/" ++ fileName

/-- The settings that apply: those of the file that is asked for, else of the file that the
environment names, else of the file in the working directory, else the default ones. -/
def discover (disk : Disk) (directory : String) (environment explicit : Option String) :
    Except SettingsError Settings :=
  match explicit, environment with
  | some path, _ => load disk path path
  | none, some path => load disk path path
  | none, none =>
    if disk.isFile fileName then load disk fileName (pathIn directory)
    else .ok default

end ContractQuery.Settings
