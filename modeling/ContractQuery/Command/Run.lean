import ContractQuery.Command.Arguments
import ContractQuery.Compare
import ContractQuery.Query.Coverage
import ContractQuery.Query.Functions
import ContractQuery.Settings.OfToml
import ContractQuery.Source

/-!
# Running a Command

A command reads its settings and sources from a disk and answers with one line: the functions
of a contract, the functions at some locations, or whether two sources agree. A failure is
reported with everything that led to it, outermost first.
-/

namespace ContractQuery.Command

/-- What a command finds around it: the files, how the working directory is shown, and the
settings file that the environment names. -/
structure Surroundings where
  disk : Disk
  directory : String
  settingsPath : Option String

/-- Why a command fails. -/
inductive Failure where
  | settings (cause : SettingsError)
  | locations (cause : LocationError)
  | source (path : String) (cause : SourceError)
  | coverage (path : String) (cause : CoverageError)
  | compare (cause : CompareError)
  deriving Repr

/-- The failure and what caused it, outermost first. -/
def Failure.chain : Failure → List String
  | settings cause => cause.chain
  | locations cause => ["Invalid locations argument", cause.message]
  | source path cause => ("Failed to parse " ++ path) :: cause.chain
  | coverage path cause => ["Malformed syntax tree for " ++ path, cause.message]
  | compare cause => [cause.message]

/-- The report of a failure. -/
def Failure.report (f : Failure) : String := "error: " ++ String.intercalate ": " f.chain

/-- What a program leaves behind: its exit code and what it printed. -/
structure Result where
  code : Nat
  output : String
  errors : String
  deriving DecidableEq, Repr

/-- The version line. -/
def versionText : String := "solq 0.1.2"

/-- The help text. -/
def helpText : String := String.intercalate "\n" [
  "Structural queries over Solidity syntax trees",
  "",
  "Usage: solq [OPTIONS] <COMMAND>",
  "",
  "Commands:",
  "  functions  Print the functions defined in a contract as a JSON array",
  "  covered    Print the `Contract.function` names covered by source locations",
  "  compare    Print whether two sources are identical once comments and formatting are ignored",
  "  help       Print this message or the help of the given subcommand(s)",
  "",
  "Options:",
  "  -c, --config <CONFIG>  Config file (defaults to $SOLQ_CONFIG, then ./solq.toml)",
  "  -f, --format <FORMAT>  Input format, overriding the config file [possible values: auto, " ++
    "solidity, json]",
  "  -v, --verbose          Log debug output to stderr",
  "  -h, --help             Print help",
  "  -V, --version          Print version"]

/-- Reads the tree of a source. -/
def loadTree (w : Surroundings) (path : String) (format : Format) (spans : Bool) :
    Except Failure Node :=
  (Node.ofDisk w.disk path format spans).mapError (.source path)

/-- A JSON array of names, where a missing name is null. -/
def namesText (names : List (Option String)) : String :=
  (Json.array (names.map fun n => n.elim .null .text)).render

/-- Does a task and returns the answer. -/
def Task.answer (w : Surroundings) (settings : Settings) (format : Format) :
    Task → Except Failure String
  | functions source contract => do
    let tree ← loadTree w source format false
    return namesText (tree.listFunctions contract)
  | covered source locations => do
    let locations ← (Location.parseAll locations).mapError .locations
    let tree ← loadTree w source format true
    let names ← (tree.functionsAt locations).mapError (.coverage source)
    return namesText (names.map some)
  | compare first second contract => do
    let a ← loadTree w first format false
    let b ← loadTree w second format false
    let equal ← (a.compareWithout b contract settings.prunedKinds).mapError .compare
    return toString equal

/-- Does what a command line asks for. The format it gives wins over that of the settings. -/
def Invocation.answer (w : Surroundings) (i : Invocation) : Except Failure String := do
  let settings ← (Settings.discover w.disk w.directory w.settingsPath i.options.config).mapError
    .settings
  i.task.answer w settings (i.options.format.getD settings.format)

/-- Runs the program with its arguments. -/
def run (w : Surroundings) (args : List String) : Result :=
  match Invocation.parse args with
  | .error .usage => ⟨2, "", helpText ++ "\n"⟩
  | .error .help => ⟨0, helpText ++ "\n", ""⟩
  | .error .version => ⟨0, versionText ++ "\n", ""⟩
  | .ok i =>
    match i.answer w with
    | .ok answer => ⟨0, answer ++ "\n", ""⟩
    | .error f => ⟨1, "", f.report ++ "\n"⟩

end ContractQuery.Command
