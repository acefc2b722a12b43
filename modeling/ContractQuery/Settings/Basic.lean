import ContractQuery.Disk
import ContractQuery.Kind
import ContractQuery.Text.Space

/-!
# Settings

The settings say how sources are read and which kinds of node a comparison leaves out. Kinds
are given by name; a name that is blank, that has white space at its ends, or that is the
kind of the root is an issue, and settings with issues are not accepted.

The reason why a text is not TOML is told by the parser, and its wording is not modelled: in
messages `SettingsError.syntaxText` stands in its place, the same for all texts.
-/

namespace ContractQuery

/-- The format of sources, and the names of the kinds that are pruned. -/
structure Settings where
  format : Format
  kinds : List String
  deriving DecidableEq, Repr

/-- What is wrong with the names of kinds. -/
inductive Settings.Issue where
  | emptyKind (index : Nat)
  | paddedKind (kind : String)
  | rootKind
  deriving DecidableEq, Repr

/-- Why there are no settings. -/
inductive SettingsError where
  | unreadable (path : String) (cause : ReadError)
  | notToml (path : Option String)
  | invalid (path : Option String) (issues : List Settings.Issue)
  deriving DecidableEq, Repr

/-- The text of an issue. -/
def Settings.Issue.message : Settings.Issue → String
  | emptyKind index => "prune.kinds[" ++ toString index ++ "] is empty"
  | paddedKind kind => "prune kind '" ++ kind ++ "' has surrounding whitespace"
  | rootKind => "prune kind 'SourceUnit' would remove the whole tree"

namespace SettingsError

/-- What stands in messages for the reason why a text is not TOML. -/
def syntaxText : String := "<toml error>"

/-- What caused the error. -/
def cause : SettingsError → String
  | unreadable _ cause => cause.message
  | notToml _ => syntaxText
  | invalid _ issues => String.intercalate "\n" (issues.map Settings.Issue.message)

/-- What failed. -/
def subject : SettingsError → String
  | unreadable path _ => "failed to read config from " ++ path
  | notToml path => "failed to parse config TOML" ++ shown path
  | invalid path _ => "invalid config" ++ shown path
where
  /-- A path in brackets. -/
  shown : Option String → String
    | some path => " (" ++ path ++ ")"
    | none => ""

/-- The text of a settings error. -/
def message (e : SettingsError) : String := e.subject ++ ": " ++ e.cause

/-- The error and what caused it, outermost first. -/
def chain (e : SettingsError) : List String := [e.message, e.cause]

end SettingsError

namespace Settings

/-- The settings of those who give none: comments are pruned. -/
def default : Settings := ⟨.auto, Kind.comments.map Kind.name⟩

instance : Inhabited Settings := ⟨default⟩

/-- The issue with a name at a position, if any. -/
def kindIssue? (kind : String) (index : Nat) : Option Issue :=
  let trimmed := Text.trim kind
  if trimmed = "" then some (.emptyKind index)
  else if trimmed ≠ kind then some (.paddedKind kind)
  else none

/-- All issues: those of single names in order, then that of the root kind. -/
def issues (s : Settings) : List Issue :=
  (s.kinds.zipIdx.filterMap fun (kind, i) => kindIssue? kind i)
    ++ (if "SourceUnit" ∈ s.kinds then [.rootKind] else [])

/-- Accepts settings without issues. The path is where they come from. -/
def validate (s : Settings) (path : Option String) : Except SettingsError Settings :=
  match s.issues with
  | [] => .ok s
  | found => .error (.invalid path found)

/-- The kinds that are pruned. -/
def prunedKinds (s : Settings) : List Kind := s.kinds.map Kind.ofName

end Settings

end ContractQuery
