/-!
# Input Formats

A source is read as Solidity or as a JSON tree. The format `auto` decides by the extension
of the file name: `json`, in any case of letters, is JSON, and all else is Solidity.

The name of a path is its last part, empty parts and single dots left out, unless that part
is `..`. Its extension is what follows its last dot, unless that dot is its first character.
-/

namespace ContractQuery

/-- How a source is to be read. -/
inductive Format where
  | auto
  | solidity
  | json
  deriving DecidableEq, Repr, Inhabited

/-- How a source is read. -/
inductive Dialect where
  | solidity
  | json
  deriving DecidableEq, Repr, Inhabited

namespace FileName

/-- The parts of a path between slashes. -/
def parts (path : String) : List String := path.splitOn "/"

/-- The last part of a path that is a name. -/
def name? (path : String) : Option String :=
  match ((parts path).filter fun p => p ≠ "" ∧ p ≠ ".").getLast? with
  | some ".." => none
  | found => found

/-- The extension of a name, given its characters from the last on: those before the first
dot, unless the dot is the last of them all. -/
def extensionOf? (backwards : List Char) : Option String :=
  match backwards.span (· ≠ '.') with
  | (_, []) => none
  | (_, [_]) => none
  | (extension, _) => some (String.ofList extension.reverse)

/-- The extension of a path. -/
def extension? (path : String) : Option String :=
  (name? path).bind fun name => extensionOf? name.toList.reverse

end FileName

namespace Format

/-- The name of a format. -/
def name : Format → String
  | auto => "auto"
  | solidity => "solidity"
  | json => "json"

/-- The format of a name. -/
def ofName? : String → Option Format
  | "auto" => some auto
  | "solidity" => some solidity
  | "json" => some json
  | _ => none

/-- How a source is read, given its path if it has one. -/
def resolve (f : Format) (path : Option String) : Dialect :=
  match f with
  | solidity => .solidity
  | json => .json
  | auto =>
    match path.bind FileName.extension? with
    | some extension =>
      if extension.toList.map Char.toLower = ['j', 's', 'o', 'n'] then .json else .solidity
    | none => .solidity

end Format

end ContractQuery
