import ContractQuery.Concrete.ToTree
import ContractQuery.Concrete.Unread
import ContractQuery.Disk
import ContractQuery.Tree.OfJson

/-!
# Sources

A source file becomes a tree by way of JSON or of its concrete tree, as its format says. A
text that comes without a concrete tree has the least one (`Concrete.unread`). Spans are
dropped unless they are asked for.
-/

namespace ContractQuery

/-- Why a source has no tree. -/
inductive SourceError where
  | unreadable (path : String) (cause : ReadError)
  | load (cause : LoadError)
  | rejected (cause : SyntaxError)
  deriving Repr

namespace SourceError

/-- The text of a source error. -/
def message : SourceError → String
  | unreadable path cause => "I/O error reading " ++ path ++ ": " ++ cause.message
  | load cause => cause.message
  | rejected cause => cause.message

/-- The error and what caused it, outermost first. -/
def chain : SourceError → List String
  | unreadable path cause => [message (unreadable path cause), cause.message]
  | load (.notJson cause) => [(LoadError.notJson cause).message, cause.message]
  | e => [e.message]

end SourceError

namespace Node

/-- The tree of a text in some dialect. -/
def ofSource (text : String) (concrete : Option Concrete) (d : Dialect) :
    Except SourceError Node :=
  match d with
  | .json => (parse text).mapError .load
  | .solidity => ((concrete.getD (.unread text)).toTree text).mapError .rejected

/-- The tree with its spans, or without them. -/
def keepingSpans (n : Node) (spans : Bool) : Node := if spans then n else n.stripSpans

/-- Reads the tree of a file. -/
def ofDisk (disk : Disk) (path : String) (format : Format) (spans : Bool) :
    Except SourceError Node := do
  let (text, concrete) ← (disk.readText path).mapError (.unreadable path)
  let tree ← ofSource text concrete (format.resolve (some path))
  return tree.keepingSpans spans

end Node

end ContractQuery
