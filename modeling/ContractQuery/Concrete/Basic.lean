import ContractQuery.Position
import ContractQuery.Span

/-!
# Concrete Trees

A concrete tree is what a grammar makes of a source: every token has a node, and every node
says where it lies, which role it has below its parent, and whether the source had to be
mended there. Concrete trees come as rows in pre-order, each with the number of its children;
`Concrete.ofRows?` puts them together.
-/

namespace ContractQuery

namespace Concrete

/-- What a node says about itself. -/
structure Info where
  /-- The name under which the parent knows the node. -/
  field : Option String
  /-- The rule of the grammar, or the token. -/
  kind : String
  /-- Whether the kind is a rule and not a bare token. -/
  named : Bool
  /-- Whether the node covers text that fits no rule. -/
  isError : Bool
  /-- Whether the node stands for a token that the source lacks. -/
  isMissing : Bool
  /-- Whether the node or something below it is an error or missing. -/
  hasError : Bool
  startByte : Nat
  endByte : Nat
  start : Position
  stop : Position
  deriving DecidableEq, Repr, Inhabited

/-- A node in pre-order, with the number of its children. -/
structure Row where
  info : Info
  childCount : Nat
  deriving DecidableEq, Repr, Inhabited

end Concrete

/-- A concrete tree. -/
inductive Concrete where
  | mk (info : Concrete.Info) (children : List Concrete)
  deriving Repr, Inhabited

namespace Concrete

/-- What the root says about itself. -/
def info : Concrete → Info
  | mk info _ => info

/-- The trees below the root. -/
def children : Concrete → List Concrete
  | mk _ children => children

/-- Whether nothing is below the root. -/
def isLeaf (c : Concrete) : Bool := c.children.isEmpty

/-- Puts a row above the first trees of a sequence, as many as it has children. -/
def Row.above? (row : Row) (trees : List Concrete) : Option (List Concrete) :=
  if row.childCount ≤ trees.length then
    some (Concrete.mk row.info (trees.take row.childCount) :: trees.drop row.childCount)
  else none

/-- The tree of rows in pre-order. Read from the last row on, each row finds its children
complete and in front. -/
def ofRows? (rows : List Row) : Option Concrete :=
  match rows.foldr (fun row trees => trees.bind row.above?) (some []) with
  | some [c] => some c
  | _ => none

/-- The part of a source that a node covers. -/
def Info.textIn (source : String) (i : Info) : String :=
  (String.fromUTF8? (source.toUTF8.extract i.startByte i.endByte)).getD ""

end Concrete

end ContractQuery
