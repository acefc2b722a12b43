import ContractQuery.Walk

/-!
# Finding a Contract

The first contract of a name, in pre-order, wherever it stands in the tree.
-/

namespace ContractQuery.Node

/-- Whether a node is a contract called `name`. -/
def isContract (n : Node) (name : String) : Bool :=
  n.kind == .contractDefinition && n.name? == some name

/-- Stops at the first contract called `name`. -/
def finder (name : String) : Visitor (Option Node) :=
  .entering fun found node _ =>
    if node.isContract name then (some node, .stop) else (found, .descend)

/-- The first contract called `name`. -/
def findContract (root : Node) (name : String) : Option Node :=
  (root.walk (finder name) none).1

end ContractQuery.Node
