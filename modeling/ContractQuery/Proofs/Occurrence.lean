import ContractQuery.Walk

/-!
# The Nodes of a Tree in Pre-Order

`Node.occurrences` lists the nodes of a tree that a walk can reach, in pre-order and each
with its place: its path, and the nodes above it, nearest first. Maps are not gone into. The
list says nothing about visitors, so it is what a walk is compared with.

For each node above, the place also tells which values directly inside it come earlier than
the way down (`Frame.earlier`). A walk has gone through these when it arrives, so they are
all that the state of a visitor can depend on.
-/

namespace ContractQuery

/-- A node above a place, and the values directly inside it that come earlier. -/
structure Frame where
  node : Node
  earlier : List Value

/-- A node of a tree with its place: its path and what is above it, nearest first. -/
structure Occurrence where
  path : Path
  above : List Frame
  node : Node

namespace Frame

/-- What is above the next value once `v` has been gone through. -/
def pass (v : Value) : List Frame → List Frame
  | [] => []
  | frame :: above => ⟨frame.node, frame.earlier ++ [v]⟩ :: above

/-- Going through a value does not change which nodes are above. -/
@[simp] theorem map_node_pass (v : Value) (above : List Frame) :
    (pass v above).map node = above.map node := by
  cases above <;> rfl

end Frame

/-- The nodes above a place, nearest first. -/
def Occurrence.ancestors (o : Occurrence) : List Node := o.above.map Frame.node

namespace Value

mutual

/-- The nodes of a value, in pre-order. -/
def occurrences : Value → Path → List Frame → List Occurrence
  | node kind span fields, path, above =>
    ⟨path, above, ⟨kind, span, fields⟩⟩ ::
      occurrencesFields fields path (⟨⟨kind, span, fields⟩, []⟩ :: above)
  | list items, path, above => occurrencesItems items path 0 above
  | map _, _, _ => []
  | scalar _, _, _ => []

/-- The nodes of the items of a list, the first of which has position `i`, in pre-order. -/
def occurrencesItems : List Value → Path → Nat → List Frame → List Occurrence
  | [], _, _, _ => []
  | v :: rest, path, i, above =>
    v.occurrences (path ++ [.index i]) above ++
      occurrencesItems rest path (i + 1) (Frame.pass v above)

/-- The nodes of the fields of a node, in pre-order. -/
def occurrencesFields : List (String × Value) → Path → List Frame → List Occurrence
  | [], _, _ => []
  | (name, v) :: rest, path, above =>
    v.occurrences (path ++ [.field name]) above ++
      occurrencesFields rest path (Frame.pass v above)

end

end Value

/-- The nodes of a tree that a walk can reach, in pre-order. -/
def Node.occurrences (root : Node) : List Occurrence := root.toValue.occurrences [] []

end ContractQuery
