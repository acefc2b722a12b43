import ContractQuery.Tree.Address
import ContractQuery.Walk

/-!
# Pruning

Pruning removes every node of certain kinds from a tree. One walk collects the paths of the
topmost such nodes; the paths are then removed one by one in descending order, so that no
removal moves a node whose path is still to come.

Removal works on the tree that the caller holds. `Node.removeAll` and `Node.pruneInPlace`
therefore return the tree that is left also when they fail, and what was removed before the
failure stays removed. `Node.prune` keeps that tree only on success.
-/

namespace ContractQuery.Node

/-- Notes the path of each node of some kinds and does not look below it. -/
def collector (kinds : List Kind) : Visitor (List Path) :=
  .entering fun paths node path =>
    if node.kind ∈ kinds then (paths ++ [path], .skip) else (paths, .descend)

/-- The paths of the topmost nodes of some kinds, in pre-order. -/
def collectPaths (root : Node) (kinds : List Kind) : List Path :=
  (root.walk (collector kinds) []).1

/-- Removes several paths, one after the other, up to the first that cannot be removed.
Returns whether all were removed, and the tree that is left. -/
def removeAll (root : Node) : List Path → Except RemovalError Unit × Node
  | [] => (.ok (), root)
  | path :: rest =>
    match root.removeAt path with
    | .ok (_, left) => left.removeAll rest
    | .error cause => (.error cause, root)

/-- Removes the nodes of some kinds. Returns how many were removed, those inside others not
counted, and the tree that is left. -/
def pruneInPlace (root : Node) (kinds : List Kind) : Except RemovalError Nat × Node :=
  let paths := root.collectPaths kinds
  if [] ∈ paths then (.error .root, root)
  else
    match root.removeAll (Path.descending paths) with
    | (.ok _, left) => (.ok paths.length, left)
    | (.error cause, left) => (.error cause, left)

/-- Removes the nodes of some kinds. Returns how many were removed, those inside others not
counted, and the tree without them. -/
def prune (root : Node) (kinds : List Kind) : Except RemovalError (Nat × Node) :=
  match root.pruneInPlace kinds with
  | (.ok count, left) => .ok (count, left)
  | (.error cause, _) => .error cause

end ContractQuery.Node
