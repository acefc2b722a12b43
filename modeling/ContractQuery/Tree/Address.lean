import ContractQuery.Path
import ContractQuery.Tree.Basic

/-!
# Addressing Values

A path addresses a value through the fields of nodes and the positions of lists
(`Value.get?`); `Node.at?` asks for a node there. `Node.removeAt` takes the addressed value
out of the tree. It fails exactly when the path does not lead anywhere, and its error shows
the first bad part of the path: one that is missing, or one that has to be gone through and
is a map or a scalar.
-/

namespace ContractQuery

/-- Why nothing can be removed at a path. -/
inductive RemovalError where
  | root
  | missing (path : Path)
  | notContainer (path : Path) (found : Shape)
  deriving DecidableEq, Repr

/-- The text of a removal error. -/
def RemovalError.message : RemovalError → String
  | root => "the walk root cannot be removed from itself"
  | missing path => "path `" ++ path.text ++ "` does not resolve to a container"
  | notContainer path found =>
    "path `" ++ path.text ++ "` addresses a " ++ found.text ++ ", expected a node or list"

namespace Value

/-- The value one step below: a field of a node, or an item of a list. -/
def child? : Value → Segment → Option Value
  | node _ _ fields, .field name => Record.get? fields name
  | list items, .index i => items[i]?
  | _, _ => none

/-- The value that a path addresses. -/
def get? (v : Value) : Path → Option Value
  | [] => some v
  | s :: rest => (v.child? s).bind (·.get? rest)

/-- Puts a value in the place of an existing one, one step below. -/
def setChild : Value → Segment → Value → Value
  | node kind span fields, .field name, v => node kind span (Record.insert fields name v)
  | list items, .index i, v => list (items.set i v)
  | old, _, _ => old

/-- Takes out the value one step below; later items of a list move up. -/
def eraseChild : Value → Segment → Value
  | node kind span fields, .field name => node kind span (Record.erase fields name)
  | list items, .index i => list (items.eraseIdx i)
  | old, _ => old

/-- Removes what `segment :: rest` addresses below a value that itself lies at `walked`.
Returns the removed value and what is left. -/
def removeBelow (walked : Path) (v : Value) (segment : Segment) :
    Path → Except RemovalError (Value × Value)
  | [] =>
    match v.child? segment with
    | none => .error (.missing (walked ++ [segment]))
    | some removed => .ok (removed, v.eraseChild segment)
  | next :: rest =>
    match v.child? segment with
    | none => .error (.missing (walked ++ [segment]))
    | some (map _) => .error (.notContainer (walked ++ [segment]) .map)
    | some (scalar _) => .error (.notContainer (walked ++ [segment]) .scalar)
    | some child => do
      let (removed, left) ← child.removeBelow (walked ++ [segment]) next rest
      return (removed, v.setChild segment left)

end Value

namespace Node

/-- The value that a path addresses below a node. -/
def get? (n : Node) (path : Path) : Option Value := n.toValue.get? path

/-- The node that a path addresses. -/
def at? (n : Node) (path : Path) : Option Node := (n.get? path).bind Value.node?

/-- Removes what a path addresses. Returns the removed value and the tree without it. -/
def removeAt (n : Node) : Path → Except RemovalError (Value × Node)
  | [] => .error .root
  | segment :: rest => do
    let (removed, left) ← n.toValue.removeBelow [] segment rest
    return (removed, left.node?.getD n)

end Node

end ContractQuery
