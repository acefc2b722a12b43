import ContractQuery.Prune
import ContractQuery.Query.Contract
import ContractQuery.Tree.Equality

/-!
# Comparing Trees

Two trees are compared after nodes of certain kinds have been pruned from both. With a
target, only the first contract of that name in each tree is compared: one that only one of
the trees has makes them differ, and one that neither has is an error.
-/

namespace ContractQuery

/-- Why trees cannot be compared. -/
inductive CompareError where
  | contractMissing (name : String)
  | removal (cause : RemovalError)
  deriving DecidableEq, Repr

/-- The text of a comparison error. -/
def CompareError.message : CompareError → String
  | contractMissing name =>
    "target contract `" ++ name ++ "` doesn't exist in either source"
  | removal cause => cause.message

namespace Node

/-- What is compared of a tree: all of it, or the first contract of a name. -/
def subject (root : Node) : Option String → Option Node
  | none => some root
  | some name => root.findContract name

/-- The subject without the nodes of some kinds. -/
def prunedSubject (root : Node) (target : Option String) (kinds : List Kind) :
    Except CompareError (Option Node) :=
  match root.subject target with
  | none => .ok none
  | some node =>
    match node.prune kinds with
    | .ok (_, pruned) => .ok (some pruned)
    | .error cause => .error (.removal cause)

/-- Whether two trees are equal once the nodes of some kinds are gone. -/
def compareWithout (a b : Node) (target : Option String) (kinds : List Kind) :
    Except CompareError Bool := do
  let left ← a.prunedSubject target kinds
  let right ← b.prunedSubject target kinds
  match left, right with
  | some left, some right => return left == right
  | none, none => .error (.contractMissing (target.getD ""))
  | _, _ => return false

/-- Whether two trees are equal once comments are gone. -/
def equivalent (a b : Node) (target : Option String) : Except CompareError Bool :=
  a.compareWithout b target Kind.comments

end Node

end ContractQuery
