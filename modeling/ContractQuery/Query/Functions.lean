import ContractQuery.Walk

/-!
# Functions of a Contract

The functions that stand in contracts of one name and in no other contract. Functions inside
functions are not listed. The walk counts the contracts around it and does not go into a
contract of another name.
-/

namespace ContractQuery

/-- What is known while functions are listed: how many contracts are open, and the functions
so far. -/
structure Listing where
  depth : Nat
  names : List (Option String)
  deriving DecidableEq, Repr

namespace Listing

/-- Lists the functions in contracts called `contract`. -/
def visitor (contract : String) : Visitor Listing where
  enter s node _ :=
    match node.kind with
    | .contractDefinition =>
      if node.name? = some contract then (⟨s.depth + 1, s.names⟩, .descend) else (s, .skip)
    | .functionDefinition =>
      if 0 < s.depth then (⟨s.depth, s.names ++ [node.name?]⟩, .skip) else (s, .skip)
    | _ => (s, .descend)
  exit s node _ :=
    if node.kind = .contractDefinition then ⟨s.depth - 1, s.names⟩ else s

end Listing

/-- The names of the functions of a contract, in pre-order; a function without a name, such as
a constructor, counts as well. -/
def Node.listFunctions (root : Node) (contract : String) : List (Option String) :=
  (root.walk (Listing.visitor contract) ⟨0, []⟩).1.names

end ContractQuery
