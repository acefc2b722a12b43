import ContractQuery.Location
import ContractQuery.Walk

/-!
# Functions at Locations

The functions that some location touches, as `Contract.function`. Both the function and the
contract around it have to have a span that meets a location, not necessarily the same one.
Functions inside functions are not looked at, and a function outside of every contract is an
error.

A contract that is left takes the scope with it, so after a contract that stands inside
another one no contract is open until the next is entered.
-/

namespace ContractQuery

/-- Why functions cannot be attributed to contracts. -/
inductive CoverageError where
  | outsideContract (function : String)
  deriving DecidableEq, Repr

/-- The text of a coverage error. -/
def CoverageError.message : CoverageError → String
  | outsideContract function =>
    "function definition `" ++ function ++ "` found outside of any contract"

/-- What is known while functions are looked up: the open contract, the functions found, and
a function found outside of every contract. -/
structure Coverage where
  contract : Option String
  found : List String
  stray : Option String
  deriving DecidableEq, Repr

namespace Coverage

/-- The name of a node, or the word that stands for a missing name. -/
def label (n : Node) : String := n.name?.getD "null"

/-- Whether a node has a span that meets one of the ranges. -/
def inScope (ranges : List Span) (n : Node) : Bool :=
  match n.span with
  | some span => ranges.any (·.intersects span)
  | none => false

/-- Looks up the functions that the ranges touch. -/
def visitor (ranges : List Span) : Visitor Coverage where
  enter s node _ :=
    match node.kind with
    | .contractDefinition =>
      if inScope ranges node then ({ s with contract := some (label node) }, .descend)
      else (s, .skip)
    | .functionDefinition =>
      match s.contract with
      | none => ({ s with stray := some (label node) }, .stop)
      | some contract =>
        if inScope ranges node then
          ({ s with found := s.found ++ [contract ++ "." ++ label node] }, .skip)
        else (s, .skip)
    | _ => (s, .descend)
  exit s node _ :=
    if node.kind = .contractDefinition then { s with contract := none } else s

end Coverage

/-- The functions that some location touches, in pre-order. -/
def Node.functionsAt (root : Node) (locations : List Location) :
    Except CoverageError (List String) :=
  let s := (root.walk (Coverage.visitor (locations.map Location.toSpan)) ⟨none, [], none⟩).1
  match s.stray with
  | some function => .error (.outsideContract function)
  | none => .ok s.found

end ContractQuery
