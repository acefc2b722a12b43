import ContractQuery.Tree.Basic

/-!
# Equality of Trees

Two trees are equal when they agree in everything but spans and the order of names: nodes
have the same kind and equal fields, lists are equal item by item, and records are equal
when they have as many entries and each entry of the first is found, with an equal value,
in the second. Numbers are compared as values.
-/

namespace ContractQuery

/-- Equality of leaves. -/
def Scalar.same : Scalar → Scalar → Bool
  | null, null => true
  | bool a, bool b => a == b
  | number m, number n => m.same n
  | text s, text t => s == t
  | _, _ => false

namespace Value

mutual

/-- Equality of values. -/
def same : Value → Value → Bool
  | node kind _ fields, node kind' _ fields' =>
    kind == kind' && fields.length == fields'.length && sameFields fields fields'
  | list items, list items' => sameItems items items'
  | map entries, map entries' =>
    entries.length == entries'.length && sameFields entries entries'
  | scalar s, scalar s' => s.same s'
  | _, _ => false

/-- Equality of lists. -/
def sameItems : List Value → List Value → Bool
  | [], [] => true
  | v :: rest, v' :: rest' => v.same v' && sameItems rest rest'
  | _, _ => false

/-- Whether each entry of the first record is found in the second. -/
def sameFields : List (String × Value) → List (String × Value) → Bool
  | [], _ => true
  | (name, v) :: rest, others =>
    (match Record.get? others name with
      | some v' => v.same v'
      | none => false) && sameFields rest others

end

instance : BEq Value := ⟨same⟩

end Value

namespace Node

/-- Equality of nodes: kind and fields. -/
def same (a b : Node) : Bool :=
  a.kind == b.kind && a.fields.length == b.fields.length && Value.sameFields a.fields b.fields

instance : BEq Node := ⟨same⟩

/-- Trees are equal if their values are. -/
theorem same_toValue (a b : Node) : a.toValue.same b.toValue = a.same b := by
  simp [toValue, Value.same, same]

end Node

end ContractQuery
