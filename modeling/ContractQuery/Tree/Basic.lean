import ContractQuery.Json.Basic
import ContractQuery.Kind
import ContractQuery.Span

/-!
# Syntax Trees

A tree is made of values. A node has a kind, a span if locations are tracked, and fields in
insertion order; a list holds values by position; a map is a plain object that is no node;
a scalar is a leaf. `Node` is the view of a value that is a node.

The order of fields matters to whoever goes through the tree. Maps belong to the tree, but
queries do not look into them.
-/

namespace ContractQuery

/-- A leaf. -/
inductive Scalar where
  | null
  | bool (b : Bool)
  | number (n : Number)
  | text (s : String)
  deriving DecidableEq, Repr, Inhabited

/-- A value of a tree. -/
inductive Value where
  | node (kind : Kind) (span : Option Span) (fields : List (String × Value))
  | list (items : List Value)
  | map (entries : List (String × Value))
  | scalar (s : Scalar)
  deriving Repr, Inhabited

/-- A node: its kind, its span if one is known, and its fields. -/
structure Node where
  kind : Kind
  span : Option Span
  fields : Record Value
  deriving Repr, Inhabited

/-- What a value is made of. -/
inductive Shape where
  | node
  | list
  | map
  | scalar
  deriving DecidableEq, Repr

/-- A shape as messages name it. -/
def Shape.text : Shape → String
  | node => "node"
  | list => "list"
  | map => "map"
  | scalar => "scalar"

namespace Value

/-- A leaf that holds text. -/
def text (s : String) : Value := scalar (.text s)

/-- The leaf that holds nothing. -/
def null : Value := scalar .null

/-- The value as a node. -/
def node? : Value → Option Node
  | node kind span fields => some ⟨kind, span, fields⟩
  | _ => none

/-- The items of a list. -/
def items? : Value → Option (List Value)
  | list items => some items
  | _ => none

/-- The text of a leaf that holds text. -/
def text? : Value → Option String
  | scalar (.text s) => some s
  | _ => none

/-- What a value is made of. -/
def shape : Value → Shape
  | node .. => .node
  | list _ => .list
  | map _ => .map
  | scalar _ => .scalar

mutual

/-- The value without any span. -/
def stripSpans : Value → Value
  | node kind _ fields => node kind none (stripFields fields)
  | list items => list (stripItems items)
  | map entries => map (stripFields entries)
  | scalar s => scalar s

/-- The items of a list without any span. -/
def stripItems : List Value → List Value
  | [] => []
  | v :: rest => v.stripSpans :: stripItems rest

/-- Named values without any span. -/
def stripFields : List (String × Value) → List (String × Value)
  | [] => []
  | (name, v) :: rest => (name, v.stripSpans) :: stripFields rest

end

end Value

namespace Node

/-- A node without span and fields. -/
def ofKind (kind : Kind) : Node := ⟨kind, none, []⟩

/-- The node as a value. -/
def toValue (n : Node) : Value := .node n.kind n.span n.fields

instance : Coe Node Value := ⟨toValue⟩

/-- The node with a field set. -/
def withField (n : Node) (name : String) (v : Value) : Node :=
  { n with fields := Record.insert n.fields name v }

/-- The node without a field. -/
def withoutField (n : Node) (name : String) : Node :=
  { n with fields := Record.erase n.fields name }

/-- The node with a span. -/
def withSpan (n : Node) (s : Span) : Node := { n with span := some s }

/-- The value of a field. -/
def field? (n : Node) (name : String) : Option Value := Record.get? n.fields name

/-- The `name` field, if it holds text. -/
def name? (n : Node) : Option String := (n.field? "name").bind Value.text?

/-- The node without any span in it. -/
def stripSpans (n : Node) : Node := ⟨n.kind, none, Value.stripFields n.fields⟩

@[simp] theorem node?_toValue (n : Node) : n.toValue.node? = some n := rfl

/-- Spans are taken from a tree as from its value. -/
@[simp] theorem stripSpans_toValue (n : Node) : n.toValue.stripSpans = n.stripSpans.toValue := by
  simp [toValue, Value.stripSpans, stripSpans]

end Node

end ContractQuery
