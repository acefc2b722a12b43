import ContractQuery.Concrete.Faults
import ContractQuery.Tree.Basic

/-!
# Trees from Concrete Trees

A leaf becomes a node with its `text`. A node with children has a field for each field name
below it, which is a list when the name occurs more than once, and all other children under
`children`, where a bare token is its text and delimiters are left out. Contracts get a
`kind`, and functions without a name, such as constructors, a `name` that is null.

Lines count from one, columns from zero, and the end of a span is its last character.
-/

namespace ContractQuery

namespace Concrete

/-- Tokens that the shape of the tree makes superfluous. -/
def delimiters : List String := [";", ",", "(", ")", "\x7b", "\x7d", "[", "]"]

/-- Whether a text opens a block comment. -/
def opensBlock (text : String) : Bool := ['/', '*'].isPrefixOf text.toList

/-- The kind of the node for a concrete node. -/
def Info.treeKind (source : String) (i : Info) : Kind :=
  match i.kind with
  | "source_file" => .sourceUnit
  | "contract_declaration" | "interface_declaration" | "library_declaration" =>
    .contractDefinition
  | "function_definition" | "constructor_definition" | "fallback_receive_definition" =>
    .functionDefinition
  | "comment" => if opensBlock (i.textIn source) then .blockComment else .lineComment
  | kind => .other kind

/-- Whether a node covers any text. -/
def Info.isNonempty (i : Info) : Bool :=
  i.start.row < i.stop.row || (i.start.row == i.stop.row && i.start.column < i.stop.column)

/-- The span of the node for a concrete node. -/
def Info.span (i : Info) : Span :=
  let column := if i.isNonempty then i.stop.column - 1 else i.stop.column
  ⟨⟨i.start.row + 1, some i.start.column⟩, ⟨i.stop.row + 1, some column⟩⟩

/-- What a child adds to its parent. -/
inductive Part where
  | field (name : String) (v : Value)
  | child (v : Value)
  | nothing
  deriving Repr

/-- What a child adds, given the node it becomes. Leaves are kept as text where they are names
or bare tokens. -/
def part (source : String) (c : Concrete) (n : Node) : Part :=
  let text := Value.text (c.info.textIn source)
  match c.info.field with
  | some name =>
    if c.isLeaf && (name == "name" || !c.info.named) then .field name text else .field name n
  | none =>
    if c.info.named then .child n
    else if c.info.kind ∈ delimiters then .nothing
    else .child text

/-- Adds a value under a field name; values of one name form a list. -/
def addField (fields : Record Value) (name : String) (v : Value) : Record Value :=
  match Record.get? fields name with
  | none => Record.insert fields name v
  | some (.list items) => Record.insert fields name (.list (items ++ [v]))
  | some first => Record.insert fields name (.list [first, v])

/-- The fields that the parts make up, in order of their first occurrence. -/
def fieldsOf (parts : List Part) : Record Value :=
  parts.foldl (fun fields p =>
    match p with
    | .field name v => addField fields name v
    | _ => fields) []

/-- The children without a field name, in order. -/
def unfielded (parts : List Part) : List Value :=
  parts.filterMap fun p =>
    match p with
    | .child v => some v
    | _ => none

/-- Adds what the kind of a concrete node says about the node it becomes. -/
def finish (kind : String) (n : Node) : Node :=
  match kind with
  | "contract_declaration" => n.withField "kind" (.text "contract")
  | "interface_declaration" => n.withField "kind" (.text "interface")
  | "library_declaration" => n.withField "kind" (.text "library")
  | "constructor_definition" =>
    (n.withField "name" .null).withField "isConstructor" (.scalar (.bool true))
  | "function_definition" | "fallback_receive_definition" =>
    if n.name?.isNone then n.withField "name" .null else n
  | _ => n

/-- The node of a leaf, and of a node whose children make up the parts. -/
def assemble (source : String) (i : Info) (leaf : Bool) (parts : List Part) : Node :=
  let n : Node := ⟨i.treeKind source, some i.span, []⟩
  if leaf then n.withField "text" (.text (i.textIn source))
  else
    let n := { n with fields := fieldsOf parts }
    finish i.kind (n.withField "children" (.list (unfielded parts)))

mutual

/-- The tree of a concrete tree. -/
def toNode (source : String) : Concrete → Node
  | mk info children => assemble source info children.isEmpty (partsOf source children)

/-- What several children add to their parent. -/
def partsOf (source : String) : List Concrete → List Part
  | [] => []
  | c :: rest => part source c (toNode source c) :: partsOf source rest

end

/-- The tree of a concrete tree without faults. -/
def toTree (source : String) (root : Concrete) : Except SyntaxError Node := do
  root.check
  return root.toNode source

end Concrete

end ContractQuery
