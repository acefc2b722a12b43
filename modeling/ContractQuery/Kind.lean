/-!
# Node Kinds

The kind of a node says which construct of the language it stands for. Only the kinds on
which a query or the pruner decides have a constructor of their own; every other
construct keeps its name in `Kind.other`.

* `Kind.ofName` and `Kind.name` go between kinds and the names that documents use.
* `Kind.isComment` and `Kind.comments` pick out the three kinds of comment.
-/

namespace ContractQuery

/-- The construct that a node stands for. -/
inductive Kind where
  | sourceUnit
  | contractDefinition
  | functionDefinition
  | comment
  | lineComment
  | blockComment
  | other (name : String)
  deriving DecidableEq, Repr, Inhabited

namespace Kind

/-- The kind that a type name denotes; a name without a constructor of its own is kept. -/
def ofName : String → Kind
  | "SourceUnit" => sourceUnit
  | "ContractDefinition" => contractDefinition
  | "FunctionDefinition" => functionDefinition
  | "Comment" => comment
  | "LineComment" => lineComment
  | "BlockComment" => blockComment
  | name => other name

/-- The type name of a kind. -/
def name : Kind → String
  | sourceUnit => "SourceUnit"
  | contractDefinition => "ContractDefinition"
  | functionDefinition => "FunctionDefinition"
  | comment => "Comment"
  | lineComment => "LineComment"
  | blockComment => "BlockComment"
  | other name => name

/-- Whether a node of this kind is a comment. -/
def isComment : Kind → Bool
  | comment | lineComment | blockComment => true
  | _ => false

/-- The kinds of comment. -/
def comments : List Kind := [comment, lineComment, blockComment]

/-- Every name is the name of the kind it denotes. -/
@[simp] theorem name_ofName (s : String) : (ofName s).name = s := by
  unfold ofName
  split <;> rfl

/-- The comment kinds are exactly the listed ones. -/
theorem mem_comments_iff (k : Kind) : k ∈ comments ↔ k.isComment = true := by
  cases k <;> simp [comments, isComment]

end Kind

end ContractQuery
