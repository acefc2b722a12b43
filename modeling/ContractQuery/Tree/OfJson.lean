import ContractQuery.Location
import ContractQuery.Tree.Basic

/-!
# Trees from JSON

An object with a `type` stands for a node: the type names the kind, `loc` holds the span
unless it is absent or null, `range` is dropped, and the other entries are the fields. An
object without a `type` is a map, an array is a list, and all else is a scalar. The document
itself has to be a node.

A `type` that is not text is an error wherever an object is looked at, and so is a `loc` that
is not a span. The span of a node is decoded before its fields.
-/

namespace ContractQuery

/-- Why a document is not a tree. -/
inductive LoadError where
  | notJson (cause : Json.ParseError)
  | badType (found : Json)
  | badSpan (type : String) (cause : DecodeError)
  | badRoot (found : Shape)
  deriving Repr

/-- What is wrong with a document, without the words that introduce it. -/
def LoadError.detail : LoadError → String
  | notJson cause => cause.message
  | badType found => "`type` must be a string, found `" ++ found.render ++ "`"
  | badSpan type cause => "invalid `loc` on " ++ type ++ ": " ++ cause.message
  | badRoot found => "root must be an object with a `type`, found a " ++ found.text

/-- The text of a load error. -/
def LoadError.message (e : LoadError) : String := "invalid JSON AST: " ++ e.detail

namespace Value

/-- Entries of a typed object that are not fields. -/
def isReserved (name : String) : Bool := name == "type" || name == "loc" || name == "range"

/-- The span of a typed object. -/
def loadSpan (type : String) (entries : Record Json) : Except LoadError (Option Span) :=
  match Record.get? entries "loc" with
  | none => .ok none
  | some .null => .ok none
  | some loc =>
    match Decode.span loc with
    | .ok span => .ok (some span)
    | .error cause => .error (.badSpan type cause)

mutual

/-- The tree of a JSON value. -/
def ofJson : Json → Except LoadError Value
  | .null => .ok (scalar .null)
  | .bool b => .ok (scalar (.bool b))
  | .number n => .ok (scalar (.number n))
  | .text s => .ok (scalar (.text s))
  | .array items => return list (← ofItems items)
  | .object entries =>
    match Record.get? entries "type" with
    | none => return map (Record.ofList (← ofEntries false entries))
    | some (.text type) => do
      let span ← loadSpan type entries
      return node (.ofName type) span (Record.ofList (← ofEntries true entries))
    | some other => .error (.badType other)

/-- The trees of array items. -/
def ofItems : List Json → Except LoadError (List Value)
  | [] => .ok []
  | j :: rest => return (← ofJson j) :: (← ofItems rest)

/-- The trees of object entries; those that are not fields of a typed object are left out. -/
def ofEntries (typed : Bool) : List (String × Json) → Except LoadError (List (String × Value))
  | [] => .ok []
  | (name, j) :: rest =>
    if typed && isReserved name then ofEntries typed rest
    else return (name, ← ofJson j) :: (← ofEntries typed rest)

end

end Value

namespace Node

/-- The tree of a JSON document. -/
def ofJson (j : Json) : Except LoadError Node :=
  match Value.ofJson j with
  | .error e => .error e
  | .ok v =>
    match v.node? with
    | some n => .ok n
    | none => .error (.badRoot v.shape)

/-- The tree that a text denotes. -/
def parse (text : String) : Except LoadError Node :=
  match Json.parse text with
  | .ok j => ofJson j
  | .error e => .error (.notJson e)

end Node

end ContractQuery
