import ContractQuery.Json.Writer
import ContractQuery.Span
import ContractQuery.Text.Quoted

/-!
# Points and Spans from JSON

A point is an object with `line` and an optional `column`, or an array of the two; a span is
an object with `start` and `stop` points, the latter under the name `end`, or an array of the
two. Other names are ignored. A column may be absent or null.

The entries of an object are decoded in their order and the first bad one is the error;
only then is a missing entry one. Likewise the items of an array are decoded before its
length is found wrong.
-/

namespace ContractQuery

/-- What a decoder looks for. -/
inductive Decode.Target where
  | span
  | point
  | count
  deriving DecidableEq, Repr

/-- Why a value is not a point or a span. -/
inductive DecodeError where
  | wrongType (found : Json) (expected : Decode.Target)
  | outOfRange (n : Int)
  | missing (name : String)
  | tooShort (length : Nat) (expected : Decode.Target)
  | tooLong (length : Nat)
  deriving Repr

/-- A target as messages name it. -/
def Decode.Target.text : Decode.Target → String
  | span => "struct Span"
  | point => "struct Point"
  | count => "usize"

/-- A value that was found in the wrong place, as messages describe it. -/
def Json.describe : Json → String
  | .null => "null"
  | .bool b => "boolean `" ++ toString b ++ "`"
  | .number (.int n) => "integer `" ++ toString n ++ "`"
  | .number (.float x) => "floating point `" ++ x.text ++ "`"
  | .text s => "string " ++ Text.quoted s
  | .array _ => "sequence"
  | .object _ => "map"

/-- The text of a decoding error. -/
def DecodeError.message : DecodeError → String
  | wrongType found expected =>
    "invalid type: " ++ found.describe ++ ", expected " ++ expected.text
  | outOfRange n =>
    "invalid value: integer `" ++ toString n ++ "`, expected " ++ Decode.Target.count.text
  | missing name => "missing field `" ++ name ++ "`"
  | tooShort length expected =>
    "invalid length " ++ toString length ++ ", expected " ++ expected.text ++ " with 2 elements"
  | tooLong length =>
    "invalid length " ++ toString length ++ ", expected fewer elements in array"

namespace Decode

/-- A line or column: a whole number from zero to `2^64 - 1`. -/
def count : Json → Except DecodeError Nat
  | .number (.int n) => if 0 ≤ n ∧ n < Nat.pow 2 64 then .ok n.toNat else .error (.outOfRange n)
  | j => .error (.wrongType j .count)

/-- A column, where null stands for none. -/
def column : Json → Except DecodeError (Option Nat)
  | .null => .ok none
  | j => return some (← count j)

/-- The entries of a point that have been decoded. -/
structure PointDraft where
  line : Option Nat
  column : Option Nat

/-- Decodes one entry of a point. -/
def PointDraft.add (d : PointDraft) (entry : String × Json) : Except DecodeError PointDraft :=
  match entry with
  | ("line", j) => return ⟨some (← count j), d.column⟩
  | ("column", j) => return ⟨d.line, ← Decode.column j⟩
  | _ => .ok d

/-- A point. -/
def point : Json → Except DecodeError Point
  | .object entries => do
    let d ← entries.foldlM PointDraft.add ⟨none, none⟩
    match d.line with
    | some line => return ⟨line, d.column⟩
    | none => .error (.missing "line")
  | .array [] => .error (.tooShort 0 .point)
  | .array [l] => return ⟨← count l, none⟩
  | .array (l :: c :: rest) => do
    let p : Point := ⟨← count l, ← column c⟩
    if rest.isEmpty then return p else .error (.tooLong (rest.length + 2))
  | j => .error (.wrongType j .point)

/-- The entries of a span that have been decoded. -/
structure SpanDraft where
  start : Option Point
  stop : Option Point

/-- Decodes one entry of a span. -/
def SpanDraft.add (d : SpanDraft) (entry : String × Json) : Except DecodeError SpanDraft :=
  match entry with
  | ("start", j) => return ⟨some (← point j), d.stop⟩
  | ("end", j) => return ⟨d.start, some (← point j)⟩
  | _ => .ok d

/-- A span. -/
def span : Json → Except DecodeError Span
  | .object entries => do
    let d ← entries.foldlM SpanDraft.add ⟨none, none⟩
    match d.start, d.stop with
    | some start, some stop => return ⟨start, stop⟩
    | none, _ => .error (.missing "start")
    | some _, none => .error (.missing "end")
  | .array [] => .error (.tooShort 0 .span)
  | .array [a] => do
    let _ ← point a
    .error (.tooShort 1 .span)
  | .array (a :: b :: rest) => do
    let s : Span := ⟨← point a, ← point b⟩
    if rest.isEmpty then return s else .error (.tooLong (rest.length + 2))
  | j => .error (.wrongType j .span)

end Decode

end ContractQuery
