import ContractQuery.Concrete.Basic
import ContractQuery.Json.Basic

/-!
# Concrete Trees from JSON

The rows of a concrete tree as a JSON array. A row is the array of field name or null, kind,
flags, the start as byte, row and column, the end likewise, and the number of children. The
flags are letters: `n` for named, `e` for error, `m` for missing, `h` for having an error.
-/

namespace ContractQuery.Concrete

/-- A count from zero on. -/
def count? : Json → Option Nat
  | .number (.int n) => if 0 ≤ n then some n.toNat else none
  | _ => none

/-- A row. -/
def Row.ofJson? : Json → Option Row
  | .array [field, kind, flags, startByte, startRow, startColumn, endByte, endRow, endColumn,
      childCount] => do
    let flags := (← flags.text?).toList
    let info : Info := {
      field := field.text?
      kind := ← kind.text?
      named := flags.contains 'n'
      isError := flags.contains 'e'
      isMissing := flags.contains 'm'
      hasError := flags.contains 'h'
      startByte := ← count? startByte
      endByte := ← count? endByte
      start := ⟨← count? startRow, ← count? startColumn⟩
      stop := ⟨← count? endRow, ← count? endColumn⟩ }
    return ⟨info, ← count? childCount⟩
  | _ => none

/-- The tree of an array of rows. -/
def ofJson? (j : Json) : Option Concrete := do
  ofRows? (← (← j.items?).mapM Row.ofJson?)

end ContractQuery.Concrete
