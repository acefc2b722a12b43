import ContractQuery.Binary64
import ContractQuery.Record

/-!
# JSON Values

JSON values with ordered objects. A number is a whole number or a double, and the two
never agree even when they stand for the same quantity.
-/

namespace ContractQuery

/-- A JSON number: a whole number, or a double. -/
inductive Number where
  | int (n : Int)
  | float (x : Binary64)
  deriving DecidableEq, Repr, Inhabited

namespace Number

/-- Whole numbers agree when equal, doubles when they have the same value. -/
def same : Number → Number → Bool
  | int m, int n => m == n
  | float x, float y => x.same y
  | _, _ => false

/-- A number is equal to itself. -/
theorem same_refl (a : Number) : a.same a = true := by
  cases a <;> simp [same, Binary64.same_refl]

/-- Equality of numbers is symmetric. -/
theorem same_symm {a b : Number} (h : a.same b = true) : b.same a = true := by
  cases a <;> cases b <;> simp_all [same]
  exact Binary64.same_symm h

/-- Equality of numbers is transitive. -/
theorem same_trans {a b c : Number} (h : a.same b = true) (h' : b.same c = true) :
    a.same c = true := by
  cases a <;> cases b <;> cases c <;> simp_all [same]
  exact Binary64.same_trans h h'

end Number

/-- A JSON value. The entries of an object stand in the order of the document. -/
inductive Json where
  | null
  | bool (b : Bool)
  | number (n : Number)
  | text (s : String)
  | array (items : List Json)
  | object (entries : List (String × Json))
  deriving Repr, Inhabited

namespace Json

/-- The entries of an object. -/
def entries? : Json → Option (Record Json)
  | object entries => some entries
  | _ => none

/-- The items of an array. -/
def items? : Json → Option (List Json)
  | array items => some items
  | _ => none

/-- The characters of a string. -/
def text? : Json → Option String
  | text s => some s
  | _ => none

/-- The value that an object has under a name. -/
def get? (j : Json) (name : String) : Option Json :=
  j.entries?.bind (Record.get? · name)

end Json

end ContractQuery
