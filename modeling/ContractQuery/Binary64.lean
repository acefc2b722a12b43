/-!
# Finite Double-Precision Numbers

A finite double is a sign and a magnitude, the 63 low bits of its binary encoding. Every
magnitude stands for a whole number of units of `2^-1074` (`Binary64.units`), and
magnitudes are ordered as the values they stand for, so all arithmetic here is exact
arithmetic on natural numbers followed by one rounding, `Binary64.nearest`, to the
nearest magnitude, a half going to the even one.

* `ofNat?`, `mul?`, `div?`: whole numbers, products and quotients, rounded once; `none`
  when the result would be infinite.
* `inRange`: whether a decimal number is not beyond all finite doubles.
* `same`: equality of values, for which the two zeros are equal.
-/

namespace ContractQuery

/-- A finite double: its sign, and the 63 low bits of its encoding. -/
structure Binary64 where
  negative : Bool
  magnitude : Nat
  finite : magnitude < 2047 * Nat.pow 2 52
  deriving DecidableEq, Repr

namespace Binary64

/-- Zero with a sign. -/
def zero (negative : Bool) : Binary64 := ⟨negative, 0, by decide⟩

instance : Inhabited Binary64 := ⟨zero false⟩

/-- How many units of `2^-1074` a magnitude stands for. Within a binade the step is one
power of two, and the two lowest binades share the smallest step. -/
def units (magnitude : Nat) : Nat :=
  let scale := magnitude / Nat.pow 2 52 - 1
  (magnitude - scale * Nat.pow 2 52) * Nat.pow 2 scale

/-- The magnitude nearest to `num / den` units, a half going to the even one. -/
def nearest (num den : Nat) : Nat :=
  let scale := (num / den).log2 - 52
  let step := den * Nat.pow 2 scale
  let low := num / step
  let excess := 2 * (num % step)
  let rounded := if excess < step ∨ (excess = step ∧ low % 2 = 0) then low else low + 1
  scale * Nat.pow 2 52 + rounded

/-- The double with a given magnitude, if it is finite. -/
def ofMagnitude? (negative : Bool) (magnitude : Nat) : Option Binary64 :=
  if h : magnitude < 2047 * Nat.pow 2 52 then some ⟨negative, magnitude, h⟩ else none

/-- The units in one. -/
def one : Nat := Nat.pow 2 1074

/-- The double nearest to a whole number. -/
def ofNat? (n : Nat) : Option Binary64 := ofMagnitude? false (nearest (n * one) 1)

/-- The product, rounded once. -/
def mul? (x y : Binary64) : Option Binary64 :=
  ofMagnitude? (x.negative != y.negative) (nearest (units x.magnitude * units y.magnitude) one)

/-- The quotient by a number other than zero, rounded once. -/
def div? (x y : Binary64) : Option Binary64 :=
  ofMagnitude? (x.negative != y.negative)
    (nearest (units x.magnitude * one) (units y.magnitude))

/-- The least whole number that no finite double is nearest to. It lies half a step above the
largest one, and the half goes to the even side. -/
def bound : Nat := Nat.pow 2 1024 - Nat.pow 2 970

/-- Whether decimal digits, the last of which counts powers of ten of the given exponent,
denote a number that some finite double is nearest to. The bound has 309 digits, so only a
number with as many digits before the point has to be compared with it. -/
def inRange (ds : List Nat) (exponent : Int) : Bool :=
  let ds := ds.dropWhile (· == 0)
  let n := ds.foldl (fun n d => n * 10 + d) 0
  let size := ds.length + exponent
  if ds.isEmpty || size < 309 then true
  else if 309 < size then false
  else if 0 ≤ exponent then n * Nat.pow 10 exponent.toNat < bound
  else n < bound * Nat.pow 10 (-exponent).toNat

/-- Whether the value is zero, of either sign. -/
def isZero (x : Binary64) : Bool := x.magnitude == 0

/-- The same number with a given sign. -/
def withSign (x : Binary64) (negative : Bool) : Binary64 := ⟨negative, x.magnitude, x.finite⟩

/-- Equality of values: the two zeros are equal, all other numbers differ. -/
def same (x y : Binary64) : Bool := x == y || (x.isZero && y.isZero)

/-- The 64 bits of the encoding, as a number. -/
def bits (x : Binary64) : Nat := (if x.negative then Nat.pow 2 63 else 0) + x.magnitude

/-! ### Equality of values is an equivalence -/

/-- A number is equal to itself. -/
theorem same_refl (x : Binary64) : x.same x = true := by simp [same]

/-- Equality of numbers is symmetric. -/
theorem same_symm {x y : Binary64} (h : x.same y = true) : y.same x = true := by
  simp only [same, Bool.or_eq_true, beq_iff_eq, Bool.and_eq_true] at h ⊢
  rcases h with h | ⟨hx, hy⟩
  · exact .inl h.symm
  · exact .inr ⟨hy, hx⟩

/-- Equality of numbers is transitive. -/
theorem same_trans {x y z : Binary64} (h : x.same y = true) (h' : y.same z = true) :
    x.same z = true := by
  simp only [same, Bool.or_eq_true, beq_iff_eq, Bool.and_eq_true] at h h' ⊢
  rcases h with rfl | ⟨hx, hy⟩
  · exact h'
  · rcases h' with rfl | ⟨-, hz⟩
    · exact .inr ⟨hx, hy⟩
    · exact .inr ⟨hx, hz⟩

end Binary64

end ContractQuery
