import ContractQuery.Binary64

/-!
# Shortest Decimals

The shortest decimal of a double is the one with the fewest digits among those that round
to it, and of several such the nearest one.

Multiples of `10^e` form a grid. The decimals that round to a magnitude fill the interval
between the midpoints to its neighbours, ends included when the magnitude is even
(`Decimal.Fits`). A decimal with fewer digits lies on a coarser grid, so the search goes
from coarse to fine and takes the first grid with a point in the interval. The interval is
always wider than `10^-324`, so the finest grid that is tried has one. On a grid only the
two neighbours of the value can be the nearest point; an exact tie goes to the even digit.
-/

namespace ContractQuery

/-- A decimal `digits * 10^exponent`. -/
structure Decimal where
  digits : Nat
  exponent : Int
  deriving DecidableEq, Repr, Inhabited

namespace Decimal

/-- The power of ten in the numerator of `10^e`. -/
def above (e : Int) : Nat := Nat.pow 10 e.toNat

/-- The power of ten in the denominator of `10^e`. -/
def below (e : Int) : Nat := Nat.pow 10 (-e).toNat

/-- Whether a decimal rounds to the double of a magnitude other than zero. Both midpoints
are taken in half units. -/
def Fits (magnitude : Nat) (d : Decimal) : Prop :=
  let low := (Binary64.units (magnitude - 1) + Binary64.units magnitude) * below d.exponent
  let high := (Binary64.units magnitude + Binary64.units (magnitude + 1)) * below d.exponent
  let point := 2 * d.digits * (Binary64.one * above d.exponent)
  if magnitude % 2 = 0 then low ≤ point ∧ point ≤ high else low < point ∧ point < high

instance (magnitude : Nat) (d : Decimal) : Decidable (Fits magnitude d) := by
  unfold Fits
  infer_instance

/-- The point of the grid `10^e` that is nearest to a magnitude, if it rounds to it. -/
def onGrid? (magnitude : Nat) (e : Int) : Option Decimal :=
  let num := Binary64.units magnitude * below e
  let den := Binary64.one * above e
  let low : Decimal := ⟨num / den, e⟩
  let high : Decimal := ⟨num / den + 1, e⟩
  let excess := 2 * (num % den)
  if excess < den ∨ (excess = den ∧ low.digits % 2 = 0) then
    if Fits magnitude low then some low else if Fits magnitude high then some high else none
  else
    if Fits magnitude high then some high else if Fits magnitude low then some low else none

/-- Searches the `count` grids from `10^(count - 325)` down to `10^-324`. -/
def search (magnitude : Nat) : Nat → Decimal
  | 0 => ⟨0, 0⟩
  | count + 1 =>
    match onGrid? magnitude ((count : Int) - 324) with
    | some d => d
    | none => search magnitude count

/-- The shortest decimal of a magnitude other than zero. -/
def shortest (magnitude : Nat) : Decimal := search magnitude 633

/-- The exponent of the first digit. -/
def leading (d : Decimal) : Int := d.exponent + (toString d.digits).length - 1

end Decimal

end ContractQuery
