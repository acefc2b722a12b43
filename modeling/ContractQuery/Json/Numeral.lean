import ContractQuery.Json.Basic
import ContractQuery.Text.Digit

/-!
# JSON Numerals

A numeral is read one character after the other (`Numeral.step`): a sign, whole digits of
which the first is zero only if it is the only one, and an optional fraction and exponent. It
is then evaluated (`Numeral.value?`).

Without fraction and exponent a numeral in the range from `-2^63` to `2^64 - 1` is a whole
number, minus zero apart. Every other numeral is a double: its digits are collected into a
significand below `2^64`, digits that no longer fit only move the decimal exponent (whole
digits) or are dropped (fraction digits), and one multiplication or division by a power of
ten gives the result. That last step rounds a second time, so the double is not always the
one nearest to the numeral. A numeral beyond the largest double has no value, and one whose
exponent needs more than 31 bits is known to be one before its digits end.
-/

namespace ContractQuery

/-- The parts of a numeral. Digits are kept last first; an exponent is a sign, true for minus,
and a number. -/
structure Numeral where
  negative : Bool
  whole : List Nat
  fraction : Option (List Nat)
  exponent : Option (Bool × Nat)
  deriving Repr, DecidableEq

namespace Numeral

/-! ### Grammar -/

/-- What was read last. -/
inductive Stage where
  | minus
  | zero
  | whole
  | point
  | fraction
  | mark
  | markSign
  | exponent
  deriving Repr, DecidableEq

/-- Whether a numeral may end here. -/
def Stage.isComplete : Stage → Bool
  | zero | whole | fraction | exponent => true
  | minus | point | mark | markSign => false

/-- What a character does to a numeral: it belongs to it, it comes after its end, it is out of
place, or it puts the value out of range. -/
inductive Step where
  | more (n : Numeral) (stage : Stage)
  | ended
  | invalid
  | outOfRange
  deriving Repr, DecidableEq

/-- The numeral with its first whole digit. -/
def first (n : Numeral) (d : Nat) : Numeral × Stage :=
  ({ n with whole := [d] }, if d = 0 then .zero else .whole)

/-- The numeral that starts with a character. -/
def start? (c : Char) : Option (Numeral × Stage) :=
  if c = '-' then some (⟨true, [], none, none⟩, .minus)
  else (Text.digit? 10 c).map (first ⟨false, [], none, none⟩)

/-- Whether all digits before the exponent are zero. -/
def isZero (n : Numeral) : Bool := n.whole.all (· == 0) && n.fraction.all (·.all (· == 0))

/-- Takes up the mark of an exponent, where one may stand. -/
def mark (n : Numeral) (c : Char) : Step :=
  if c = 'e' ∨ c = 'E' then .more { n with exponent := some (false, 0) } .mark else .ended

/-- Takes up the sign of an exponent. -/
def markSign (n : Numeral) (c : Char) : Step :=
  if c = '+' then .more { n with exponent := some (false, 0) } .markSign
  else if c = '-' then .more { n with exponent := some (true, 0) } .markSign
  else .invalid

/-- Takes up a digit of the exponent. -/
def power (n : Numeral) (d : Nat) : Step :=
  let (below, e) := n.exponent.getD (false, 0)
  let e := e * 10 + d
  if Nat.pow 2 31 ≤ e && !below && !n.isZero then .outOfRange
  else .more { n with exponent := some (below, e) } .exponent

/-- Takes up one character. -/
def step (n : Numeral) (stage : Stage) (c : Char) : Step :=
  match stage, Text.digit? 10 c with
  | .minus, some d => let (n, stage) := n.first d; .more n stage
  | .zero, some _ => .invalid
  | .whole, some d => .more { n with whole := d :: n.whole } .whole
  | .point, some d => .more { n with fraction := some [d] } .fraction
  | .fraction, some d => .more { n with fraction := some (d :: n.fraction.getD []) } .fraction
  | .mark, some d => n.power d
  | .markSign, some d => n.power d
  | .exponent, some d => n.power d
  | .zero, none => if c = '.' then .more n .point else n.mark c
  | .whole, none => if c = '.' then .more n .point else n.mark c
  | .fraction, none => n.mark c
  | .mark, none => n.markSign c
  | .exponent, none => .ended
  | .minus, none => .invalid
  | .point, none => .invalid
  | .markSign, none => .invalid

/-! ### Evaluation -/

/-- Appends digits to a significand while it stays below `2^64`, and returns the digits
that did not fit, from the first such digit on. -/
def collect : Nat → List Nat → Nat × List Nat
  | significand, [] => (significand, [])
  | significand, d :: ds =>
    if significand * 10 + d < Nat.pow 2 64 then collect (significand * 10 + d) ds
    else (significand, d :: ds)

/-- Multiplies a double by a power of ten. Exponents below `-308` are taken in steps, and a
value that has become zero stays zero. -/
def scale? (x : Binary64) (exponent : Int) : Option Binary64 :=
  if exponent < -308 then
    if x.isZero then some x
    else do
      let power ← Binary64.ofNat? (Nat.pow 10 308)
      scale? (← x.div? power) (exponent + 308)
  else if exponent < 0 then do
    x.div? (← Binary64.ofNat? (Nat.pow 10 exponent.natAbs))
  else if exponent ≤ 308 then do
    x.mul? (← Binary64.ofNat? (Nat.pow 10 exponent.toNat))
  else if x.isZero then some x else none
termination_by (-exponent).toNat
decreasing_by omega

/-- The double for a significand and a decimal exponent. -/
def double? (negative : Bool) (significand : Nat) (exponent : Int) : Option Number := do
  let x ← scale? (← Binary64.ofNat? significand) exponent
  return .float (x.withSign negative)

/-- The value of a numeral. -/
def value? (n : Numeral) : Option Number :=
  let (significand, excess) := collect 0 n.whole.reverse
  match n.fraction, n.exponent, excess with
  | none, none, [] =>
    if !n.negative then some (.int significand)
    else if significand ≠ 0 ∧ significand ≤ Nat.pow 2 63 then some (.int (-significand))
    else double? n.negative significand 0
  | fraction, exponent, excess =>
    let ds := (fraction.getD []).reverse
    let (significand, dropped) := collect significand ds
    let shift : Int := excess.length - (ds.length - dropped.length : Nat)
    match exponent with
    | none => double? n.negative significand shift
    | some (below, e) =>
      if e < Nat.pow 2 31 then
        double? n.negative significand (if below then shift - e else shift + e)
      else if below || significand == 0 then some (.float (.zero n.negative))
      else none

end Numeral

end ContractQuery
