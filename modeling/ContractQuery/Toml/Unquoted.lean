import ContractQuery.Binary64
import ContractQuery.Text.Digit

/-!
# Unquoted Values of TOML

Numbers, dates and times as TOML writes them. Digits may be grouped by single underscores;
whole numbers have no superfluous zeros and fit into 64 bits with a sign; other numbers are
not beyond the largest double; dates exist in the calendar, and seconds may be left out.
-/

namespace ContractQuery.Toml

/-- The digits of a group of digits with single underscores between them. `sep` says that an
underscore may come next. -/
def groupedFrom? (base : Nat) : Bool → List Char → Option (List Nat)
  | sep, [] => if sep then some [] else none
  | sep, c :: rest =>
    if c = '_' then if sep then groupedFrom? base false rest else none
    else do
      let d ← Text.digit? base c
      return d :: (← groupedFrom? base true rest)

/-- One or more digits, with single underscores between them. -/
def grouped? (base : Nat) (cs : List Char) : Option (List Nat) := groupedFrom? base false cs

/-- Splits off a sign. -/
def splitSign : List Char → Option Bool × List Char
  | '+' :: rest => (some false, rest)
  | '-' :: rest => (some true, rest)
  | cs => (none, cs)

/-- A whole part in base ten: no zero in front of other digits. -/
def wholePart? (cs : List Char) : Option (List Nat) := do
  let ds ← grouped? 10 cs
  match ds with
  | 0 :: _ :: _ => none
  | ds => some ds

/-- Whether the characters are a whole number that fits. -/
def isInteger (cs : List Char) : Bool :=
  let (sign, body) := splitSign cs
  let inBase (base : Nat) (digits : List Char) : Bool :=
    sign.isNone && (grouped? base digits).any fun ds => Text.ofDigits base ds < Nat.pow 2 63
  match body with
  | '0' :: 'x' :: digits => inBase 16 digits
  | '0' :: 'o' :: digits => inBase 8 digits
  | '0' :: 'b' :: digits => inBase 2 digits
  | digits =>
    (wholePart? digits).any fun ds =>
      let n := Text.ofDigits 10 ds
      if sign = some true then n ≤ Nat.pow 2 63 else n < Nat.pow 2 63

/-- Splits at the first character that satisfies a test and drops that character. -/
def cutAt (test : Char → Bool) (cs : List Char) : List Char × Option (List Char) :=
  match cs.span (fun c => !test c) with
  | (before, []) => (before, none)
  | (before, _ :: after) => (before, some after)

/-- The fraction digits of a number; none if there is no point. -/
def fractionPart? : Option (List Char) → Option (List Nat)
  | some cs => grouped? 10 cs
  | none => some []

/-- The exponent of a number; zero if there is no mark. -/
def exponentPart? : Option (List Char) → Option Int
  | some cs => do
    let (sign, body) := splitSign cs
    let e : Int := Text.ofDigits 10 (← grouped? 10 body)
    return if sign = some true then -e else e
  | none => some 0

/-- Whether the characters are a number with a fraction, an exponent, or both, that a double
can be near to, or one of the words for infinity and for no number. -/
def isFloat (cs : List Char) : Bool :=
  let (_, body) := splitSign cs
  if body = ['i', 'n', 'f'] ∨ body = ['n', 'a', 'n'] then true
  else
    let (mantissa, exponent) := cutAt (fun c => c == 'e' || c == 'E') body
    let (whole, fraction) := cutAt (· == '.') mantissa
    (fraction.isSome || exponent.isSome) &&
      match wholePart? whole, fractionPart? fraction, exponentPart? exponent with
      | some ws, some fs, some e => Binary64.inRange (ws ++ fs) (e - fs.length)
      | _, _, _ => false

/-! ### Dates and times -/

/-- A number of exactly `count` digits, and what follows. -/
def fixed? : Nat → List Char → Option (Nat × List Char)
  | count, cs => do
    let ds ← (cs.take count).mapM (Text.digit? 10)
    if ds.length = count then some (Text.ofDigits 10 ds, cs.drop count) else none

/-- Drops an expected character. -/
def expect? (c : Char) : List Char → Option (List Char)
  | d :: rest => if c = d then some rest else none
  | [] => none

/-- How many days a month has. -/
def daysIn (year month : Nat) : Nat :=
  if month = 2 then
    if year % 4 = 0 ∧ (year % 100 ≠ 0 ∨ year % 400 = 0) then 29 else 28
  else if month = 4 ∨ month = 6 ∨ month = 9 ∨ month = 11 then 30
  else 31

/-- Reads a date. -/
def date? (cs : List Char) : Option (List Char) := do
  let (year, cs) ← fixed? 4 cs
  let cs ← expect? '-' cs
  let (month, cs) ← fixed? 2 cs
  let cs ← expect? '-' cs
  let (day, cs) ← fixed? 2 cs
  if 1 ≤ month ∧ month ≤ 12 ∧ 1 ≤ day ∧ day ≤ daysIn year month then some cs else none

/-- Reads a fraction of a second, if there is one. -/
def subsecond? : List Char → Option (List Char)
  | '.' :: rest =>
    let after := rest.dropWhile Char.isDigit
    if after.length < rest.length then some after else none
  | cs => some cs

/-- Reads a time, with or without seconds. -/
def time? (cs : List Char) : Option (List Char) := do
  let (hour, cs) ← fixed? 2 cs
  let cs ← expect? ':' cs
  let (minute, cs) ← fixed? 2 cs
  if 23 < hour ∨ 59 < minute then none
  else
    match cs with
    | ':' :: cs => do
      let (second, cs) ← fixed? 2 cs
      if 60 < second then none else subsecond? cs
    | cs => some cs

/-- Reads a distance from universal time, if there is one. -/
def offset? : List Char → Option (List Char)
  | [] => some []
  | c :: cs =>
    if c = 'Z' ∨ c = 'z' then some cs
    else if c = '+' ∨ c = '-' then do
      let (hour, cs) ← fixed? 2 cs
      let cs ← expect? ':' cs
      let (minute, cs) ← fixed? 2 cs
      if 23 < hour ∨ 59 < minute then none else some cs
    else some (c :: cs)

/-- Whether the characters are a date. -/
def isDate (cs : List Char) : Bool := date? cs == some []

/-- Whether the characters are a date, a time, or both with or without an offset. -/
def isMoment (cs : List Char) : Bool :=
  time? cs == some []
    || (match date? cs with
        | some [] => true
        | some (c :: rest) =>
          (c == 'T' || c == 't' || c == ' ') && ((time? rest).bind offset?) == some []
        | none => false)

end ContractQuery.Toml
