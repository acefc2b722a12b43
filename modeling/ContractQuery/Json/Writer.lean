import ContractQuery.Decimal
import ContractQuery.Json.Basic

/-!
# Writing JSON

The compact form of a value: no blanks, objects in their order. A string escapes the quote,
the backslash and the control characters and nothing else. A double is written with the
fewest digits that read back, in plain notation with at least one digit after the point
when its first digit stands between the places `10^-5` and `10^15`, and with an exponent
otherwise.
-/

namespace ContractQuery

/-- The digits of a decimal with a point after `places` of them, which may lie outside. -/
def Decimal.plain (digits : String) (places : Int) : String :=
  if places ≤ 0 then "0." ++ String.ofList (List.replicate (-places).toNat '0') ++ digits
  else
    let n := places.toNat
    if digits.length ≤ n then
      digits ++ String.ofList (List.replicate (n - digits.length) '0') ++ ".0"
    else
      String.ofList (digits.toList.take n) ++ "." ++ String.ofList (digits.toList.drop n)

/-- A decimal with one digit before the point, and an exponent with its sign. -/
def Decimal.scientific (digits : String) (exponent : Int) : String :=
  let mantissa :=
    match digits.toList with
    | [] => ""
    | [d] => d.toString
    | d :: ds => d.toString ++ "." ++ String.ofList ds
  mantissa ++ "e" ++ (if 0 ≤ exponent then "+" else "-") ++ toString exponent.natAbs

/-- A double as JSON writes it. -/
def Binary64.text (x : Binary64) : String :=
  let sign := if x.negative then "-" else ""
  if x.isZero then sign ++ "0.0"
  else
    let d := Decimal.shortest x.magnitude
    let digits := toString d.digits
    if -5 ≤ d.leading ∧ d.leading ≤ 15 then sign ++ Decimal.plain digits (d.leading + 1)
    else sign ++ Decimal.scientific digits d.leading

/-- A number as JSON writes it. -/
def Number.text : Number → String
  | int n => toString n
  | float x => x.text

namespace Json

/-- A digit of a `\u` escape. -/
def hexDigit (n : Nat) : Char := Nat.digitChar (n % 16)

/-- A character inside a JSON string. -/
def escape (c : Char) : List Char :=
  match c with
  | '"' => ['\\', '"']
  | '\\' => ['\\', '\\']
  | '\x08' => ['\\', 'b']
  | '\x0c' => ['\\', 'f']
  | '\n' => ['\\', 'n']
  | '\r' => ['\\', 'r']
  | '\t' => ['\\', 't']
  | c =>
    if c < ' ' then ['\\', 'u', '0', '0', hexDigit (c.toNat / 16), hexDigit c.toNat]
    else [c]

/-- A JSON string with its quotes. -/
def quote (s : String) : String :=
  String.ofList ('"' :: s.toList.flatMap escape ++ ['"'])

mutual

/-- The compact text of a value. -/
def render : Json → String
  | null => "null"
  | bool true => "true"
  | bool false => "false"
  | number n => n.text
  | text s => quote s
  | array items => "[" ++ String.intercalate "," (renderItems items) ++ "]"
  | object entries => "\x7b" ++ String.intercalate "," (renderEntries entries) ++ "\x7d"

/-- The texts of the items of an array. -/
def renderItems : List Json → List String
  | [] => []
  | j :: rest => j.render :: renderItems rest

/-- The texts of the entries of an object. -/
def renderEntries : List (String × Json) → List String
  | [] => []
  | (name, j) :: rest => (quote name ++ ":" ++ j.render) :: renderEntries rest

end

end Json

end ContractQuery
