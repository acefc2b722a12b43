import ContractQuery.Toml.Basic
import ContractQuery.Toml.Token
import ContractQuery.Toml.Unquoted

/-!
# Reading TOML

A document is a sequence of lines: headers, which open tables, and keys with values, which go
into the open table. Values nest up to `depthLimit` levels, and a key has at most as many
names. Each step of the reader takes up a token or goes one level down, so a fuel of twice the
number of tokens is always enough.

A key and its value stand on one line, except in an inline table, where line ends and comments
may stand wherever a blank may, the inside of a dotted key apart.
-/

namespace ContractQuery.Toml

/-- How deep arrays and inline tables may nest, and how many names a key may have. -/
def depthLimit : Nat := 80

/-- Skips blanks. -/
def skipBlanks : List Token → List Token
  | .blank _ :: rest => skipBlanks rest
  | tokens => tokens

/-- Skips blanks and line ends. -/
def skipSpace : List Token → List Token
  | .blank _ :: rest => skipSpace rest
  | .newline :: rest => skipSpace rest
  | tokens => tokens

/-! ### Keys -/

/-- Whether a character may stand in an unquoted key. -/
def isKeyChar (c : Char) : Bool :=
  (c.isAlphanum && c.toNat < 128) || c == '_' || c == '-'

/-- One name of a key. -/
def name? : Token → Option String
  | .atom written => if written.toList.all isKeyChar then some written else none
  | .string s => some s
  | _ => none

/-- The names of a key, of which there is at least one, and what follows the key. -/
def names? : Nat → List Token → Option (List String × List Token)
  | 0, _ => none
  | fuel + 1, tokens =>
    match skipBlanks tokens with
    | t :: rest => do
      let n ← name? t
      match skipBlanks rest with
      | .dot :: rest => do
        let (ns, rest) ← names? fuel rest
        return (n :: ns, rest)
      | rest => return ([n], rest)
    | [] => none

/-- A key: names, unless there are too many of them, and what follows. -/
def key? (fuel : Nat) (tokens : List Token) : Option (List String × List Token) := do
  let (names, rest) ← names? fuel tokens
  if names.length ≤ depthLimit then some (names, rest) else none

/-! ### Values -/

/-- The unquoted text at the front. -/
def unquoted : List Token → List Char × List Token
  | .atom written :: rest => let (cs, rest) := unquoted rest; (written.toList ++ cs, rest)
  | .dot :: rest => let (cs, rest) := unquoted rest; ('.' :: cs, rest)
  | tokens => ([], tokens)

/-- The value of an unquoted text. -/
def unquotedValue? (cs : List Char) : Option Toml :=
  let written := String.ofList cs
  if written = "true" then some (.bool true)
  else if written = "false" then some (.bool false)
  else if isInteger cs || isFloat cs then some (.number written)
  else if isMoment cs then some (.moment written)
  else none

/-- Reads an unquoted value. A date may be followed by a blank and a time. -/
def plain? (tokens : List Token) : Option (Toml × List Token) := do
  let (cs, rest) := unquoted tokens
  let joined : Option (Toml × List Token) :=
    match rest with
    | .blank " " :: more =>
      let (ds, rest') := unquoted more
      if isDate cs && ds.head?.any Char.isDigit then
        (unquotedValue? (cs ++ ' ' :: ds)).map (·, rest')
      else none
    | _ => none
  match joined with
  | some found => some found
  | none => return (← unquotedValue? cs, rest)

mutual

/-- Reads a value, with `depth` levels left below it. -/
def value? : Nat → Nat → List Token → Option (Toml × List Token)
  | 0, _, _ => none
  | fuel + 1, depth, tokens =>
    match tokens, depth with
    | .string s :: rest, _ => some (.text s, rest)
    | .block s :: rest, _ => some (.text s, rest)
    | .openSquare :: rest, depth + 1 => items? fuel depth [] rest
    | .openCurly :: rest, depth + 1 => entries? fuel depth (.empty .header) (skipSpace rest)
    | .atom written :: rest, _ => plain? (.atom written :: rest)
    | _, _ => none

/-- Reads the rest of an array; the items so far come last first. -/
def items? : Nat → Nat → List Toml → List Token → Option (Toml × List Token)
  | 0, _, _, _ => none
  | fuel + 1, depth, done, tokens =>
    match skipSpace tokens with
    | .closeSquare :: rest => some (.array done.reverse, rest)
    | tokens => do
      let (v, rest) ← value? fuel depth tokens
      match skipSpace rest with
      | .comma :: rest => items? fuel depth (v :: done) rest
      | .closeSquare :: rest => some (.array (v :: done).reverse, rest)
      | _ => none

/-- Reads the rest of an inline table, past white space. -/
def entries? : Nat → Nat → Table → List Token → Option (Toml × List Token)
  | 0, _, _, _ => none
  | fuel + 1, depth, t, tokens =>
    match tokens with
    | .closeCurly :: rest => some (t.toToml, rest)
    | tokens => do
      let (names, rest) ← key? (fuel + 1) tokens
      match skipSpace rest with
      | .equals :: rest => do
        let (v, rest) ← value? fuel depth (skipSpace rest)
        let t ← t.add? names.dropLast (names.getLastD "") v
        match skipSpace rest with
        | .comma :: rest => entries? fuel depth t (skipSpace rest)
        | .closeCurly :: rest => some (t.toToml, rest)
        | _ => none
      | _ => none

end

/-! ### Documents -/

/-- A document of which some lines have been read: all of its tables, and the path of the
open one. -/
structure Draft where
  root : Table
  opened : List String
  deriving Repr

/-- The end of a line. -/
def lineEnd? (tokens : List Token) : Option (List Token) :=
  match skipBlanks tokens with
  | [] => some []
  | .newline :: rest => some rest
  | _ => none

/-- Reads one line that is not empty. -/
def line? (fuel : Nat) (d : Draft) (tokens : List Token) : Option (Draft × List Token) :=
  match tokens with
  | .openSquare :: .openSquare :: rest => do
    let (names, rest) ← key? fuel rest
    match rest with
    | .closeSquare :: .closeSquare :: rest => do
      let root ← d.root.openElement? names.dropLast (names.getLastD "")
      return (⟨root, names⟩, ← lineEnd? rest)
    | _ => none
  | .openSquare :: rest => do
    let (names, rest) ← key? fuel rest
    match rest with
    | .closeSquare :: rest => do
      let root ← d.root.openTable? names.dropLast (names.getLastD "")
      return (⟨root, names⟩, ← lineEnd? rest)
    | _ => none
  | tokens => do
    let (names, rest) ← key? fuel tokens
    match rest with
    | .equals :: rest => do
      let (v, rest) ← value? fuel depthLimit (skipBlanks rest)
      let root ← d.root.update? false
        (fun t => t.add? names.dropLast (names.getLastD "") v) d.opened
      return (⟨root, d.opened⟩, ← lineEnd? rest)
    | _ => none

/-- Reads all lines. -/
def lines? : Nat → Draft → List Token → Option Draft
  | 0, _, _ => none
  | fuel + 1, d, tokens =>
    match skipSpace tokens with
    | [] => some d
    | tokens => do
      let (d, rest) ← line? (fuel + 1) d tokens
      lines? fuel d rest

/-- The table that a text denotes; `none` if it is not TOML. -/
def parse? (s : String) : Option (Record Toml) := do
  let tokens ← Token.scan? s
  let d ← lines? (2 * tokens.length + 2) ⟨.empty .header, []⟩ tokens
  return Cell.entriesToToml d.root.entries

end ContractQuery.Toml
