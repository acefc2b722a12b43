import ContractQuery.Text.Digit

/-!
# Tokens of TOML

The scanner cuts a TOML text into tokens in one fold over its characters. Strings are decoded
on the way, comments are checked and dropped, and unquoted keys and values are left as they
are (`Token.atom`), since only their place in the document says what they are.

Blanks are tokens because brackets of a table array have to touch and because a blank may
stand between a date and a time. A carriage return is only allowed before a line feed, and no
control character but the tab is allowed anywhere.
-/

namespace ContractQuery.Toml

/-- The smallest parts of a TOML text. -/
inductive Token where
  | dot
  | equals
  | comma
  | openSquare
  | closeSquare
  | openCurly
  | closeCurly
  | newline
  | blank (written : String)
  | string (s : String)
  | block (s : String)
  | atom (written : String)
  deriving DecidableEq, Repr

/-! ### Strings -/

/-- Where the scanner is in a string. -/
inductive Mode where
  /-- At the very start of a block, where a line end is dropped. -/
  | fresh
  /-- The same, after a carriage return. -/
  | freshReturn
  | plain
  /-- After a carriage return in a block. -/
  | carriage
  /-- After a backslash. -/
  | escape
  /-- In a numeric escape. -/
  | hex (missing value : Nat)
  /-- After a backslash and blanks, before the end of the line. -/
  | lineEnd
  /-- The same, after a carriage return. -/
  | lineEndReturn
  /-- In the white space that a backslash at a line end drops. -/
  | trim
  /-- The same, after a carriage return. -/
  | trimReturn
  deriving DecidableEq, Repr

/-- A string that is being scanned: its quote, whether it is a block, its characters so far,
last first, and how many quotes were seen since that may close a block. -/
structure Body where
  quote : Char
  block : Bool
  seen : List Char
  mode : Mode
  run : Nat
  deriving DecidableEq, Repr

/-- Whether a character may stand in a string or a comment. -/
def isVisible (c : Char) : Bool := c == '\t' || (' ' ≤ c && c != '\x7f')

/-- The character of a code point that is one. -/
def scalarValue? (n : Nat) : Option Char :=
  if n < 0xD800 ∨ (0xDFFF < n ∧ n ≤ 0x10FFFF) then some (Char.ofNat n) else none

namespace Body

/-- Appends a character. -/
def push (b : Body) (c : Char) : Body := { b with seen := c :: b.seen, mode := .plain }

/-- Takes up a character that is neither part of an escape nor a closing quote. -/
def content? (b : Body) (c : Char) : Option Body :=
  if c = '\\' ∧ b.quote = '"' then some { b with mode := .escape }
  else if c = '\n' ∧ b.block then some (b.push c)
  else if c = '\r' ∧ b.block then some { b with mode := .carriage }
  else if isVisible c then some (b.push c)
  else none

/-- Takes up the character after a backslash. -/
def escape? (b : Body) (c : Char) : Option Body :=
  match c with
  | 'b' => some (b.push '\x08')
  | 't' => some (b.push '\t')
  | 'n' => some (b.push '\n')
  | 'f' => some (b.push '\x0c')
  | 'r' => some (b.push '\r')
  | 'e' => some (b.push '\x1b')
  | '"' => some (b.push '"')
  | '\\' => some (b.push '\\')
  | 'x' => some { b with mode := .hex 2 0 }
  | 'u' => some { b with mode := .hex 4 0 }
  | 'U' => some { b with mode := .hex 8 0 }
  | ' ' | '\t' => if b.block then some { b with mode := .lineEnd } else none
  | '\n' => if b.block then some { b with mode := .trim } else none
  | '\r' => if b.block then some { b with mode := .lineEndReturn } else none
  | _ => none

/-- Takes up a character that does not close the string. -/
def step? (b : Body) (c : Char) : Option Body :=
  match b.mode with
  | .fresh =>
    if c = '\n' then some { b with mode := .plain }
    else if c = '\r' then some { b with mode := .freshReturn }
    else b.content? c
  | .freshReturn => if c = '\n' then some { b with mode := .plain } else none
  | .plain => b.content? c
  | .carriage => if c = '\n' then some ((b.push '\r').push '\n') else none
  | .escape => b.escape? c
  | .hex missing value => do
    let value := value * 16 + (← Text.digit? 16 c)
    if missing ≤ 1 then return b.push (← scalarValue? value)
    else return { b with mode := .hex (missing - 1) value }
  | .lineEnd =>
    if c = ' ' ∨ c = '\t' then some b
    else if c = '\n' then some { b with mode := .trim }
    else if c = '\r' then some { b with mode := .lineEndReturn }
    else none
  | .lineEndReturn => if c = '\n' then some { b with mode := .trim } else none
  | .trim =>
    if c = ' ' ∨ c = '\t' ∨ c = '\n' then some b
    else if c = '\r' then some { b with mode := .trimReturn }
    else b.content? c
  | .trimReturn => if c = '\n' then some { b with mode := .trim } else none

/-- Whether a quote may close the string here. -/
def atQuote (b : Body) : Bool :=
  match b.mode with
  | .fresh | .plain | .trim => true
  | _ => false

/-- The token of the string, with `extra` quotes at its end. -/
def token (b : Body) (extra : Nat) : Token :=
  let s := String.ofList (List.replicate extra b.quote ++ b.seen).reverse
  if b.block then .block s else .string s

end Body

/-! ### The scanner -/

/-- Where the scanner is. -/
inductive Scan where
  | between
  /-- After a carriage return. -/
  | carriage
  | blank (seen : List Char)
  | atom (seen : List Char)
  | comment
  /-- After one opening quote. -/
  | opened (quote : Char)
  /-- After two quotes, which are an empty string unless a third follows. -/
  | paired (quote : Char)
  | body (b : Body)
  deriving DecidableEq, Repr

/-- The token of a single character. -/
def mark? : Char → Option Token
  | '.' => some .dot
  | '=' => some .equals
  | ',' => some .comma
  | '[' => some .openSquare
  | ']' => some .closeSquare
  | '\x7b' => some .openCurly
  | '\x7d' => some .closeCurly
  | '\n' => some .newline
  | _ => none

namespace Scan

/-- Takes up one character between tokens. -/
def start (tokens : List Token) (c : Char) : List Token × Scan :=
  match mark? c with
  | some t => (t :: tokens, between)
  | none =>
    if c = '\r' then (tokens, carriage)
    else if c = ' ' ∨ c = '\t' then (tokens, blank [c])
    else if c = '#' then (tokens, comment)
    else if c = '"' ∨ c = '\x27' then (tokens, opened c)
    else (tokens, atom [c])

/-- Whether a character ends an unquoted key or value. -/
def endsAtom (c : Char) : Bool :=
  (mark? c).isSome || c == '\r' || c == ' ' || c == '\t' || c == '#' || c == '"' || c == '\x27'

/-- Takes up one character in a string. -/
def bodyStep? (tokens : List Token) (b : Body) (c : Char) : Option (List Token × Scan) :=
  if b.atQuote && c == b.quote then
    if !b.block then some (b.token 0 :: tokens, between)
    else if b.run = 4 then some (b.token 2 :: tokens, between)
    else some (tokens, body { b with run := b.run + 1 })
  else if 3 ≤ b.run then some (start (b.token (b.run - 3) :: tokens) c)
  else if b.run = 0 then do return (tokens, body (← b.step? c))
  else do
    let quotes := List.replicate b.run b.quote
    let b := { b with seen := quotes ++ b.seen, mode := .plain, run := 0 }
    return (tokens, body (← b.step? c))

/-- Takes up one character. -/
def step? : List Token × Scan → Char → Option (List Token × Scan)
  | (tokens, between), c => some (start tokens c)
  | (tokens, carriage), c => if c = '\n' then some (.newline :: tokens, between) else none
  | (tokens, blank seen), c =>
    if c = ' ' ∨ c = '\t' then some (tokens, blank (c :: seen))
    else some (start (.blank (String.ofList seen.reverse) :: tokens) c)
  | (tokens, atom seen), c =>
    if endsAtom c then some (start (.atom (String.ofList seen.reverse) :: tokens) c)
    else some (tokens, atom (c :: seen))
  | (tokens, comment), c =>
    if c = '\n' then some (.newline :: tokens, between)
    else if c = '\r' then some (tokens, carriage)
    else if isVisible c then some (tokens, comment)
    else none
  | (tokens, opened quote), c =>
    if c = quote then some (tokens, paired quote)
    else bodyStep? tokens ⟨quote, false, [], .plain, 0⟩ c
  | (tokens, paired quote), c =>
    if c = quote then some (tokens, body ⟨quote, true, [], .fresh, 0⟩)
    else some (start (.string "" :: tokens) c)
  | (tokens, body b), c => bodyStep? tokens b c

/-- Closes what is being scanned at the end of the text. -/
def flush? (tokens : List Token) : Scan → Option (List Token)
  | between | comment => some tokens
  | .carriage => none
  | blank seen => some (.blank (String.ofList seen.reverse) :: tokens)
  | atom seen => some (.atom (String.ofList seen.reverse) :: tokens)
  | opened _ => none
  | paired _ => some (.string "" :: tokens)
  | body b => if 3 ≤ b.run then some (b.token (b.run - 3) :: tokens) else none

end Scan

/-- The tokens of a text, in order. A byte order mark at the start is skipped. -/
def Token.scan? (s : String) : Option (List Token) := do
  let cs :=
    match s.toList with
    | '\ufeff' :: rest => rest
    | cs => cs
  let (tokens, scan) ← cs.foldlM Scan.step? ([], .between)
  return (← scan.flush? tokens).reverse

end ContractQuery.Toml
