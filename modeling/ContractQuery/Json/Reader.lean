import ContractQuery.Json.Fault
import ContractQuery.Json.Numeral

/-!
# Reading JSON

Reading is one fold over the characters of a text. The reader knows what may come next and
which containers are still open (`Json.Draft`), what it is in the middle of (`Json.Scan`), and
how far it has come, so that it stops at the first character that cannot follow and can tell
what was expected there.

The grammar is the strict one: blanks are space, tab, line feed and carriage return; there
are no comments and no trailing commas; control characters in a string are written as
escapes, and escaped surrogates come in pairs. Containers nest up to `depthLimit` levels. A
name that an object repeats keeps its first place and takes its last value.
-/

namespace ContractQuery

namespace Json

/-! ### Open containers -/

/-- How many containers may be open at once. -/
def depthLimit : Nat := 127

/-- A container that is still open: an array with its items, last first, or an object with its
entries and the name that was read last. -/
inductive Frame where
  | items (done : List Json)
  | entries (done : Record Json) (name : String)
  deriving Repr

/-- What may come next. -/
inductive Stage where
  | value
  | item
  | itemOrClose
  | name
  | nameOrClose
  | colon
  | separator
  | finished (j : Json)
  deriving Repr

/-- A document of which some parts have been read. -/
structure Draft where
  stage : Stage
  stack : List Frame
  deriving Repr

namespace Draft

/-- A document of which nothing has been read. -/
def blank : Draft := ⟨.value, []⟩

/-- Puts a complete value into the innermost open container. -/
def complete (j : Json) : List Frame → Draft
  | [] => ⟨.finished j, []⟩
  | .items done :: stack => ⟨.separator, .items (j :: done) :: stack⟩
  | .entries done name :: stack => ⟨.separator, .entries (Record.insert done name j) name :: stack⟩

/-- Closes the innermost open container. -/
def close (d : Draft) : Draft :=
  match d.stack with
  | [] => d
  | .items done :: stack => complete (.array done.reverse) stack
  | .entries done _ :: stack => complete (.object done) stack

/-- Opens a container, unless too many are open. -/
def enter (d : Draft) (stage : Stage) (frame : Frame) : Except Fault Draft :=
  if d.stack.length < depthLimit then .ok ⟨stage, frame :: d.stack⟩ else .error .tooDeep

/-- Takes up a string, which is a name or a value. -/
def text (d : Draft) (s : String) : Draft :=
  match d.stage, d.stack with
  | .name, .entries done _ :: stack => ⟨.colon, .entries done s :: stack⟩
  | .nameOrClose, .entries done _ :: stack => ⟨.colon, .entries done s :: stack⟩
  | _, stack => complete (.text s) stack

/-- The value of a document that ends here. -/
def finish (d : Draft) : Except Fault Json :=
  match d.stage, d.stack with
  | .finished j, _ => .ok j
  | .itemOrClose, _ => .error .endInArray
  | .nameOrClose, _ => .error .endInObject
  | .colon, _ => .error .endInObject
  | .separator, .items _ :: _ => .error .endInArray
  | .separator, .entries _ _ :: _ => .error .endInObject
  | _, _ => .error .endInValue

end Draft

/-! ### Characters -/

/-- What the reader is in the middle of: nothing, a word, a numeral, or a string. Characters of
a string are kept last first. -/
inductive Scan where
  | between
  /-- In a word, before a letter and others after it. -/
  | word (next : Char) (missing : List Char) (j : Json)
  | numeral (n : Numeral) (stage : Numeral.Stage)
  | string (seen : List Char)
  /-- After a backslash. -/
  | escape (seen : List Char)
  /-- In an escaped UTF-16 unit, after a high surrogate if there was one. Some bytes are missing,
  and there is no value if one of the others was not a digit. -/
  | unit (seen : List Char) (high : Option Nat) (missing : Nat) (value : Option Nat)
  /-- After an escaped high surrogate. -/
  | high (seen : List Char) (n : Nat)
  /-- After an escaped high surrogate and a backslash. -/
  | highEscape (seen : List Char) (n : Nat)
  deriving Repr

/-- A document that is being read. -/
structure Reader where
  draft : Draft
  scan : Scan
  position : Position
  deriving Repr

/-- Whether a character may stand between any two parts of a document. -/
def isBlank (c : Char) : Bool := c == ' ' || c == '\t' || c == '\n' || c == '\r'

/-- The character that a one-letter escape stands for. -/
def escaped? : Char → Option Char
  | '"' => some '"'
  | '\\' => some '\\'
  | '/' => some '/'
  | 'b' => some '\x08'
  | 'f' => some '\x0c'
  | 'n' => some '\n'
  | 'r' => some '\r'
  | 't' => some '\t'
  | _ => none

/-- Starts a value. -/
def Draft.start (d : Draft) (c : Char) : Except Fault (Draft × Scan) :=
  match c with
  | '[' => return (← d.enter .itemOrClose (.items []), .between)
  | '\x7b' => return (← d.enter .nameOrClose (.entries [] ""), .between)
  | '"' => .ok (d, .string [])
  | 'n' => .ok (d, .word 'u' ['l', 'l'] .null)
  | 't' => .ok (d, .word 'r' ['u', 'e'] (.bool true))
  | 'f' => .ok (d, .word 'a' ['l', 's', 'e'] (.bool false))
  | c =>
    match Numeral.start? c with
    | some (n, stage) => .ok (d, .numeral n stage)
    | none => .error .noValue

/-- Takes up a character that is not blank where nothing else is being read. -/
def Draft.next (d : Draft) (c : Char) : Except Fault (Draft × Scan) :=
  match d.stage, d.stack with
  | .value, _ => d.start c
  | .itemOrClose, _ => if c = ']' then .ok (d.close, .between) else d.start c
  | .item, _ => if c = ']' then .error .trailingComma else d.start c
  | .nameOrClose, _ =>
    if c = '\x7d' then .ok (d.close, .between)
    else if c = '"' then .ok (d, .string [])
    else .error .nameNotText
  | .name, _ =>
    if c = '"' then .ok (d, .string [])
    else if c = '\x7d' then .error .trailingComma
    else .error .nameNotText
  | .colon, stack => if c = ':' then .ok (⟨.value, stack⟩, .between) else .error .noColon
  | .separator, .entries done name :: stack =>
    if c = ',' then .ok (⟨.name, .entries done name :: stack⟩, .between)
    else if c = '\x7d' then .ok (d.close, .between)
    else .error .noObjectSeparator
  | .separator, stack =>
    if c = ',' then .ok (⟨.item, stack⟩, .between)
    else if c = ']' then .ok (d.close, .between)
    else .error .noArraySeparator
  | .finished _, _ => .error .trailingCharacters

/-- Takes up any character where nothing else is being read. -/
def Draft.between (d : Draft) (c : Char) : Except Fault (Draft × Scan) :=
  if isBlank c then .ok (d, .between) else d.next c

/-- Takes up an escaped unit, after a high surrogate if there was one. High and low surrogates
only come together. -/
def Scan.unitDone (seen : List Char) (high : Option Nat) (n : Nat) : Except Fault Scan :=
  let isLow : Bool := 0xDC00 ≤ n ∧ n ≤ 0xDFFF
  match high with
  | some m =>
    if isLow then
      .ok (.string (Char.ofNat (0x10000 + (m - 0xD800) * 0x400 + (n - 0xDC00)) :: seen))
    else .error .loneSurrogate
  | none =>
    if isLow then .error .loneSurrogate
    else if 0xD800 ≤ n ∧ n ≤ 0xDBFF then .ok (.high seen n)
    else .ok (.string (Char.ofNat n :: seen))

namespace Reader

/-- A reader that has read nothing. -/
def blank : Reader := ⟨.blank, .between, .origin⟩

/-- The reader after one more character, unless there is a fault. A fault is noticed with the
first byte of a character. -/
def advance (r : Reader) (c : Char) (next : Except Fault (Draft × Scan)) :
    Except ParseError Reader :=
  match next with
  | .ok (draft, scan) => .ok ⟨draft, scan, r.position.after c⟩
  | .error fault => .error ⟨fault, r.position.afterBytes c 1⟩

/-- The draft with the value of a numeral that has ended. -/
def numeralDone (r : Reader) (n : Numeral) : Except ParseError Draft :=
  match n.value? with
  | some x => .ok (.complete (.number x) r.draft.stack)
  | none => .error ⟨.outOfRange, r.position⟩

/-- Takes up one character. -/
def step (r : Reader) (c : Char) : Except ParseError Reader :=
  let d := r.draft
  match r.scan with
  | .between => r.advance c (d.between c)
  | .word next missing j =>
    r.advance c (
      if c ≠ next then .error .noWord
      else
        match missing with
        | [] => .ok (.complete j d.stack, .between)
        | e :: missing => .ok (d, .word e missing j))
  | .numeral n stage =>
    match n.step stage c with
    | .more n stage => r.advance c (.ok (d, .numeral n stage))
    | .ended => do r.advance c ((← r.numeralDone n).between c)
    | .invalid => r.advance c (.error .badNumber)
    | .outOfRange => r.advance c (.error .outOfRange)
  | .string seen =>
    r.advance c (
      if c = '"' then .ok (d.text (String.ofList seen.reverse), .between)
      else if c = '\\' then .ok (d, .escape seen)
      else if c < ' ' then .error .controlCharacter
      else .ok (d, .string (c :: seen)))
  | .escape seen =>
    r.advance c (
      if c = 'u' then .ok (d, .unit seen none 4 (some 0))
      else
        match escaped? c with
        | some e => .ok (d, .string (e :: seen))
        | none => .error .badEscape)
  | .unit seen high missing value =>
    let value := value.bind fun v => (Text.digit? 16 c).map (v * 16 + ·)
    if c.utf8Size < missing then
      r.advance c (.ok (d, .unit seen high (missing - c.utf8Size) value))
    else
      match value with
      | some n => r.advance c ((Scan.unitDone seen high n).map (d, ·))
      | none => .error ⟨.badEscape, r.position.afterBytes c missing⟩
  | .high seen n =>
    r.advance c (if c = '\\' then .ok (d, .highEscape seen n) else .error .unpairedSurrogate)
  | .highEscape seen n =>
    r.advance c (
      if c = 'u' then .ok (d, .unit seen (some n) 4 (some 0)) else .error .unpairedSurrogate)

/-- The value of a text that ends here. -/
def finish (r : Reader) : Except ParseError Json :=
  let located (found : Except Fault Json) : Except ParseError Json :=
    found.mapError (⟨·, r.position⟩)
  match r.scan with
  | .between => located r.draft.finish
  | .word .. => located (.error .endInValue)
  | .numeral n stage =>
    if stage.isComplete then do located (← r.numeralDone n).finish
    else located (.error .endInValue)
  | _ => located (.error .endInString)

end Reader

/-- The value that a text denotes. -/
def parse (s : String) : Except ParseError Json := do
  (← s.toList.foldlM Reader.step .blank).finish

end Json

end ContractQuery
