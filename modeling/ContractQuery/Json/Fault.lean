import ContractQuery.Position

/-!
# What Is Wrong with a JSON Text

A text that is not JSON is rejected at the first place where it cannot go on as JSON. The
error names what is wrong there (`Json.Fault`) and the position that the reader had reached.
-/

namespace ContractQuery.Json

/-- What is wrong with a text. -/
inductive Fault where
  | endInArray
  | endInObject
  | endInString
  | endInValue
  | noColon
  | noArraySeparator
  | noObjectSeparator
  | noWord
  | noValue
  | badEscape
  | badNumber
  | outOfRange
  | controlCharacter
  | nameNotText
  | loneSurrogate
  | trailingComma
  | trailingCharacters
  | unpairedSurrogate
  | tooDeep
  deriving DecidableEq, Repr

/-- The text of a fault. -/
def Fault.text : Fault → String
  | endInArray => "EOF while parsing a list"
  | endInObject => "EOF while parsing an object"
  | endInString => "EOF while parsing a string"
  | endInValue => "EOF while parsing a value"
  | noColon => "expected `:`"
  | noArraySeparator => "expected `,` or `]`"
  | noObjectSeparator => "expected `,` or `\x7d`"
  | noWord => "expected ident"
  | noValue => "expected value"
  | badEscape => "invalid escape"
  | badNumber => "invalid number"
  | outOfRange => "number out of range"
  | controlCharacter => "control character (\\u0000-\\u001F) found while parsing a string"
  | nameNotText => "key must be a string"
  | loneSurrogate => "lone leading surrogate in hex escape"
  | trailingComma => "trailing comma"
  | trailingCharacters => "trailing characters"
  | unpairedSurrogate => "unexpected end of hex escape"
  | tooDeep => "recursion limit exceeded"

/-- Why a text is not JSON, and where. -/
structure ParseError where
  fault : Fault
  position : Position
  deriving DecidableEq, Repr

/-- The text of an error. Lines count from one. -/
def ParseError.message (e : ParseError) : String :=
  e.fault.text ++ " at line " ++ toString (e.position.row + 1) ++ " column "
    ++ toString e.position.column

end ContractQuery.Json
