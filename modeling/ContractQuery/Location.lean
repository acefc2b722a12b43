import ContractQuery.Json.Reader
import ContractQuery.Span.Decode

/-!
# Locations

A location is a place that a caller asks about: a point, or a range. `Location.ofJson`
decodes one, and `Location.parseAll` a text that lists several. An object with a `start` or
an `end` is a range, any other object a point, and no line of a location is zero.
-/

namespace ContractQuery

/-- A place in a source: one point, or a range. -/
inductive Location where
  | point (p : Point)
  | range (s : Span)
  deriving DecidableEq, Repr, Inhabited

/-- Why a value is not a location. -/
inductive LocationFault where
  | notJson (cause : Json.ParseError)
  | notObject (found : Json)
  | badRange (found : Json) (cause : DecodeError)
  | badPoint (found : Json) (cause : DecodeError)
  | lineZero
  deriving Repr

/-- Why a text is not a list of locations. -/
inductive LocationError where
  | notArray
  | malformed (fault : LocationFault)
  deriving Repr

/-- The text of a location fault. -/
def LocationFault.message : LocationFault → String
  | notJson cause => cause.message
  | notObject found => "expected an object, found `" ++ found.render ++ "`"
  | badRange found cause => "invalid range `" ++ found.render ++ "`: " ++ cause.message
  | badPoint found cause => "invalid point `" ++ found.render ++ "`: " ++ cause.message
  | lineZero => "line numbers start at 1"

/-- The text of a location error. -/
def LocationError.message : LocationError → String
  | notArray => "locations must be a JSON array of location objects"
  | malformed fault => "malformed location object: " ++ fault.message

namespace Location

/-- The range of a location; a point is a range of its own. -/
def toSpan : Location → Span
  | point p => .ofPoint p
  | range s => s

/-- Rejects a location that has a line zero. -/
def checkLines (l : Location) : Except LocationFault Location :=
  if l.toSpan.start.line = 0 ∨ l.toSpan.stop.line = 0 then .error .lineZero else .ok l

/-- Decodes one location. -/
def ofJson (j : Json) : Except LocationFault Location :=
  match j with
  | .object entries =>
    if Record.has entries "start" || Record.has entries "end" then
      match Decode.span j with
      | .ok s => checkLines (.range s)
      | .error e => .error (.badRange j e)
    else
      match Decode.point j with
      | .ok p => checkLines (.point p)
      | .error e => .error (.badPoint j e)
  | j => .error (.notObject j)

/-- Decodes locations in order, up to the first that is none. -/
def ofItems : List Json → Except LocationFault (List Location)
  | [] => .ok []
  | j :: rest => return (← ofJson j) :: (← ofItems rest)

/-- Decodes an array of locations. -/
def listOfJson : Json → Except LocationError (List Location)
  | .array items => (ofItems items).mapError .malformed
  | _ => .error .notArray

/-- Reads a text that lists locations. -/
def parseAll (text : String) : Except LocationError (List Location) :=
  match Json.parse text with
  | .ok j => listOfJson j
  | .error e => .error (.malformed (.notJson e))

end Location

end ContractQuery
