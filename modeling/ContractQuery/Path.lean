/-!
# Paths

A path leads from a node to a value below it. Each segment goes through a named field of
a node or through a position of a list.

Paths are ordered segment by segment: names before positions, names by their characters
and positions as numbers, and a path before its extensions. In descending order a path
therefore comes after everything below it and after its later siblings.
-/

namespace ContractQuery

/-- One step of a path. -/
inductive Segment where
  | field (name : String)
  | index (i : Nat)
  deriving DecidableEq, Repr, Inhabited

namespace Segment

/-- Names before positions. -/
def compare : Segment → Segment → Ordering
  | field a, field b => Ord.compare a b
  | index i, index j => Ord.compare i j
  | field _, index _ => .lt
  | index _, field _ => .gt

/-- A segment as it is shown in a message. -/
def text : Segment → String
  | field name => name
  | index i => toString i

end Segment

/-- The segments from a node to a value below it. -/
abbrev Path := List Segment

namespace Path

/-- Segment by segment; a path comes before its extensions. -/
def compare (p q : Path) : Ordering := List.compareLex Segment.compare p q

/-- A path as it is shown in a message. -/
def text : Path → String
  | [] => "<root>"
  | p => String.intercalate "." (p.map Segment.text)

/-- The paths in ascending order. -/
def ascending (ps : List Path) : List Path :=
  ps.mergeSort fun p q => (compare p q).isLE

/-- The paths in descending order. -/
def descending (ps : List Path) : List Path :=
  ps.mergeSort fun p q => (compare p q).isGE

end Path

end ContractQuery
