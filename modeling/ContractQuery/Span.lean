/-!
# Points and Spans

A point is a line with an optional column; a point without a column stands for its whole
line. `Point.compare` goes by line and then by column, and a missing column agrees with
every column of its line, so it is a test for queries and not an order: agreeing is not
transitive.

A span has two end points, both included. `Span.contains` and `Span.intersects` are
phrased through `Point.compare`, so they also read whole-line points and spans whose
start lies after their end.
-/

namespace ContractQuery

/-- A source coordinate. Lines count from one, columns from zero. -/
structure Point where
  line : Nat
  column : Option Nat
  deriving DecidableEq, Repr, Inhabited

namespace Point

/-- The point that stands for every column of `line`. -/
def wholeLine (line : Nat) : Point := ⟨line, none⟩

/-- By line, then by column; a missing column agrees with every column. -/
def compare (p q : Point) : Ordering :=
  match Ord.compare p.line q.line with
  | .eq =>
    match p.column, q.column with
    | some c, some d => Ord.compare c d
    | _, _ => .eq
  | order => order

end Point

/-- A range of points with both ends included. -/
structure Span where
  start : Point
  stop : Point
  deriving DecidableEq, Repr, Inhabited

namespace Span

/-- The span of a single point. -/
def ofPoint (p : Point) : Span := ⟨p, p⟩

/-- All columns of the lines from `first` to `last`. -/
def lines (first last : Nat) : Span := ⟨.wholeLine first, .wholeLine last⟩

/-- Whether a point is neither before the start nor after the end. -/
def contains (s : Span) (p : Point) : Bool :=
  p.compare s.start != .lt && p.compare s.stop != .gt

/-- Whether one of the two spans starts inside the other. -/
def intersects (a b : Span) : Bool :=
  b.contains a.start || a.contains b.start

/-- Intersection does not depend on the order of the spans. -/
theorem intersects_comm (a b : Span) : a.intersects b = b.intersects a :=
  Bool.or_comm ..

end Span

end ContractQuery
