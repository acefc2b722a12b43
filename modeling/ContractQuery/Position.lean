/-!
# Positions

A position says how far into a text one is: in which row, and after how many bytes of that
row. Both count from zero.
-/

namespace ContractQuery

/-- A place in a text. Rows and columns count from zero, columns in bytes. -/
structure Position where
  row : Nat
  column : Nat
  deriving DecidableEq, Repr, Inhabited

namespace Position

/-- The position at the start of a text. -/
def origin : Position := ⟨0, 0⟩

/-- The position after some bytes of a character. A line feed leads into the next row. -/
def afterBytes (p : Position) (c : Char) (count : Nat) : Position :=
  if c = '\n' then ⟨p.row + 1, 0⟩ else ⟨p.row, p.column + count⟩

/-- The position after a character. -/
def after (p : Position) (c : Char) : Position := p.afterBytes c c.utf8Size

/-- The position after several characters. -/
def afterAll (p : Position) (cs : List Char) : Position := cs.foldl after p

end Position

end ContractQuery
