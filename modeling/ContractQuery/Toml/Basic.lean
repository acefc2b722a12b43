import ContractQuery.Record

/-!
# TOML Values

The values of a TOML document. Numbers, dates and times are kept as they are written.
-/

namespace ContractQuery

/-- A TOML value. -/
inductive Toml where
  | text (s : String)
  | bool (b : Bool)
  | number (written : String)
  | moment (written : String)
  | array (items : List Toml)
  | table (entries : List (String × Toml))
  deriving Repr, Inhabited

namespace Toml

/-- How a table of a document came to be: by its own header, by a longer header, or by a
dotted key. -/
inductive Origin where
  | header
  | implied
  | dotted
  deriving DecidableEq, Repr

/-- A table under construction holds complete values, tables, and arrays of tables, the last
table first. -/
inductive Cell where
  | value (t : Toml)
  | table (origin : Origin) (entries : List (String × Cell))
  | tables (elements : List Cell)
  deriving Repr, Inhabited

/-- A table under construction. -/
structure Table where
  origin : Origin
  entries : Record Cell
  deriving Repr

namespace Cell

mutual

/-- The value of a cell. -/
def toToml : Cell → Toml
  | value t => t
  | table _ entries => .table (entriesToToml entries)
  | tables elements => .array (elementsToToml elements [])

/-- The values of named cells. -/
def entriesToToml : List (String × Cell) → List (String × Toml)
  | [] => []
  | (name, c) :: rest => (name, c.toToml) :: entriesToToml rest

/-- The values of cells, in reverse order and in front of others. -/
def elementsToToml : List Cell → List Toml → List Toml
  | [], done => done
  | c :: rest, done => elementsToToml rest (c.toToml :: done)

end

end Cell

namespace Table

/-- An empty table. -/
def empty (origin : Origin) : Table := ⟨origin, []⟩

/-- The table as a cell. -/
def toCell (t : Table) : Cell := .table t.origin t.entries

/-- Changes the table that a path of names leads to. Tables that the path lacks are made; a
path ends at complete values, and goes to the last table of an array. A dotted key may not go
through a table that has its own header. -/
def update? (dotted : Bool) (change : Table → Option Table) :
    List String → Table → Option Table
  | [], t => change t
  | name :: rest, t => do
    let put (c : Cell) : Table := { t with entries := Record.insert t.entries name c }
    match Record.get? t.entries name with
    | none =>
      let made ← update? dotted change rest (empty (if dotted then .dotted else .implied))
      return put made.toCell
    | some (.table origin entries) =>
      if dotted && origin == .header then none
      else return put (← update? dotted change rest ⟨origin, entries⟩).toCell
    | some (.tables (.table origin entries :: before)) =>
      return put (.tables ((← update? dotted change rest ⟨origin, entries⟩).toCell :: before))
    | some _ => none

/-- Adds a value under a dotted key. The table that gets the value is one that dotted keys
made, unless the key has no dots. -/
def add? (t : Table) (path : List String) (name : String) (v : Toml) : Option Table :=
  update? true (fun t =>
    if (t.origin == .dotted) == path.isEmpty || Record.has t.entries name then none
    else some { t with entries := Record.insert t.entries name (.value v) }) path t

/-- Opens a table by its header: a new one, or one that so far was only implied. -/
def openTable? (t : Table) (path : List String) (name : String) : Option Table :=
  update? false (fun t =>
    let put (entries : Record Cell) : Table :=
      { t with entries := Record.insert t.entries name (.table .header entries) }
    match Record.get? t.entries name with
    | none => some (put [])
    | some (.table .implied entries) => some (put entries)
    | some _ => none) path t

/-- Opens the next table of an array of tables. -/
def openElement? (t : Table) (path : List String) (name : String) : Option Table :=
  update? false (fun t =>
    let put (elements : List Cell) : Table :=
      { t with entries := Record.insert t.entries name (.tables elements) }
    match Record.get? t.entries name with
    | none => some (put [(empty .header).toCell])
    | some (.tables elements) => some (put ((empty .header).toCell :: elements))
    | some _ => none) path t

/-- The value of a table. -/
def toToml (t : Table) : Toml := t.toCell.toToml

end Table

end Toml

end ContractQuery
