import ContractQuery.Concrete.Basic
import ContractQuery.Format
import ContractQuery.Record

/-!
# Files

What a program sees of a file system: the file at a path, or why there is none. A Solidity
file comes with the concrete tree that the grammar makes of it.

`Disk.ofFiles` is the disk on which some files stand below the working directory. A path is
followed part by part: an empty part and a single dot stay, two dots go up, a name goes down.
Only a directory can be gone on from, and what lies above the working directory is not known.
-/

namespace ContractQuery

/-- A file: its bytes, and the concrete tree of its text if it is Solidity. -/
structure File where
  bytes : ByteArray
  concrete : Option Concrete
  deriving Inhabited

/-- Why a file cannot be read. -/
inductive ReadError where
  | notFound
  | notDirectory
  | isDirectory
  | notText
  deriving DecidableEq, Repr

/-- The text of a read error. -/
def ReadError.message : ReadError → String
  | notFound => "No such file or directory (os error 2)"
  | notDirectory => "Not a directory (os error 20)"
  | isDirectory => "Is a directory (os error 21)"
  | notText => "stream did not contain valid UTF-8"

/-- The files that a program can read, by path. -/
structure Disk where
  read : String → Except ReadError File

namespace Disk

/-- Whether there is a file at a path. -/
def isFile (d : Disk) (path : String) : Bool := (d.read path).isOk

/-- The text of the file at a path, and the concrete tree that comes with it. -/
def readText (d : Disk) (path : String) : Except ReadError (String × Option Concrete) := do
  let file ← d.read path
  match String.fromUTF8? file.bytes with
  | some text => return (text, file.concrete)
  | none => .error .notText

/-- The disk that holds what was read beforehand, by path. -/
def ofReads (reads : Record (Except ReadError File)) : Disk :=
  ⟨fun path => (Record.get? reads path).getD (.error .notFound)⟩

/-! ### Files below the working directory -/

/-- Where a path has led so far. -/
inductive Arrival where
  | file (f : File)
  | directory (below : List String)
  | outside

/-- Follows one part of a path, on a disk with the given files. -/
def follow (files : List (List String × File)) : Arrival → String → Except ReadError Arrival
  | .file _, _ => .error .notDirectory
  | .directory below, part =>
    if part = "" ∨ part = "." then .ok (.directory below)
    else if part = ".." then
      if below.isEmpty then .ok .outside else .ok (.directory below.dropLast)
    else
      let next := below ++ [part]
      match files.find? (·.1 == next) with
      | some (_, f) => .ok (.file f)
      | none =>
        if files.any (next.isPrefixOf ·.1) then .ok (.directory next) else .error .notFound
  | .outside, part =>
    if part = "" ∨ part = "." ∨ part = ".." then .ok .outside else .error .notFound

/-- The disk on which files stand below the working directory, by their names. -/
def ofFiles (files : Record File) : Disk :=
  let split := files.map fun (name, f) => (FileName.parts name, f)
  ⟨fun path => do
    if path.isEmpty then .error .notFound
    let start : Arrival := if path.startsWith "/" then .outside else .directory []
    match ← (FileName.parts path).foldlM (follow split) start with
    | .file f => return f
    | _ => .error .isDirectory⟩

end Disk

end ContractQuery
