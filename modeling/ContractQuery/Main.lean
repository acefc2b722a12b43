import ContractQuery.Command.Run
import ContractQuery.Concrete.OfJson

/-!
# The Program

Reads the files that a command line may need and runs the command on them. The concrete tree
of a Solidity file is expected beside it, as rows in a file whose name has `.cst.json`
appended.
-/

namespace ContractQuery.Command

/-- The paths that a command line may read. -/
def Invocation.paths (i : Invocation) (environment : Option String) : List String :=
  let sources :=
    match i.task with
    | .functions source _ => [source]
    | .covered source _ => [source]
    | .compare first second _ => [first, second]
  i.options.config.toList ++ environment.toList ++ [Settings.fileName] ++ sources

/-- Why reading failed. -/
def readErrorOf : IO.Error → ReadError
  | .inappropriateType _ code _ => if code == 20 then .notDirectory else .isDirectory
  | _ => .notFound

/-- Reads a file and the concrete tree beside it. -/
def readPath (path : String) : IO (Except ReadError File) := do
  try
    let bytes ← IO.FS.readBinFile path
    let rows ←
      try
        let text ← IO.FS.readFile (path ++ ".cst.json")
        pure ((Json.parse text).toOption.bind Concrete.ofJson?)
      catch _ => pure none
    return .ok ⟨bytes, rows⟩
  catch e => return .error (readErrorOf e)

/-- Reads beforehand what a command line may need. -/
def surroundings (args : List String) : IO Surroundings := do
  let environment ← IO.getEnv Settings.variableName
  let directory ← IO.currentDir
  let paths :=
    match Invocation.parse args with
    | .ok i => i.paths environment
    | .error _ => []
  let reads ← paths.mapM fun path => return (path, ← readPath path)
  return ⟨.ofReads reads, directory.toString, environment⟩

end ContractQuery.Command

/-- Runs the command that the arguments describe. -/
def main (args : List String) : IO UInt32 := do
  let result := ContractQuery.Command.run (← ContractQuery.Command.surroundings args) args
  (← IO.getStdout).putStr result.output
  (← IO.getStderr).putStr result.errors
  return result.code.toUInt32
