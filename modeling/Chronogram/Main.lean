import Chronogram.CommandLine.Command

/-! The program: reads the files that a command needs, runs it, and writes what it leaves. -/

namespace Chronogram

/-- The text of a file; nothing if there is no such file. -/
def readText? (path : Path) : IO (Option String) := do
  try
    return some (← IO.FS.readFile path.text)
  catch
    | .noFileOrDirectory .. => return none
    | e => throw e

/-- The paths that a file imports; none if it cannot be read. -/
def importedPaths (path : Path) (text : String) : List Path :=
  match Files.parseFile path.text text with
  | .ok file => file.imports.map fun entry => path.parent.resolve entry.path
  | .error _ => []

/-- Adds files to those that are known, together with all that they import. -/
partial def readAll (files : Files) : List Path → IO Files
  | [] => return files
  | path :: rest => do
    if (files.text? path).isSome then readAll files rest
    else
      match ← readText? path with
      | none => readAll files rest
      | some text => readAll ⟨files.entries ++ [(path, text)]⟩ (importedPaths path text ++ rest)

def writeText (path : Path) (text : String) : IO Unit := do
  IO.FS.createDirAll path.parent.text
  IO.FS.writeFile path.text text

def neededPaths (dir : Path) : CommandLine.Command → List Path
  | .check input .. => [dir.resolve input]
  | .listPrimitives .. => []

def runCommand (command : CommandLine.Command) : IO UInt32 := do
  let dir := Path.ofText (← IO.currentDir).toString
  let files ← readAll ⟨[]⟩ (neededPaths dir command)
  -- the library counts as a file beside the program, which designs may import as well
  let home := (Path.ofText (← IO.appPath).toString).parent
  match CommandLine.run files dir command { library := Primitives.core (home.resolve "core.yml").text } with
  | .error failure =>
    IO.eprintln failure.message
    return 1
  | .ok run =>
    for (path, text) in run.written do
      writeText path text
    IO.print run.output
    return run.code.toUInt32

end Chronogram

def main (args : List String) : IO UInt32 :=
  match Chronogram.CommandLine.read args with
  | .given command => Chronogram.runCommand command
  | .help => do
    IO.println "usage: check [--json] [--export FILE] [-j N] [-q] [-v] INPUT | list-primitives [--json] [NAME]"
    return 0
  | .wrong => do
    IO.eprintln "usage: check [--json] [--export FILE] [-j N] [-q] [-v] INPUT | list-primitives [--json] [NAME]"
    return 2
