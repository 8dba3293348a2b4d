import Chronogram.Check.Listing
import Chronogram.CommandLine.Arguments
import Chronogram.Datum.Json
import Chronogram.Imports

/-! The commands: what a command line asks for, and what a run prints and writes. -/

namespace Chronogram

namespace CommandLine

inductive Command where
  | check (input : String) (json quiet : Bool) (exportTo : Option String) (jobs : Int)
  | listPrimitives (name : Option String) (json : Bool)
  deriving DecidableEq, Repr

def helpOptions : Options := [("-h", .help), ("--help", .help)]

def checkOptions : Options :=
  helpOptions ++ [("--json", .json), ("--export", .exportTo), ("--jobs", .jobs), ("-j", .jobs),
    ("--quiet", .quiet), ("-q", .quiet), ("--verbose", .verbose), ("-v", .verbose)]

def listOptions : Options := helpOptions ++ [("--json", .json)]

def Arguments.toCheck? (a : Arguments) : Option Command :=
  match a.values with
  | [input] =>
    some (.check input (a.has .json) (a.has .quiet) ((a.last? .exportTo).filter (!·.isEmpty))
      (((a.last? .jobs).bind Text.whole?).getD 1))
  | _ => none

def Arguments.toListPrimitives? (a : Arguments) : Option Command :=
  match a.values with
  | [] => some (.listPrimitives none (a.has .json))
  | [name] => some (.listPrimitives (if name.isEmpty then none else some name) (a.has .json))
  | _ => none

def readCommand (options : Options) (toCommand? : Arguments → Option Command)
    (args : List String) : Asked Command :=
  match classifyAll options args with
  | none => .wrong
  | some words =>
    match gather options {} false words with
    | .given a => (toCommand? a).elim .wrong .given
    | .help => .help
    | .wrong => .wrong

/-- Reads the command line: a command and its arguments. In front of the command there is nothing but
a wish for help. -/
def read : List String → Asked Command
  | [] => .wrong
  | arg :: rest =>
    if arg == "check" then readCommand checkOptions Arguments.toCheck? rest
    else if arg == "list-primitives" then readCommand listOptions Arguments.toListPrimitives? rest
    else if arg == "--" then .wrong
    else
      match classify helpOptions arg with
      | some .unknownOption =>
        match read rest with
        | .help => .help
        | _ => .wrong
      | some (.option effect attached) =>
        match gather helpOptions {} false [.option effect attached] with
        | .help => .help
        | _ => .wrong
      | _ => .wrong

structure Run where
  code : Nat
  output : String
  written : List (Path × String) := []

def line (s : String) : String := s ++ "\n"

structure Setup where
  library : List Signature := Primitives.core
  loader : Loader := .standard
  search : Hierarchy.Search := Hierarchy.cycle?

def check (files : Files) (dir : Path) (input : String) (json quiet : Bool)
    (exportTo : Option String) (setup : Setup := {}) : Except CheckFailure Run :=
  match files.load (setup.loader.resolve dir input) setup.loader with
  | .error .wrongKind => .error (.fault .wrongKind)
  | .error cause =>
    let message := cause.message
    return { code := 1
             output := line (if json then
               (Datum.object [("success", .bool false), ("error", .str message)]).json
               else "Error: " ++ message) }
  | .ok design => do
    let report ← design.check setup.library setup.search
    let output :=
      if json then
        line ((Datum.object (("success", .bool report.isOk) :: report.entries)).jsonIndented 0)
      else report.listing (!quiet)
    return { code := if report.isOk then 0 else 1
             output
             written := exportTo.toList.map fun p => (setup.loader.resolve dir p, report.exportText) }

def listPrimitives (library : List Signature) (name : Option String) (json : Bool) : Run :=
  if json then
    let infos := Datum.list (library.map Primitives.info)
    { code := 0, output := line (Datum.object [("success", .bool true), ("primitives", infos)]).json }
  else
    match name with
    | some n =>
      match Primitives.find? library n with
      | some s =>
        { code := 0
          output := line ("\n" ++ s.name ++ " - " ++ s.description) ++
            line ("\n  " ++ s.declaration) }
      | none =>
        { code := 1
          output := line ("Error: Unknown primitive: " ++ n) ++
            line ("Available: " ++ Text.commas (library.map (·.name))) }
    | none =>
      { code := 0
        output := line "\nAvailable primitives:" ++
          Text.joined "" (library.map fun s =>
            line ("  " ++ Text.padded 12 s.name ++ " - " ++ s.description)) ++
          line "\nUse 'list-primitives <NAME>' for the full signature" }

/-- Runs a command. Relative paths are seen from a directory. -/
def run (files : Files) (dir : Path) (command : Command) (setup : Setup := {}) : Except CheckFailure Run :=
  match command with
  | .check input json quiet exportTo jobs =>
    if jobs < 1 then return { code := 1, output := line "Error: --jobs must be at least 1" }
    else check files dir input json quiet exportTo setup
  | .listPrimitives name json => return listPrimitives setup.library name json

end CommandLine

end Chronogram
