import Chronogram.Declaration.Basic

/-! The statements of a body: an instantiation names a resource, an invocation triggers it at given
times, a connection wires one port to another. -/

namespace Chronogram

/-- A port of the enclosing component, or of one of its invocations. -/
structure PortRef where
  invocation : Option String
  port : String
  deriving DecidableEq, Repr

namespace PortRef

def isLocal (r : PortRef) : Bool := r.invocation.isNone

def text (r : PortRef) : String :=
  match r.invocation with
  | some i => if i.isEmpty then r.port else i ++ "." ++ r.port
  | none => r.port

/-- Reads a reference by splitting at the first dot; nothing behind the dot means no invocation. -/
def ofText (s : String) : PortRef :=
  let cs := (Text.trim s).toList
  let head := String.ofList (cs.takeWhile (· != '.'))
  let tail := String.ofList ((cs.dropWhile (· != '.')).drop 1)
  if tail.isEmpty then ⟨none, head⟩ else ⟨some head, tail⟩

end PortRef

structure Instantiation where
  name : String
  component : String
  args : List Expr
  named : List (String × Expr)
  loc : Option Loc := none
  deriving DecidableEq, Repr

def Instantiation.text (i : Instantiation) : String :=
  let bindings := i.args.map (·.text) ++ i.named.map fun (k, e) => k ++ "=" ++ e.text
  i.name ++ " := new " ++ i.component ++
    (if bindings.isEmpty then "" else "[" ++ Text.commas bindings ++ "]")

structure Invocation where
  name : String
  target : String
  times : List Time
  inputs : Option (List PortRef)
  loc : Option Loc := none
  deriving DecidableEq, Repr

def Invocation.text (i : Invocation) : String :=
  let inputs := match i.inputs with
    | some refs => "(" ++ Text.commas (refs.map (·.text)) ++ ")"
    | none => ""
  i.name ++ " := " ++ i.target ++ "<" ++ Text.commas (i.times.map (·.text)) ++ ">" ++ inputs

structure Connection where
  dest : PortRef
  src : PortRef
  loc : Option Loc := none
  deriving DecidableEq, Repr

def Connection.text (c : Connection) : String := c.dest.text ++ " = " ++ c.src.text

inductive Statement where
  | instantiate (i : Instantiation)
  | invoke (i : Invocation)
  | connect (c : Connection)
  deriving DecidableEq, Repr

namespace Statement

def text : Statement → String
  | instantiate i => i.text
  | invoke i => i.text
  | connect c => c.text

def loc : Statement → Option Loc
  | instantiate i => i.loc
  | invoke i => i.loc
  | connect c => c.loc

def withLoc (l : Option Loc) : Statement → Statement
  | instantiate i => instantiate { i with loc := l }
  | invoke i => invoke { i with loc := l }
  | connect c => connect { c with loc := l }

end Statement

structure Body where
  instances : List Instantiation
  invocations : List Invocation
  connections : List Connection
  deriving DecidableEq, Repr

namespace Body

def empty : Body := ⟨[], [], []⟩

def ofStatements (statements : List Statement) : Body where
  instances := statements.filterMap fun | .instantiate i => some i | _ => none
  invocations := statements.filterMap fun | .invoke i => some i | _ => none
  connections := statements.filterMap fun | .connect c => some c | _ => none

def statements (b : Body) : List Statement :=
  b.instances.map .instantiate ++ b.invocations.map .invoke ++ b.connections.map .connect

/-- The components that are instantiated, each once, in order of first occurrence. -/
def dependencies (b : Body) : List String := (b.instances.map (·.component)).eraseDups

end Body

end Chronogram
