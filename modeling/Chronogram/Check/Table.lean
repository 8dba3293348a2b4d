import Chronogram.Check.Validation
import Chronogram.Dict

/-! The table of signatures: at most one for each name, together with its facts. A name whose
definition was rejected has no signature and never gets one again. The table is filled by calls that
change it in place. -/

namespace Chronogram

structure SignatureError where
  component : String
  diagnostics : List Diagnostic

def SignatureError.message (e : SignatureError) : String :=
  "Signature '" ++ e.component ++ "' rejected:\n  " ++
    Text.joined "\n  " (e.diagnostics.map (·.text))

/-- Signatures and their facts under the same names, and the names that were rejected with the
reasons, oldest first. -/
structure Table where
  signatures : Dict Signature
  facts : Dict Facts
  rejected : Dict (List Diagnostic)

namespace Table

def empty : Table := ⟨.empty, .empty, .empty⟩

def get? (t : Table) (name : String) : Option Signature := t.signatures.get? name

def facts? (t : Table) (name : String) : Option Facts := t.facts.get? name

def contains (t : Table) (name : String) : Bool := t.signatures.contains name

def rejection? (t : Table) (name : String) : Option (List Diagnostic) := t.rejected.get? name

def names (t : Table) : List String := t.signatures.names

def size (t : Table) : Nat := t.signatures.size

def taken (t : Table) (name : String) : Bool := t.contains name || t.rejected.contains name

def alreadyDefined (s : Signature) : SignatureError where
  component := s.name
  diagnostics :=
    [{ kind := .duplicateName
       message := "Component '" ++ s.name ++ "' is already defined"
       location := s.loc
       component := s.name }]

/-- Why a call on a table ends early: a signature is refused, or its facts cannot be put together. -/
inductive Failure where
  | refused (error : SignatureError)
  | fault (cause : Fault)

/-- A call changes the table in place. When it fails, what it has changed by then stays changed. -/
abbrev Call := EStateM Failure Table

namespace Call

def register (s : Signature) : Call Unit := do
  if (← get).taken s.name then throw (.refused (alreadyDefined s))
  if !s.validate.isEmpty then throw (.refused ⟨s.name, s.validate⟩)
  modify fun t => { t with signatures := t.signatures.set s.name s }
  match s.facts with
  | .ok facts => modify fun t => { t with facts := t.facts.set s.name facts }
  | .error cause => throw (.fault cause)

/-- Registers signatures up to the first that cannot be; those before it stay registered. -/
def registerAll : List Signature → Call Unit
  | [] => return ()
  | s :: rest => do
    register s
    registerAll rest

/-- Withdraws a name and adds to the reasons. -/
def reject (name : String) (diagnostics : List Diagnostic) : Call Unit := do
  modify fun t => { t with signatures := t.signatures.erase name }
  modify fun t => { t with facts := t.facts.erase name }
  modify fun t =>
    { t with rejected := t.rejected.set name ((t.rejected.get? name).getD [] ++ diagnostics) }

/-- Registers a signature. If it is refused its name is withdrawn, with the reasons that are
returned. -/
def enter (s : Signature) : Call (Option (List Diagnostic)) :=
  tryCatch (do register s; return none) fun
    | .refused e => do
      reject s.name e.diagnostics
      return some e.diagnostics
    | .fault cause => throw (.fault cause)

end Call

/-! The same without change in place, for calls whose facts can be put together. -/

def add (t : Table) (s : Signature) (facts : Facts) : Table :=
  { t with signatures := t.signatures.set s.name s, facts := t.facts.set s.name facts }

def register (t : Table) (s : Signature) : Except SignatureError Table :=
  if t.taken s.name then .error (alreadyDefined s)
  else
    match s.validate, s.facts with
    | [], .ok facts => .ok (t.add s facts)
    | diagnostics, _ => .error ⟨s.name, diagnostics⟩

def registerAll (t : Table) : List Signature → Table × Option SignatureError
  | [] => (t, none)
  | s :: rest =>
    match t.register s with
    | .ok t => t.registerAll rest
    | .error e => (t, some e)

def reject (t : Table) (name : String) (diagnostics : List Diagnostic) : Table where
  signatures := t.signatures.erase name
  facts := t.facts.erase name
  rejected := t.rejected.set name ((t.rejected.get? name).getD [] ++ diagnostics)

end Table

end Chronogram
