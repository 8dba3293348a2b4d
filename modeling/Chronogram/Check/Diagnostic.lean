import Chronogram.Declaration.Basic
import Chronogram.Waveform

/-! Diagnostics: what a check finds wrong, where, and with which details. -/

namespace Chronogram

inductive DiagnosticKind where
  | incomparableEvents | intervalMismatch | widthMismatch | doubleDrive | delayViolation
  | unboundParameter | unsatisfiableWhere | invalidSignature | undefinedName | duplicateName
  | arityMismatch | directionMismatch | undrivenPort | recursiveInstantiation
  deriving DecidableEq, Repr

namespace DiagnosticKind

def name : DiagnosticKind → String
  | incomparableEvents => "IncomparableEvents"
  | intervalMismatch => "IntervalMismatch"
  | widthMismatch => "WidthMismatch"
  | doubleDrive => "DoubleDrive"
  | delayViolation => "DelayViolation"
  | unboundParameter => "UnboundParameter"
  | unsatisfiableWhere => "UnsatisfiableWhere"
  | invalidSignature => "InvalidSignature"
  | undefinedName => "UndefinedName"
  | duplicateName => "DuplicateName"
  | arityMismatch => "ArityMismatch"
  | directionMismatch => "DirectionMismatch"
  | undrivenPort => "UndrivenPort"
  | recursiveInstantiation => "RecursiveInstantiation"

def all : List DiagnosticKind :=
  [incomparableEvents, intervalMismatch, widthMismatch, doubleDrive, delayViolation,
    unboundParameter, unsatisfiableWhere, invalidSignature, undefinedName, duplicateName,
    arityMismatch, directionMismatch, undrivenPort, recursiveInstantiation]

def ofName? (s : String) : Option DiagnosticKind := all.find? (·.name == s)

end DiagnosticKind

structure Diagnostic where
  kind : DiagnosticKind
  message : String
  location : Option Loc
  component : String
  fields : List (String × Datum) := []
  available : Option Interval := none
  required : Option Interval := none
  suggestion : String := ""

namespace Diagnostic

/-- Where the diagnostic points: a place, else a component. -/
def place (d : Diagnostic) : String :=
  match d.location with
  | some l => l.text
  | none => if d.component.isEmpty then "<unknown>" else d.component

def text (d : Diagnostic) : String := "[" ++ d.kind.name ++ "] " ++ d.place ++ ": " ++ d.message

/-- The two intervals of a mismatch as a drawing, where they can be drawn together. -/
def waveform (d : Diagnostic) : List String :=
  match d.available, d.required with
  | some a, some r => (Waveform.of? a r).elim [] (·.lines)
  | _, _ => []

/-- A detail in a report: records appear as their text. -/
def plain : Datum → Datum
  | .record es => .str (Datum.inner (.record es))
  | .list ds => .list (plainItems ds)
  | d => d
where
  plainItems : List Datum → List Datum
    | [] => []
    | d :: ds => plain d :: plainItems ds

def datum (d : Diagnostic) : Datum :=
  let line : Datum := match d.location.bind (·.line) with
    | some n => .int n
    | none => .null
  .object (
    [("kind", .str d.kind.name), ("component", .str d.component), ("message", .str d.message),
      ("location", .object [("file", .ofOption .str (d.location.bind (·.file))), ("line", line)]),
      ("fields", .object (d.fields.map fun (k, v) => (k, plain v)))] ++
    (d.available.map fun i => ("available", Datum.str i.text)).toList ++
    (d.required.map fun i => ("required", Datum.str i.text)).toList ++
    (if d.suggestion.isEmpty then [] else [("suggestion", .str d.suggestion)]))

end Diagnostic

end Chronogram
