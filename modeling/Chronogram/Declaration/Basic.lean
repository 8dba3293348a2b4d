import Chronogram.Datum.Basic
import Chronogram.Fault
import Chronogram.Facts

/-! The declared interface of a component: parameters, events with the least number of cycles between
two triggerings, ports with their widths and intervals, and constraints over parameters and events. -/

namespace Chronogram

/-- A form as plain data: a number when it is constant, its text otherwise. -/
def LinearForm.datum (f : LinearForm) : Datum :=
  if f.isConstant then .int f.constant else .str f.text

structure Parameter where
  name : String
  default : Option Expr
  description : String := ""
  loc : Option Loc := none
  deriving DecidableEq, Repr

def Parameter.text (p : Parameter) : String :=
  match p.default with
  | some e => "?" ++ p.name ++ "=" ++ e.text
  | none => p.name

structure Event where
  name : String
  delay : Expr
  description : String := ""
  loc : Option Loc := none
  deriving DecidableEq, Repr

namespace Event

def label (e : Event) : String := "'" ++ e.name

def text (e : Event) : String := e.label ++ ": " ++ e.delay.text

def isRelative (e : Event) : Bool := !e.delay.events.isEmpty

end Event

inductive Direction where
  | input | output
  deriving DecidableEq, Repr

namespace Direction

def text : Direction → String
  | input => "in"
  | output => "out"

/-- Directions have several spellings, in any case. -/
def ofText (s : String) : Except Fault Direction :=
  let word := Text.trim (Text.lower s)
  if word ∈ ["in", "input", "inputs"] then .ok input
  else if word ∈ ["out", "output", "outputs"] then .ok output
  else .error (.unknownDirection s)

end Direction

structure Port where
  name : String
  direction : Direction
  width : Expr
  interval : Interval
  description : String := ""
  loc : Option Loc := none
  deriving DecidableEq

/-- A port as one invocation uses it: over the caller's parameters and events. -/
structure BoundPort where
  name : String
  direction : Direction
  width : LinearForm
  interval : Interval
  deriving DecidableEq

namespace Port

def text (p : Port) : String := p.name ++ ": " ++ p.interval.text ++ " " ++ p.width.text

def isInput (p : Port) : Bool := p.direction == .input

def isOutput (p : Port) : Bool := p.direction == .output

/-- A width that is written as a number is positive. -/
def checkWidth (width : Expr) : Except Fault Expr :=
  match width with
  | .const n => if n ≤ 0 then .error .nonpositiveWidth else .ok width
  | _ => .ok width

/-- The port after the events and parameters of its component are bound. -/
def bind (p : Port) (events : List (String × Time)) (params : List (String × Expr)) :
    Except Fault BoundPort := do
  let width ← (p.width.subst params []).toForm
  return ⟨p.name, p.direction, width, ← p.interval.subst events⟩

end Port

structure Clause where
  lhs : Expr
  relation : Relation
  rhs : Expr
  loc : Option Loc := none
  deriving DecidableEq, Repr

namespace Clause

def Holds (c : Clause) (ρ : Symbol → Int) : Prop := c.relation.Holds (c.lhs.eval ρ) (c.rhs.eval ρ)

def text (c : Clause) : String := c.lhs.text ++ " " ++ c.relation.text ++ " " ++ c.rhs.text

def params (c : Clause) : List String := c.lhs.params ++ c.rhs.params

def events (c : Clause) : List String := c.lhs.events ++ c.rhs.events

def mentionsEvents (c : Clause) : Bool := !c.events.isEmpty

/-- The form that the clause compares with zero. -/
def form (c : Clause) : Except Fault LinearForm := do
  let l ← c.lhs.toForm
  let r ← c.rhs.toForm
  return l - r

def subst (params : List (String × Expr)) (events : List (String × Time)) (c : Clause) : Clause :=
  let events := events.map fun (n, t) => (n, t.toExpr)
  { c with lhs := c.lhs.subst params events, rhs := c.rhs.subst params events }

def fact (c : Clause) : Except Fault Fact := return ⟨← c.form, c.relation⟩

end Clause

/-- The interface of a component. The primary event is the one that an invocation starts with. -/
structure Signature where
  name : String
  params : List Parameter
  primary : Event
  secondary : List Event
  ports : List Port
  clauses : List Clause
  external : Bool := false
  description : String := ""
  loc : Option Loc := none
  deriving DecidableEq

namespace Signature

def events (s : Signature) : List Event := s.primary :: s.secondary

def inputs (s : Signature) : List Port := s.ports.filter (·.isInput)

def outputs (s : Signature) : List Port := s.ports.filter (·.isOutput)

def paramNames (s : Signature) : List String := s.params.map (·.name)

def eventNames (s : Signature) : List String := s.events.map (·.name)

def portNames (s : Signature) : List String := s.ports.map (·.name)

def param? (s : Signature) (name : String) : Option Parameter := s.params.find? (·.name == name)

/-- The event of a name, which may be written with its quote. -/
def event? (s : Signature) (name : String) : Option Event :=
  s.events.find? (·.name == Text.dropLeading '\'' name)

def port? (s : Signature) (name : String) : Option Port := s.ports.find? (·.name == name)

/-- The clauses that an instantiation has to meet. -/
def paramClauses (s : Signature) : List Clause := s.clauses.filter (! ·.mentionsEvents)

/-- The clauses that an invocation has to meet. -/
def eventClauses (s : Signature) : List Clause := s.clauses.filter (·.mentionsEvents)

def text (s : Signature) : String :=
  let params := if s.params.isEmpty then "" else "[" ++ Text.commas (s.params.map (·.text)) ++ "]"
  s.name ++ params ++ "<" ++ Text.commas (s.events.map (·.text)) ++ ">"

def declaration (s : Signature) : String :=
  let clauses :=
    if s.clauses.isEmpty then "" else " where " ++ Text.commas (s.clauses.map (·.text))
  "comp " ++ s.text ++ "(" ++ Text.commas (s.inputs.map (·.text)) ++ ") -> (" ++
    Text.commas (s.outputs.map (·.text)) ++ ")" ++ clauses

end Signature

end Chronogram
