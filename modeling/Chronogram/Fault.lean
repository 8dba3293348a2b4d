import Chronogram.Interval
import Chronogram.Source
import Chronogram.Text.Quoted

/-! Everything that can go wrong while a text, a record or a design is read or while times and forms
are computed with. Each cause is a constructor and all wording is in `Fault.message`. -/

namespace Chronogram

inductive Phrase where
  | expression | time | interval | clause | parameter | event | port | statement
  deriving DecidableEq, Repr

def Phrase.name : Phrase → String
  | expression => "expression"
  | time => "time expression"
  | interval => "interval"
  | clause => "where-clause"
  | parameter => "parameter"
  | event => "event"
  | port => "port"
  | statement => "statement"

inductive Model where
  | expression | time | interval | parameter | event | port | clause | signature
  | portRef | instantiation | invocation | connection
  deriving DecidableEq, Repr

def Model.name : Model → String
  | expression => "Expr"
  | time => "TimeExpr"
  | interval => "Interval"
  | parameter => "Parameter"
  | event => "EventDef"
  | port => "PortDef"
  | clause => "WhereClause"
  | signature => "ComponentSignature"
  | portRef => "PortRef"
  | instantiation => "Instantiation"
  | invocation => "Invocation"
  | connection => "Connection"

inductive Fault where
  /-- A one-line text is refused. -/
  | unreadable (what : Phrase) (text : String) (cause : Fault)
  /-- No rule of the grammar derives the text. -/
  | noReading
  | needsDefault (name : String)
  /-- Fields of a record are refused, each named by its path. -/
  | rejected (model : Model) (issues : List (List String × Fault))
  | missing
  | unknownField
  | notText
  | notInteger
  | notNumeral
  | notWhole
  | notFinite
  | tooLarge
  | notRecord
  | notMember
  | notList
  | notTruthValue
  | emptyName
  | notExpression (shown : String)
  | truthValue (value : Bool)
  | unknownDirection (text : String)
  | nonpositiveWidth
  | noEvents
  | emptyInterval (start stop : Time)
  | notPair (index length : Nat)
  /-- A value of the wrong kind where elements or names are needed. -/
  | wrongKind
  | incomparable (times : Time.Incomparable)
  | unbound (symbol : Symbol)
  | nonlinear (product : Expr)
  /-- A cause together with the place where it arose. -/
  | placed (file : Option String) (line : Option Int) (cause : Fault)
  /-- The document is not well formed. -/
  | malformed
  | rootNotRecord
  | unknownDesignKeys (keys : List String)
  | componentNotRecord (index : Nat)
  | componentUnnamed (index : Nat)
  | unknownComponentKeys (component : String) (keys : List String)
  | componentRefused (component : String) (cause : Fault)
  | externalBody (component : String)
  | bodyNotList
  | circularImport (path : String)
  | fileNotFound (path : String)
  | isDirectory (path : String)
  | primitiveBody (component : String)
  | noPrimitives
  | noSuchKey
  | tooFewJobs (jobs : Int)

namespace Fault

def placedText (file : Option String) (line : Option Int) (message : String) : String :=
  let file := match file with
    | some f => if f.isEmpty then [] else ["File: " ++ f]
    | none => []
  let line := match line with
    | some n => ["Line: " ++ toString n]
    | none => []
  Text.joined " | " (file ++ line ++ [message])

mutual

def message : Fault → String
  | unreadable what text cause => "Invalid " ++ what.name ++ " '" ++ text ++ "': " ++ cause.message
  | noReading => "<syntax>"
  | needsDefault name => "Optional parameter '" ++ name ++ "' needs a default value"
  | rejected model issues => "<" ++ model.name ++ "| " ++ Text.joined "; " (issueTexts issues) ++ ">"
  | missing => "missing"
  | unknownField => "extra_forbidden"
  | notText => "string_type"
  | notInteger => "int_type"
  | notNumeral => "int_parsing"
  | notWhole => "int_from_float"
  | notFinite => "finite_number"
  | tooLarge => "int_parsing_size"
  | notRecord => "model_type"
  | notMember => "enum"
  | notList => "tuple_type"
  | notTruthValue => "bool_type"
  | emptyName => "Identifier cannot be empty"
  | notExpression shown => "Cannot interpret " ++ shown ++ " as an expression"
  | truthValue b => "Cannot interpret boolean " ++ (if b then "True" else "False") ++ " as an expression"
  | unknownDirection text => "Unsupported port direction: '" ++ text ++ "'"
  | nonpositiveWidth => "Port width must be positive"
  | noEvents => "A component must declare at least one event"
  | emptyInterval start stop =>
    "Interval " ++ Interval.textOf start stop ++ " is empty: end must come after start"
  | notPair index length =>
    "dictionary update sequence element #" ++ toString index ++ " has length " ++ toString length ++
      "; 2 is required"
  | wrongKind => "<TypeError>"
  | incomparable times =>
    "Cannot compare " ++ times.left.text ++ " with " ++ times.right.text ++
      ": they are relative to different events"
  | unbound symbol => "Parameter '" ++ symbol ++ "' has no binding"
  | nonlinear product => "Expression '" ++ product.text ++ "' is not linear"
  | placed file line cause => placedText file line cause.message
  | malformed => "YAML syntax error: <yaml>"
  | rootNotRecord => "Root element must be a YAML object/dictionary"
  | unknownDesignKeys keys => "Unknown design keys: " ++ Text.commas keys
  | componentNotRecord i => "components[" ++ toString i ++ "] must be a mapping"
  | componentUnnamed i => "components[" ++ toString i ++ "] is missing 'name'"
  | unknownComponentKeys name keys => "Component '" ++ name ++ "' has unknown keys: " ++ Text.commas keys
  | componentRefused name cause => "Error parsing component '" ++ name ++ "': " ++ cause.message
  | externalBody name => "Extern component '" ++ name ++ "' cannot have a body"
  | bodyNotList => "Component body must be a list of statements"
  | circularImport path => "Circular import of " ++ path
  | fileNotFound path => "File not found: " ++ path
  | isDirectory path => "[Errno 21] Is a directory: " ++ Text.quoted path
  | primitiveBody name => "Primitive '" ++ name ++ "' must not have a body"
  | noPrimitives => "Primitive definitions file not found"
  | noSuchKey => "<KeyError>"
  | tooFewJobs jobs => "jobs must be at least 1, got " ++ toString jobs

def issueTexts : List (List String × Fault) → List String
  | [] => []
  | (path, cause) :: issues => (Text.joined "." path ++ ": " ++ cause.message) :: issueTexts issues

end

end Fault

namespace Expr

def toForm (e : Expr) : Except Fault LinearForm := e.linearize.mapError .nonlinear

end Expr

namespace Time

/-- The fault that nothing is left of the name of an event. -/
def unnamed : Fault := .rejected .time [(["event"], .emptyName)]

def shift (t : Time) (cycles : Int) : Except Fault Time :=
  (t.shift? cycles).elim (.error unnamed) .ok

def subst (binding : List (String × Time)) (t : Time) : Except Fault Time :=
  (t.subst? binding).elim (.error unnamed) .ok

end Time

namespace Interval

def between (start stop : Time) : Except Fault Interval :=
  match between? start stop with
  | some i => .ok i
  | none => .error (.emptyInterval start stop)

def subst (binding : List (String × Time)) (i : Interval) : Except Fault Interval :=
  match i.substBounds? binding with
  | some (start, stop) => (between start stop).mapError fun cause => .rejected .interval [([], cause)]
  | none => .error Time.unnamed

end Interval

end Chronogram
