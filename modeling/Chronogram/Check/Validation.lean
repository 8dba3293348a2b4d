import Chronogram.Check.Diagnostic

/-! Validation of a signature: names are distinct, every expression mentions declared names only and
is linear, the constraints can be met, and wherever they are met every delay is positive and every
interval holds a cycle. -/

namespace Chronogram

namespace Signature

/-- The facts of a signature: its clauses, and that every port is at least one bit wide. -/
def facts (s : Signature) : Except Fault Facts := do
  let clauses ← s.clauses.mapM (·.fact)
  let widths ← s.ports.mapM fun p => return ⟨(← p.width.toForm).shift (-1), .ge⟩
  return clauses ++ widths

def complaint (s : Signature) (kind : DiagnosticKind) (message : String) (loc : Option Loc)
    (fields : List (String × Datum)) : Diagnostic :=
  { kind, message, location := loc <|> s.loc, component := s.name, fields }

def checkNames (s : Signature) : List Diagnostic :=
  let check (category : String) (names : List String) :=
    (Text.repeated names).map fun n =>
      s.complaint .duplicateName ("Duplicate " ++ category ++ " name: '" ++ n ++ "'") none
        [("name", .str n)]
  check "parameter" s.paramNames ++ check "event" s.eventNames ++ check "port" s.portNames

/-- Complaints about one expression: names that are not declared, events where none are allowed,
and, if all names are in order, a product of two non-constant factors. -/
def checkExpr (s : Signature) (e : Expr) (what : String) (loc : Option Loc) (eventsAllowed : Bool)
    (params : List String) : List Diagnostic :=
  let complain (message : String) (fields : List (String × Datum)) :=
    s.complaint .invalidSignature (what ++ message) loc fields
  let undeclared (category : String) (used declared : List String) :=
    (Text.sorted (used.filter (· ∉ declared))).map fun n =>
      complain (" refers to undeclared " ++ category ++ " '" ++ n ++ "'") [("name", .str n)]
  let found :=
    undeclared "parameter" e.params params ++
    (if e.events.isEmpty || eventsAllowed then [] else [complain " cannot refer to events" []]) ++
    undeclared "event" e.events s.eventNames
  if found.isEmpty then
    match e.toForm with
    | .ok _ => []
    | .error cause => [complain (": " ++ cause.message) []]
  else found

/-- A default may use the parameters before its own. -/
def checkDefaults (s : Signature) : List Diagnostic :=
  go [] s.params
where
  go (earlier : List String) : List Parameter → List Diagnostic
    | [] => []
    | p :: ps =>
      (match p.default with
        | some e => s.checkExpr e ("Default of parameter '" ++ p.name ++ "'") p.loc false earlier
        | none => []) ++ go (earlier ++ [p.name]) ps

def checkPort (s : Signature) (p : Port) : List Diagnostic :=
  s.checkExpr p.width ("Width of port '" ++ p.name ++ "'") p.loc false s.paramNames ++
    ([p.interval.start, p.interval.stop].filter (·.event ∉ s.eventNames)).map fun t =>
      s.complaint .invalidSignature
        ("Interval of port '" ++ p.name ++ "' refers to undeclared event '" ++ t.event ++ "'") p.loc
        [("name", .str t.event)]

def checkClause (s : Signature) (c : Clause) : List Diagnostic :=
  [c.lhs, c.rhs].flatMap fun e =>
    s.checkExpr e ("Where-clause '" ++ c.text ++ "'") c.loc true s.paramNames

def checkReferences (s : Signature) : List Diagnostic :=
  s.checkDefaults ++
    s.events.flatMap (fun e =>
      s.checkExpr e.delay ("Delay of event " ++ e.label) e.loc true s.paramNames) ++
    s.ports.flatMap s.checkPort ++ s.clauses.flatMap s.checkClause

def checkDelay (s : Signature) (facts : Facts) (e : Event) : List Diagnostic :=
  match e.delay.linearize with
  | .error _ => []
  | .ok form =>
    if form.isConstant then
      if form.constant ≤ 0 then
        [s.complaint .invalidSignature
          ("Delay of event " ++ e.label ++ " must be positive, got " ++ toString form.constant) e.loc
          [("event", .str e.name), ("delay", .int form.constant)]]
      else []
    else if facts.implies form .gt then []
    else
      [s.complaint .invalidSignature
        ("Delay of event " ++ e.label ++ " (" ++ e.delay.text ++
          ") cannot be shown to be positive from the where-clauses") e.loc
        [("event", .str e.name), ("delay", .str e.delay.text)]]

def checkInterval (s : Signature) (facts : Facts) (p : Port) : List Diagnostic :=
  let i := p.interval
  if i.start.event = i.stop.event || facts.implies i.lengthForm .gt then []
  else
    [s.complaint .invalidSignature
      ("Interval " ++ i.text ++ " of port '" ++ p.name ++
        "' may be empty; add a where-clause ordering " ++ i.stop.text ++ " after " ++ i.start.text)
      p.loc [("port", .str p.name)]]

def validate (s : Signature) : List Diagnostic :=
  let names := s.checkNames ++ s.checkReferences
  if names.isEmpty then
    let facts := s.facts.toOption.getD []
    if facts.satisfiable then
      s.events.flatMap (s.checkDelay facts) ++ s.ports.flatMap (s.checkInterval facts)
    else
      let clauses := s.clauses.map (·.text)
      [s.complaint .unsatisfiableWhere
        ("Where-clauses of '" ++ s.name ++ "' cannot all hold: " ++ Text.commas clauses) none
        [("clauses", .texts clauses)]]
  else names

end Signature

end Chronogram
