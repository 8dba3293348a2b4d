import Chronogram.Check.Table
import Chronogram.Statement

/-! Instantiations inside a caller. Arguments are bound to the callee's parameters, and what the
callee demands of its parameters must follow from what the caller knows about its own. -/

namespace Chronogram

/-- A component whose body is looked at, with the facts that it may rely on. -/
structure Caller where
  signature : Signature
  facts : Facts

/-- An instance whose parameters are all bound to expressions over the caller's parameters. -/
structure Instance where
  name : String
  signature : Signature
  bindings : List (String × Expr)
  loc : Option Loc

namespace Caller

/-- A registered component knows its clauses and that its ports have a width; any other one knows
its clauses. -/
def of (table : Table) (s : Signature) : Except Fault Caller :=
  match table.facts? s.name with
  | some facts => .ok ⟨s, facts⟩
  | none => return ⟨s, ← s.clauses.mapM (·.fact)⟩

def name (c : Caller) : String := c.signature.name

def diagnostic (c : Caller) (kind : DiagnosticKind) (message : String) (loc : Option Loc)
    (fields : List (String × Datum)) : Diagnostic :=
  { kind, message, location := loc, component := c.name, fields }

/-- Whether a comparison with zero holds whenever the caller's facts do. -/
def proves (c : Caller) (form : LinearForm) (r : Relation) : Bool := c.facts.implies form r

/-- Whether the caller bounds the form neither from below nor from above. -/
def leavesOpen (c : Caller) (form : LinearForm) : Bool :=
  (c.facts.lowerBound? form).isNone && (c.facts.lowerBound? (-form)).isNone

/-- An argument uses the caller's parameters only. -/
def checkArgument (c : Caller) (inst : Instantiation) (name : String) (arg : Expr) :
    List Diagnostic :=
  let written := "Argument " ++ name ++ "=" ++ arg.text ++ " of '" ++ inst.name ++ "'"
  let found :=
    (if arg.events.isEmpty then []
     else [c.diagnostic .invalidSignature (written ++ " cannot refer to events") inst.loc
      [("instance", .str inst.name), ("parameter", .str name)]]) ++
    (Text.sorted (arg.params.filter (· ∉ c.signature.paramNames))).map fun unknown =>
      c.diagnostic .unboundParameter
        (written ++ " refers to '" ++ unknown ++ "', which is not a parameter of '" ++ c.name ++ "'")
        inst.loc [("instance", .str inst.name), ("parameter", .str unknown)]
  if found.isEmpty then
    match arg.linearize with
    | .ok _ => []
    | .error product =>
      [c.diagnostic .invalidSignature (Fault.nonlinear product).message inst.loc
        [("expr", .str product.text), ("instance", .str inst.name)]]
  else found

def givenArguments (c : Caller) (s : Signature) (inst : Instantiation) :
    List (String × Expr) × List Diagnostic :=
  inst.named.foldl (fun (given, found) (name, arg) =>
    if (s.param? name).isNone then
      (given, found ++ [c.diagnostic .undefinedName
        ("'" ++ s.name ++ "' has no parameter '" ++ name ++ "'") inst.loc
        [("instance", .str inst.name), ("name", .str name)]])
    else if given.any (·.1 == name) then
      (given, found ++ [c.diagnostic .duplicateName
        ("Parameter '" ++ name ++ "' of '" ++ inst.name ++ "' is bound twice") inst.loc
        [("instance", .str inst.name), ("name", .str name)]])
    else (given ++ [(name, arg)], found))
  (s.paramNames.zip inst.args, [])

/-- The value of a parameter for which no argument is given. Its default may use the given
arguments only, never another default. -/
def defaultValue (c : Caller) (s : Signature) (inst : Instantiation) (given : List (String × Expr))
    (p : Parameter) : Except Diagnostic Expr :=
  match p.default with
  | none =>
    .error (c.diagnostic .unboundParameter
      ("Parameter '" ++ p.name ++ "' of '" ++ inst.name ++ "' (" ++ s.name ++
        ") has no argument and no default") inst.loc
      [("instance", .str inst.name), ("parameter", .str p.name)])
  | some e =>
    match Text.sorted (e.params.filter fun n => !given.any (·.1 == n)) with
    | [] => .ok (e.subst given [])
    | missing =>
      .error (c.diagnostic .unboundParameter
        ("Default of '" ++ p.name ++ "' (" ++ e.text ++ ") refers to " ++
          Text.commas (missing.map Text.quoted) ++ ", which '" ++ inst.name ++ "' does not bind")
        inst.loc
        [("instance", .str inst.name), ("parameter", .str p.name), ("missing", .texts missing)])

def bindParameters (c : Caller) (s : Signature) (inst : Instantiation) :
    Except Fault (List (String × Expr) × List Diagnostic) := do
  let arity :=
    if inst.args.length ≤ s.params.length then []
    else [c.diagnostic .arityMismatch
      ("'" ++ s.name ++ "' takes " ++ toString s.params.length ++ " parameter(s), '" ++ inst.name ++
        "' passes " ++ toString inst.args.length) inst.loc
      [("instance", .str inst.name), ("expected", .int s.params.length),
        ("actual", .int inst.args.length)]]
  let (given, misnamed) := c.givenArguments s inst
  let misused := given.flatMap fun (name, arg) => c.checkArgument inst name arg
  let omitted := s.params.filter fun p => !given.any (·.1 == p.name)
  let defaults := omitted.map fun p => (p.name, c.defaultValue s inst given p)
  let unbound := defaults.filterMap fun | (_, .error d) => some d | _ => none
  let found := arity ++ misnamed ++ misused ++ unbound
  if found.isEmpty then
    let values := given ++ defaults.filterMap fun | (n, .ok e) => some (n, e) | _ => none
    let simplified ← values.mapM fun (n, e) => return (n, ← e.simplified.mapError Fault.nonlinear)
    return (simplified, [])
  else return ([], found)

/-- Checks one clause of the callee under the bindings of an instance and, for an invocation, under
the times of its events. -/
def checkClause (c : Caller) (clause : Clause) (inst : Instance) (times : List (String × Time))
    (loc : Option Loc) : Except Fault (Option Diagnostic) := do
  let bound := clause.subst inst.bindings times
  let form ← bound.form
  if c.proves form clause.relation then return none
  let start := "Constraint '" ++ clause.text ++ "' of '" ++ inst.signature.name ++ "' becomes '" ++
    bound.text ++ "' at '" ++ inst.name ++ "', which "
  let fields : List (String × Datum) :=
    [("clause", .str clause.text), ("instance", .str inst.name), ("instantiated", .str bound.text)]
  let loc := loc <|> inst.loc
  if form.events.length > 1 && c.leavesOpen form then
    return some (c.diagnostic .incomparableEvents
      (start ++ "relates events '" ++ c.name ++ "' never orders") loc fields)
  let reason :=
    if form.isConstant then "is false"
    else "does not follow from the where-clauses of '" ++ c.name ++ "'"
  return some (c.diagnostic .unsatisfiableWhere (start ++ reason) loc fields)

/-- Every port of an instance is at least one bit wide. -/
def checkWidth (c : Caller) (inst : Instance) (p : Port) : Except Fault (Option Diagnostic) := do
  let width ← (p.width.subst inst.bindings []).toForm
  if c.proves (width.shift (-1)) .ge then return none
  return some (c.diagnostic .unsatisfiableWhere
    ("Port '" ++ inst.name ++ "." ++ p.name ++ "' would have width " ++ width.text ++
      ", which is not provably positive") inst.loc
    [("instance", .str inst.name), ("port", .str p.name), ("width", .str width.text)])

def resolve (c : Caller) (table : Table) (inst : Instantiation) :
    Except Fault (Option Instance × List Diagnostic) :=
  match table.get? inst.component, table.rejection? inst.component with
  | none, some [] => .error .noSuchKey
  | none, some (cause :: causes) =>
    return (none, [c.diagnostic .undefinedName
      ("Component '" ++ inst.component ++ "' instantiated as '" ++ inst.name ++
        "' was rejected at registration: " ++ cause.message) inst.loc
      [("instance", .str inst.name), ("name", .str inst.component),
        ("causes", .texts ((cause :: causes).map (·.text)))]])
  | none, none =>
    return (none, [c.diagnostic .undefinedName
      ("Unknown component '" ++ inst.component ++ "' instantiated as '" ++ inst.name ++ "'") inst.loc
      [("instance", .str inst.name), ("name", .str inst.component)]])
  | some s, _ => do
    let (bindings, found) ← c.bindParameters s inst
    if !found.isEmpty then return (none, found)
    let resolved : Instance := ⟨inst.name, s, bindings, inst.loc⟩
    let clauses ← s.paramClauses.mapM fun clause => c.checkClause clause resolved [] none
    let widths ← s.ports.mapM (c.checkWidth resolved)
    match (clauses ++ widths).filterMap id with
    | [] => return (some resolved, [])
    | found => return (none, found)

end Caller

end Chronogram
