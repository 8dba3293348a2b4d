import Chronogram.Check.Recursion

/-! The check of a whole design: one result for each name of a component. All signatures are
registered first, then every body is checked on its own against the table, batch by batch. -/

namespace Chronogram

inductive CheckFailure where
  | fault (cause : Fault)
  /-- A signature of the primitive library is not accepted. -/
  | badPrimitive (error : SignatureError)

def CheckFailure.message : CheckFailure → String
  | fault cause => cause.message
  | badPrimitive error => error.message

structure Report where
  design : String
  results : List CheckResult

namespace Report

def isOk (r : Report) : Bool := r.results.all (·.isOk)

def diagnostics (r : Report) : List Diagnostic := r.results.flatMap (·.diagnostics)

def verified (r : Report) : List Verified := r.results.filterMap (·.verified?)

def rejected (r : Report) : List CheckResult := r.results.filter (!·.isOk)

def get? (r : Report) (component : String) : Option CheckResult :=
  r.results.find? (·.component == component)

def summary (r : Report) : String :=
  toString (r.results.length - r.rejected.length) ++ "/" ++ toString r.results.length ++
    " component(s) verified, " ++ toString r.diagnostics.length ++ " diagnostic(s)"

def entries (r : Report) : List (String × Datum) :=
  [("design", .str r.design), ("ok", .bool r.isOk),
    ("components", .list (r.results.map (·.datum)))]

def datum (r : Report) : Datum := .object r.entries

end Report

namespace Table

/-- Registers a signature from another file, unless it is there already. -/
def Call.importSignature (s : Signature) : Call Unit := do
  let t ← get
  if t.get? s.name = some s then return ()
  else
    let _ ← enter s
    return ()

def Call.importAll : List Signature → Call Unit
  | [] => return ()
  | s :: rest => do
    importSignature s
    importAll rest

end Table

namespace Design

/-- Registers the components of a design. Those that cannot be are withdrawn and listed with the
reasons, the latest ones first. -/
def enterComponents : List Component → Table.Call (List (String × List Diagnostic))
  | [] => return []
  | c :: rest => do
    let reasons ← Table.Call.enter c.signature
    let refused ← enterComponents rest
    return refused ++ (reasons.map fun found => (c.name, found)).toList

/-- Fills a table with all signatures that the design may use, and returns what was refused. -/
def fill (d : Design) (primitives : List Signature) : Table.Call (List (String × List Diagnostic)) := do
  if d.usePrimitives then Table.Call.registerAll primitives
  Table.Call.importAll d.imported
  enterComponents d.components

/-- The components among the given ones that have a body, with those that they instantiate. -/
def hierarchy (components : List Component) : Hierarchy :=
  let bodies := components.filterMap fun c => c.body.map fun b => (c.name, b)
  bodies.map fun (n, b) => (n, b.dependencies.filter fun dep => bodies.any (·.1 == dep))

/-- The components whose bodies are checked, in the order of the check: those that are left when the
members of cycles are taken out. -/
def agenda (components : List Component) (cycles : List (List String)) : List Component :=
  ((hierarchy components).without cycles.flatten).batches.flatten.filterMap fun n =>
    components.find? (·.name == n)

def outcome (checked : Component → Except Fault Outcome) (refused : List (String × List Diagnostic))
    (cycles : List (List String)) (c : Component) : Except Fault Outcome :=
  match refused.lookup c.name with
  | some found => return .rejected found
  | none =>
    match c.body, cycles.find? (·.contains c.name) with
    | none, _ => return c.accepted []
    | some _, some cycle => return .rejected [recursionDiagnostic c cycle]
    | some _, none => checked c

def recorded (outcomes : List (String × Outcome)) (c : Component) : Except Fault Outcome :=
  match outcomes.lookup c.name with
  | some o => .ok o
  | none => .error .noSuchKey

def addDistinct (seen : List Component) (c : Component) : List Component :=
  if seen.any (·.name == c.name) then seen else seen ++ [c]

def distinctComponents (d : Design) : List Component := d.components.foldl addDistinct []

def filled (d : Design) (primitives : List Signature) :
    Except CheckFailure (Table × List (String × List Diagnostic)) :=
  match d.fill primitives .empty with
  | .ok refused t => .ok (t, refused)
  | .error (.refused e) _ => .error (.badPrimitive e)
  | .error (.fault cause) _ => .error (.fault cause)

def check (d : Design) (primitives : List Signature) (search : Hierarchy.Search := Hierarchy.cycle?) :
    Except CheckFailure Report := do
  let (table, refused) ← d.filled primitives
  let accepted := d.components.filter fun c => (refused.lookup c.name).isNone
  let cycles := (hierarchy accepted).cycles search
  let outcomes ← (agenda accepted cycles).mapM fun c =>
    return (c.name, ← (c.check table).mapError .fault)
  let results ← d.distinctComponents.mapM fun c =>
    return ⟨c.name, ← (outcome (recorded outcomes) refused cycles c).mapError .fault⟩
  return ⟨d.name, results⟩

end Design

end Chronogram
