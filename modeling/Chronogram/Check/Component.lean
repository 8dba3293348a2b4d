import Chronogram.Check.Wiring
import Chronogram.Design

/-! The check of one component against a table of signatures. First all instantiations are resolved,
then the invocations are scheduled and wired, then the delays are verified; the first of these three
stages that finds something wrong is the last one. -/

namespace Chronogram

/-- A verified component: its own ports and those of all triggerings in its body. -/
structure Verified where
  name : String
  ports : List Port
  schedule : Schedule

inductive Outcome where
  | verified (v : Verified)
  | rejected (diagnostics : List Diagnostic)

structure CheckResult where
  component : String
  outcome : Outcome

def portDatum (name : String) (direction : Direction) (width : Datum) (interval : Interval) : Datum :=
  .object [("name", .str name), ("direction", .str direction.text), ("width", width),
    ("interval", .str interval.text)]

def Firing.datum (f : Firing) : Datum :=
  .object [("name", .str f.name), ("instance", .str f.inst.name),
    ("component", .str f.inst.signature.name),
    ("events", .object (f.times.map fun (n, t) => (n, .str t.text))),
    ("ports", .list (f.ports.map fun p => portDatum p.name p.direction p.width.datum p.interval))]

def Verified.datum (v : Verified) : Datum :=
  .object [("name", .str v.name),
    ("ports", .list (v.ports.map fun p =>
      portDatum p.name p.direction (.str p.width.text) p.interval)),
    ("invocations", .list (v.schedule.map (·.datum)))]

namespace CheckResult

def isOk (r : CheckResult) : Bool :=
  match r.outcome with
  | .verified _ => true
  | .rejected _ => false

def state (r : CheckResult) : String := if r.isOk then "Verified" else "Rejected"

def diagnostics (r : CheckResult) : List Diagnostic :=
  match r.outcome with
  | .verified _ => []
  | .rejected ds => ds

def verified? (r : CheckResult) : Option Verified :=
  match r.outcome with
  | .verified v => some v
  | .rejected _ => none

def datum (r : CheckResult) : Datum :=
  .object ([("component", .str r.component), ("state", .str r.state),
    ("diagnostics", .list (r.diagnostics.map (·.datum)))] ++
    (r.verified?.map fun v => ("verified", v.datum)).toList)

end CheckResult

namespace Body

/-- The named statements with their places: instantiations, then invocations. -/
def labels (b : Body) : List (String × Option Loc) :=
  b.instances.map (fun i => (i.name, i.loc)) ++ b.invocations.map (fun i => (i.name, i.loc))

/-- Instances and invocations share one space of names. -/
def checkNames (b : Body) (component : String) : List Diagnostic :=
  go [] b.labels
where
  go (seen : List String) : List (String × Option Loc) → List Diagnostic
    | [] => []
    | (name, loc) :: rest =>
      let count := b.labels.countP (·.1 == name)
      let later := go (name :: seen) rest
      if count > 1 && name ∉ seen then
        { kind := .duplicateName
          message := "Name '" ++ name ++ "' is defined " ++ toString count ++
            " times in the body of '" ++ component ++ "'"
          location := loc
          component
          fields := [("name", .str name)] } :: later
      else later

end Body

namespace Component

/-- A component that has no body is as its signature says. -/
def accepted (c : Component) (schedule : Schedule) : Outcome :=
  .verified ⟨c.name, c.signature.ports, schedule⟩

def check (c : Component) (table : Table) : Except Fault Outcome := do
  let body := c.body.getD .empty
  let caller ← Caller.of table ((table.get? c.name).getD c.signature)
  let resolved ← body.instances.mapM (caller.resolve table)
  let found := body.checkNames c.name ++ resolved.flatMap (·.2)
  if !found.isEmpty then return .rejected found
  let instances := Dict.index (·.name) (resolved.filterMap (·.1))
  let fired ← body.invocations.mapM fun inv => return (inv.name, ← caller.schedule instances.values inv)
  let made := fired.filterMap (·.2.1)
  let schedule := Dict.index (·.name) made
  let failed := (fired.filter (·.2.1.isNone)).map (·.1)
  let wired ← (Bench.check ⟨caller, schedule.values, failed⟩ {} body).2
  let found := fired.flatMap (·.2.2) ++ wired
  if !found.isEmpty then return .rejected found
  match ← caller.checkDelays made with
  | [] => return c.accepted schedule.values
  | found => return .rejected found

end Component

end Chronogram
