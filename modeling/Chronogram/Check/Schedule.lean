import Chronogram.Check.Instance

/-! Schedules: when the instances of a body are triggered. An instance is one physical resource, so
two of its triggerings are at least the callee's delay apart, and the last one is over before the
caller itself may be triggered again. -/

namespace Chronogram

/-- One triggering of an instance, with its ports on the caller's time axis. -/
structure Firing where
  name : String
  inst : Instance
  times : List (String × Time)
  ports : List BoundPort
  loc : Option Loc

namespace Firing

def time? (f : Firing) (event : String) : Option Time := f.times.lookup event

def trigger? (f : Firing) : Option Time := f.time? f.inst.signature.primary.name

def port? (f : Firing) (name : String) : Option BoundPort := f.ports.find? (·.name == name)

def delay (f : Firing) (event : Event) : Except Fault LinearForm :=
  (event.delay.subst f.inst.bindings (f.times.map fun (n, t) => (n, t.toExpr))).toForm

end Firing

/-- The triggerings in a body, in the order of the statements. -/
abbrev Schedule := List Firing

namespace Schedule

/-- The triggering of a name, the latest one if there are several. -/
def firing? (s : Schedule) (name : String) : Option Firing := s.reverse.find? (·.name == name)

def history (s : Schedule) (inst : String) : List Firing := s.filter (·.inst.name == inst)

/-- The instances that are triggered, in the order of their first triggering. -/
def instances (s : Schedule) : List String := (s.map (·.inst.name)).eraseDups

/-- Puts a triggering behind all that are not at a later offset. -/
def insert (u : Time × Firing) : List (Time × Firing) → List (Time × Firing)
  | [] => [u]
  | first :: rest =>
    if first.1.offset ≤ u.1.offset then first :: insert u rest else u :: first :: rest

def ordered (log : List Firing) (event : String) : Except Fault (List (Time × Firing)) := do
  let timed ← log.mapM fun f =>
    match f.time? event with
    | some t => .ok (t, f)
    | none => .error .noSuchKey
  return timed.foldl (fun sorted u => insert u sorted) []

end Schedule

namespace Caller

def checkTimes (c : Caller) (inv : Invocation) (callee : Signature) : List Diagnostic :=
  if inv.times.length ≠ callee.events.length then
    [c.diagnostic .arityMismatch
      ("'" ++ inv.name ++ "' binds " ++ toString inv.times.length ++ " event(s) but '" ++
        callee.name ++ "' declares " ++ toString callee.events.length) inv.loc
      [("invocation", .str inv.name), ("expected", .int callee.events.length),
        ("actual", .int inv.times.length)]]
  else
    (inv.times.filter fun t => (c.signature.event? t.event).isNone).map fun t =>
      c.diagnostic .undefinedName
        ("'" ++ inv.name ++ "' is scheduled at " ++ t.text ++ ", but '" ++ c.name ++
          "' has no event '" ++ t.event ++ "'") inv.loc
        [("invocation", .str inv.name), ("name", .str t.event)]

def schedule (c : Caller) (instances : List Instance) (inv : Invocation) :
    Except Fault (Option Firing × List Diagnostic) :=
  match instances.find? (·.name == inv.target) with
  | none =>
    return (none, [c.diagnostic .undefinedName
      ("Invocation '" ++ inv.name ++ "' refers to unknown instance '" ++ inv.target ++ "'") inv.loc
      [("invocation", .str inv.name), ("name", .str inv.target)]])
  | some inst => do
    let callee := inst.signature
    let misfits := c.checkTimes inv callee
    if !misfits.isEmpty then return (none, misfits)
    let times := callee.eventNames.zip inv.times
    let clauses ← callee.eventClauses.mapM fun clause => c.checkClause clause inst times inv.loc
    match clauses.filterMap id with
    | [] =>
      let ports ← callee.ports.mapM (·.bind times inst.bindings)
      return (some ⟨inv.name, inst, times, ports, inv.loc⟩, [])
    | found => return (none, found)

/-- The times of one event are all on the same event of the caller. -/
def checkComparable (c : Caller) (inst : Instance) (event : Event) :
    List (Time × Firing) → Option Diagnostic
  | [] => none
  | (first, earlier) :: rest =>
    (rest.find? fun (t, _) => t.event != first.event).map fun (t, later) =>
      c.diagnostic .incomparableEvents
        ("Event " ++ event.label ++ " of instance '" ++ inst.name ++ "' is triggered at " ++
          first.text ++ " (" ++ earlier.name ++ ") and " ++ t.text ++ " (" ++ later.name ++
          "), which are relative to different events") later.loc
        [("instance", .str inst.name), ("first", .str first.text), ("second", .str t.text)]

/-- Two successive triggerings are at least the delay of the earlier one apart. -/
def checkSpacing (c : Caller) (inst : Instance) (event : Event) (first second : Time × Firing) :
    Except Fault (Option Diagnostic) := do
  let ((t₁, f₁), (t₂, f₂)) := (first, second)
  let delay ← f₁.delay event
  let gap ← (t₂.since t₁).mapError .incomparable
  if c.proves (delay.shift (-gap)) .le then return none
  return some (c.diagnostic .delayViolation
    ("Instance '" ++ inst.name ++ "' is re-triggered on " ++ event.label ++ " at " ++ t₂.text ++
      " (" ++ f₂.name ++ ") only " ++ toString gap ++ " cycle(s) after " ++ t₁.text ++ " (" ++
      f₁.name ++ "); '" ++ inst.signature.name ++ "' needs at least " ++ delay.text) f₂.loc
    [("instance", .str inst.name), ("event", .str event.name), ("first", .str t₁.text),
      ("second", .str t₂.text), ("invocations", .texts [f₁.name, f₂.name]),
      ("min_delay", delay.datum), ("gap", .int gap)])

/-- A triggering is over before the caller may be triggered again: counted from the first time
`start` on an event of the caller, within the delay of that event. -/
def checkThroughput (c : Caller) (inst : Instance) (event : Event) (start : Time)
    (callerEvent : Event) (budget : LinearForm) (use : Time × Firing) :
    Except Fault (Option Diagnostic) := do
  let (t, f) := use
  let delay ← f.delay event
  let busy := delay.shift (← (t.since start).mapError .incomparable)
  let excess := busy - budget
  if c.proves excess .le then return none
  let kind : DiagnosticKind :=
    if !excess.events.isEmpty && (c.facts.lowerBound? (-excess)).isNone then .incomparableEvents
    else .delayViolation
  return some (c.diagnostic kind
    ("Instance '" ++ inst.name ++ "' is busy on " ++ event.label ++ " for " ++ busy.text ++
      " cycle(s) after " ++ start.text ++ " (" ++ f.name ++ "), but '" ++ c.name ++
      "' may be re-triggered on " ++ callerEvent.label ++ " every " ++ budget.text ++ " cycle(s)")
    f.loc
    [("instance", .str inst.name), ("event", .str event.name),
      ("caller_event", .str callerEvent.name), ("first", .str start.text), ("second", .str t.text),
      ("min_delay", busy.datum), ("gap", budget.datum)])

def firstComplaint (check : α → Except Fault (Option Diagnostic)) :
    List α → Except Fault (Option Diagnostic)
  | [] => return none
  | a :: rest => do
    match ← check a with
    | some d => return some d
    | none => firstComplaint check rest

def checkEvent (c : Caller) (inst : Instance) (log : List Firing) (event : Event) :
    Except Fault (Option Diagnostic) := do
  let ordered ← Schedule.ordered log event.name
  if let some d := c.checkComparable inst event ordered then return some d
  if let some d ← firstComplaint (fun (a, b) => c.checkSpacing inst event a b)
      (ordered.zip ordered.tail) then return some d
  match ordered with
  | [] => return none
  | (start, _) :: _ =>
    match c.signature.event? start.event with
    | none => .error .noSuchKey
    | some callerEvent =>
      let budget ← callerEvent.delay.toForm
      firstComplaint (c.checkThroughput inst event start callerEvent budget) ordered

def checkLog (c : Caller) (log : List Firing) : Except Fault (Option Diagnostic) :=
  match log with
  | [] => return none
  | f :: _ => firstComplaint (c.checkEvent f.inst log) f.inst.signature.events

/-- At most one complaint for each instance. -/
def checkDelays (c : Caller) (s : Schedule) : Except Fault (List Diagnostic) := do
  let found ← s.instances.mapM fun name => c.checkLog (s.history name)
  return found.filterMap id

end Caller

end Chronogram
