import Chronogram.Check.Schedule

/-! Wiring: every wire of a body leads from a source, which is an input of the caller or an output of
a triggering, to a destination, which is an output of the caller or an input of a triggering. Both
ends have one width, the source lasts for as long as the destination needs it, and every destination
has exactly one driver. -/

namespace Chronogram

structure Wire where
  dest : PortRef
  src : PortRef
  loc : Option Loc

/-- What the wires of a body lead between. Names in `failed` belong to invocations that were already
complained about; wires to and from them are passed over. -/
structure Bench where
  caller : Caller
  schedule : Schedule
  failed : List String

/-- The destinations that are driven so far, each with its source, and the invocations whose inputs
do not fit their callee. -/
structure Wires where
  drivers : List (String × PortRef) := []
  misfits : List String := []

structure Endpoint where
  ref : PortRef
  width : LinearForm
  interval : Interval

inductive Role where
  | source | sink
  deriving DecidableEq, Repr

namespace Role

def verb : Role → String
  | source => "read"
  | sink => "driven"

/-- Inside a body, inputs of the caller are sources and outputs are sinks. -/
def ofCaller : Role → Direction
  | source => .input
  | sink => .output

/-- Outputs of a triggering are sources and inputs are sinks. -/
def ofFiring : Role → Direction
  | source => .output
  | sink => .input

end Role

namespace Bench

def diagnostic (b : Bench) := b.caller.diagnostic

def callerEnd (b : Bench) (ref : PortRef) (role : Role) (loc : Option Loc) :
    Except Fault (Option Endpoint × List Diagnostic) :=
  match b.caller.signature.port? ref.port with
  | none =>
    return (none, [b.diagnostic .undefinedName
      ("'" ++ b.caller.name ++ "' has no port '" ++ ref.port ++ "'") loc [("name", .str ref.port)]])
  | some p =>
    if p.direction = role.ofCaller then
      return (some ⟨ref, ← p.width.toForm, p.interval⟩, [])
    else
      return (none, [b.diagnostic .directionMismatch
        (p.direction.text ++ "put port '" ++ ref.text ++ "' of '" ++ b.caller.name ++
          "' cannot be " ++ role.verb ++ " inside its body") loc [("port", .str ref.text)]])

def firingEnd (b : Bench) (ref : PortRef) (invocation : String) (role : Role) (loc : Option Loc) :
    Option Endpoint × List Diagnostic :=
  if invocation ∈ b.failed then (none, [])
  else
    match b.schedule.firing? invocation with
    | none =>
      (none, [b.diagnostic .undefinedName
        ("Unknown invocation '" ++ invocation ++ "' in '" ++ ref.text ++ "'") loc
        [("name", .str invocation)]])
    | some f =>
      match f.port? ref.port with
      | none =>
        (none, [b.diagnostic .undefinedName
          ("'" ++ f.inst.signature.name ++ "' has no port '" ++ ref.port ++ "' (in '" ++ ref.text ++
            "')") loc [("name", .str ref.port)]])
      | some p =>
        if p.direction = role.ofFiring then (some ⟨ref, p.width, p.interval⟩, [])
        else
          (none, [b.diagnostic .directionMismatch
            (p.direction.text ++ "put port '" ++ ref.text ++ "' cannot be " ++ role.verb) loc
            [("port", .str ref.text)]])

def endpoint (b : Bench) (ref : PortRef) (role : Role) (loc : Option Loc) :
    Except Fault (Option Endpoint × List Diagnostic) :=
  match ref.invocation with
  | none => b.callerEnd ref role loc
  | some invocation => return b.firingEnd ref invocation role loc

def checkWidths (b : Bench) (dest src : Endpoint) (loc : Option Loc) : List Diagnostic :=
  if dest.width.same src.width then []
  else
    [b.diagnostic .widthMismatch
      ("'" ++ src.ref.text ++ "' is " ++ src.width.text ++ " bit(s) wide but '" ++ dest.ref.text ++
        "' expects " ++ dest.width.text) loc
      [("source", .str src.ref.text), ("dest", .str dest.ref.text),
        ("source_width", .str src.width.text), ("dest_width", .str dest.width.text)]]

/-- The source is there for all of the destination's interval. -/
def checkIntervals (b : Bench) (dest src : Endpoint) (loc : Option Loc) : List Diagnostic :=
  let ends : List (String × Datum) := [("source", .str src.ref.text), ("dest", .str dest.ref.text)]
  let verdict : Except Time.Incomparable (Option (Int × Int)) := do
    if ← Interval.contains dest.interval src.interval then return none
    return some (← Interval.gap dest.interval src.interval)
  match verdict with
  | .ok none => []
  | .ok (some (late, early)) =>
    let problems :=
      (if late = 0 then [] else ["it arrives " ++ toString late ++ " cycle(s) too late"]) ++
      (if early = 0 then [] else ["it expires " ++ toString early ++ " cycle(s) too early"])
    [{ kind := .intervalMismatch
       message := "'" ++ src.ref.text ++ "' is available " ++ src.interval.text ++ " but '" ++
         dest.ref.text ++ "' requires " ++ dest.interval.text ++ ": " ++
         Text.joined " and " problems
       location := loc
       component := b.caller.name
       fields := ends ++ [("late_by", .int late), ("early_by", .int early)]
       available := src.interval
       required := dest.interval
       suggestion := if early = 0 then "" else "Insert a register to hold the value" }]
  | .error times =>
    [{ kind := .incomparableEvents
       message := (Fault.incomparable times).message
       location := loc
       component := b.caller.name
       fields := [("left", .str times.left.text), ("right", .str times.right.text)] ++ ends
       available := src.interval
       required := dest.interval }]

/-- Checks one more wire. A destination that resolves is driven from then on, whatever its source. -/
def connect (b : Bench) (ws : Wires) (wire : Wire) : Except Fault (Wires × List Diagnostic) := do
  let (dest?, destFound) ← b.endpoint wire.dest .sink wire.loc
  let (src?, srcFound) ← b.endpoint wire.src .source wire.loc
  let found := destFound ++ srcFound
  match dest? with
  | none => return (ws, found)
  | some dest =>
    let key := wire.dest.text
    match ws.drivers.lookup key with
    | some driver =>
      return (ws, found ++ [b.diagnostic .doubleDrive
        ("'" ++ key ++ "' is already driven by '" ++ driver.text ++
          "'; cannot also drive it from '" ++ wire.src.text ++ "'") wire.loc
        [("port", .str key), ("first", .str driver.text), ("second", .str wire.src.text)]])
    | none =>
      let ws := { ws with drivers := ws.drivers ++ [(key, wire.src)] }
      match src? with
      | none => return (ws, found)
      | some src =>
        return (ws, found ++ b.checkWidths dest src wire.loc ++ b.checkIntervals dest src wire.loc)

inductive Step where
  | wire (w : Wire)
  /-- The invocation has a wrong number of inputs, of which none is wired. -/
  | misfit (invocation : String) (complaint : Diagnostic)

def inputSteps (b : Bench) (inv : Invocation) : List Step :=
  match b.schedule.firing? inv.name, inv.inputs with
  | some f, some sources =>
    let inputs := f.inst.signature.inputs
    if sources.length = inputs.length then
      (inputs.zip sources).map fun (p, src) => .wire ⟨⟨some inv.name, p.name⟩, src, inv.loc⟩
    else
      [.misfit inv.name (b.diagnostic .arityMismatch
        ("'" ++ inv.name ++ "' passes " ++ toString sources.length ++ " input(s) but '" ++
          f.inst.signature.name ++ "' takes " ++ toString inputs.length) inv.loc
        [("invocation", .str inv.name), ("expected", .int inputs.length),
          ("actual", .int sources.length)])]
  | _, _ => []

/-- The inputs of all invocations, then the connections. -/
def steps (b : Bench) (body : Body) : List Step :=
  body.invocations.flatMap b.inputSteps ++
    body.connections.map fun c => .wire ⟨c.dest, c.src, c.loc⟩

def step (b : Bench) (ws : Wires) : Step → Except Fault (Wires × List Diagnostic)
  | .wire w => b.connect ws w
  | .misfit invocation complaint =>
    return ({ ws with misfits := ws.misfits ++ [invocation] }, [complaint])

/-- Takes steps one after the other; a fault ends the walk and keeps the wires so far. -/
def walk (b : Bench) (ws : Wires) : List Step → Wires × Except Fault (List Diagnostic)
  | [] => (ws, .ok [])
  | s :: rest =>
    match b.step ws s with
    | .error e => (ws, .error e)
    | .ok (ws, found) =>
      let (ws, later) := b.walk ws rest
      (ws, later.map (found ++ ·))

/-- Destinations without a driver: outputs of the caller, then inputs of triggerings. -/
def undriven (b : Bench) (ws : Wires) (body : Body) : List Diagnostic :=
  let driven (key : String) := ws.drivers.any (·.1 == key)
  let outputs := (b.caller.signature.outputs.filter (!driven ·.name)).map fun p =>
    b.diagnostic .undrivenPort
      ("Output '" ++ p.name ++ "' of '" ++ b.caller.name ++ "' is never driven")
      (p.loc <|> b.caller.signature.loc) [("port", .str p.name)]
  let inputs := body.invocations.flatMap fun inv =>
    match b.schedule.firing? inv.name with
    | none => []
    | some f =>
      if inv.name ∈ ws.misfits then []
      else
        let keys := f.inst.signature.inputs.map fun p => inv.name ++ "." ++ p.name
        (keys.filter (!driven ·)).map fun key =>
          b.diagnostic .undrivenPort ("Input '" ++ key ++ "' is never driven") inv.loc
            [("port", .str key)]
  outputs ++ inputs

def check (b : Bench) (ws : Wires) (body : Body) : Wires × Except Fault (List Diagnostic) :=
  let (ws, found) := b.walk ws (b.steps body)
  (ws, found.map (· ++ b.undriven ws body))

end Bench

end Chronogram
