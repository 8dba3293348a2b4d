import Chronogram.Declaration.Fields
import Chronogram.Design

/-! What one design file says. Declarations and statements are one-line texts, or records of their
fields; every fault is placed in the file and, where the text at fault has a line, on that line. -/

namespace Chronogram

structure ImportEntry where
  path : String
  line : Option Nat

/-- The content of a design file before its imports are looked up. -/
structure DesignFile where
  apiVersion : String
  name : String
  usePrimitives : Bool
  components : List Component
  imports : List ImportEntry

namespace DesignFile

/-- The value under a name, where everything that counts as absent is left out. -/
def present? (es : Entries) (name : String) : Option Datum :=
  (Datum.field? es name).filter (·.isPresent)

/-- What stands under a name, one by one; nothing if the value counts as absent. -/
def itemsOf (es : Entries) (name : String) : Except Fault (List Datum) :=
  match present? es name with
  | none => .ok []
  | some d => d.elements?.elim (.error .wrongKind) .ok

def unknownKeys (es : Entries) (known : List String) : Except Fault (List String) := do
  let others := es.filter fun e => !known.any fun k => Datum.isKey k e.1
  let names ← others.mapM fun e =>
    match e.1 with
    | .text s (.text _) => .ok s
    | _ => .error .wrongKind
  return Text.sorted names

def place (file : Option String) (d : Datum) : Loc := ⟨file, d.line.map Int.ofNat⟩

/-- Reads the text of an entry and places the fault if there is one. -/
def readText (file : Option String) (parse : String → Option Loc → Except Fault α) (d : Datum) :
    Except Fault α :=
  (parse d.shown (place file d)).mapError (.placed file (d.line.map Int.ofNat))

def fieldOrNull (es : Entries) (name : String) : Datum := (Datum.field? es name).getD .null

def describe (es : Entries) : Datum := (present? es "description").getD (.str "")

def readParameter (file : Option String) (d : Datum) : Except Fault Parameter :=
  match d with
  | .record es => do
    let p ← (Parameter.check (.object [("name", fieldOrNull es "name"),
      ("default", fieldOrNull es "default"), ("description", describe es)])).finish .parameter
    return { p with loc := place file d }
  | d => readText file Parameter.parse d

def readEvent (file : Option String) (d : Datum) : Except Fault Event :=
  match d with
  | .record es => do
    let e ← (Event.check (.object [("name", fieldOrNull es "name"),
      ("delay", fieldOrNull es "delay"), ("description", describe es)])).finish .event
    return { e with loc := place file d }
  | d => readText file Event.parse d

def readPort (file : Option String) (direction : Direction) (d : Datum) : Except Fault Port :=
  match d with
  | .record es => do
    let p ← (Port.check (.object [("name", fieldOrNull es "name"),
      ("direction", .str direction.text), ("width", (Datum.field? es "width").getD (.int 1)),
      ("interval", fieldOrNull es "interval"), ("description", describe es)])).finish .port
    return { p with loc := place file d }
  | d => readText file (fun s => Port.parse s direction.text) d

def readClause (file : Option String) : Datum → Except Fault Clause := readText file Clause.parse

/-- The rules that hold for a signature as a whole: it has a name and at least one event. -/
def assemble (name : String) (params : List Parameter) (events : List Event) (ports : List Port)
    (clauses : List Clause) (external : Bool) (description : String) (loc : Loc) :
    Except Fault Signature :=
  let named := (Datum.str name).checkName id |>.inside "name"
  let timed : Checked (Event × List Event) := match events with
    | [] => (Checked.refuse .noEvents).inside "events"
    | e :: es => .fine (e, es)
  Checked.finish .signature <|
    (fun name (primary, secondary) =>
      { name, params, primary, secondary, ports, clauses, external, description, loc })
    <$> named <*> timed

def readSignature (file : Option String) (es : Entries) (name : Datum) : Except Fault Signature := do
  let params ← (← itemsOf es "params").mapM (readParameter file)
  let events ← (← itemsOf es "events").mapM (readEvent file)
  let inputs ← (← itemsOf es "inputs").mapM (readPort file .input)
  let outputs ← (← itemsOf es "outputs").mapM (readPort file .output)
  let clauses ← (← itemsOf es "where").mapM (readClause file)
  assemble name.shown params events (inputs ++ outputs) clauses (present? es "extern").isSome
    (describe es).shown (place file name)

/-- A fault inside a component is placed at its name, unless it already has a place. -/
def inComponent (file : Option String) (name : Datum) : Fault → Fault
  | .placed f l cause => .placed f l cause
  | cause => .placed file (name.line.map Int.ofNat) (.componentRefused name.shown cause)

def readBody (file : Option String) : Datum → Except Fault Body
  | .list items => return .ofStatements (← items.mapM (readText file Statement.parse))
  | _ => .error (.placed file none .bodyNotList)

def componentKeys : List String :=
  ["name", "extern", "description", "params", "events", "inputs", "outputs", "where", "body"]

def readComponent (file : Option String) (index : Nat) : Datum → Except Fault Component
  | .record es => do
    let some name := present? es "name" | .error (.placed file none (.componentUnnamed index))
    let line := name.line.map Int.ofNat
    let unknown ← unknownKeys es componentKeys
    if !unknown.isEmpty then
      throw (.placed file line (.unknownComponentKeys name.shown unknown))
    let signature ← (readSignature file es name).mapError (inComponent file name)
    match fieldOrNull es "body" with
    | .null => return ⟨signature, none⟩
    | body =>
      if signature.external then throw (.placed file line (.externalBody name.shown))
      return ⟨signature, ← readBody file body⟩
  | _ => .error (.placed file none (.componentNotRecord index))

def designKeys : List String :=
  ["apiVersion", "name", "usePrimitives", "imports", "components", "description"]

def ofDatum (file : Option String) : Datum → Except Fault DesignFile
  | .record es => do
    let unknown ← unknownKeys es designKeys
    if !unknown.isEmpty then throw (.placed file none (.unknownDesignKeys unknown))
    let components ← (← itemsOf es "components").zipIdx.mapM fun (d, i) => readComponent file i d
    let imports := (← itemsOf es "imports").map fun d => ⟨d.shown, d.line⟩
    return { apiVersion := (Datum.field? es "apiVersion").elim "timecraft/v1" (·.shown)
             name := (present? es "name").elim "" (·.shown)
             usePrimitives := (Datum.field? es "usePrimitives").elim true (·.isPresent)
             components, imports }
  | _ => .error (.placed file none .rootNotRecord)

end DesignFile

end Chronogram
