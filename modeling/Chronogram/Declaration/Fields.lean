import Chronogram.Declaration.Reading
import Chronogram.Text.Numeral

/-! Building declarations and statements from records of plain data. All fields of a record are
checked, in the order of their declaration, and every refusal is kept under the path of its field;
unknown fields are refused after the known ones. A rule about several fields is looked at only when
each of them is in order. -/

namespace Chronogram

abbrev Issue := List String × Fault

inductive Checked (α : Type) where
  | fine (value : α)
  | flawed (issues : List Issue)

namespace Checked

instance : Applicative Checked where
  pure := fine
  seq f x :=
    match f, x () with
    | fine f, fine a => fine (f a)
    | fine _, flawed issues => flawed issues
    | flawed issues, fine _ => flawed issues
    | flawed issues, flawed others => flawed (issues ++ others)

def refuse (cause : Fault) : Checked α := flawed [([], cause)]

def ofExcept : Except Fault α → Checked α
  | .ok a => fine a
  | .error cause => refuse cause

def andThen (c : Checked α) (f : α → Checked β) : Checked β :=
  match c with
  | fine a => f a
  | flawed issues => flawed issues

def inside (part : String) : Checked α → Checked α
  | fine a => fine a
  | flawed issues => flawed (issues.map fun (path, cause) => (part :: path, cause))

def isWrongKind : Fault → Bool
  | .wrongKind => true
  | _ => false

/-- The record, or the fault that some of its fields are refused. A value that cannot be gone
through is a fault of its own. -/
def finish (model : Model) : Checked α → Except Fault α
  | fine a => .ok a
  | flawed issues =>
    if issues.any fun i => isWrongKind i.2 then .error .wrongKind else .error (.rejected model issues)

def items (check : Datum → Checked α) (ds : List Datum) : Checked (List α) :=
  go 0 ds
where
  go (k : Nat) : List Datum → Checked (List α)
    | [] => fine []
    | d :: ds => List.cons <$> inside (toString k) (check d) <*> go (k + 1) ds

end Checked

open Checked

abbrev Entries := List (Datum × Datum)

/-- A field and its other spelling. -/
structure FieldName where
  name : String
  other : String

instance : Coe String FieldName := ⟨fun s => ⟨s, s⟩⟩

namespace Entries

def spelling (es : Entries) (f : FieldName) : String :=
  if (Datum.field? es f.other).isSome then f.other else f.name

def get? (es : Entries) (f : FieldName) : Option Datum := Datum.field? es (spelling es f)

def required (es : Entries) (f : FieldName) (check : Datum → Checked α) : Checked α :=
  inside f.name (match get? es f with | some d => check d | none => refuse .missing)

def optional (es : Entries) (f : FieldName) (default : α) (check : Datum → Checked α) : Checked α :=
  match get? es f with
  | some d => inside f.name (check d)
  | none => fine default

def noOthers (es : Entries) (known : List FieldName) : Checked Unit :=
  match es.filter fun e => !known.any fun f => Datum.isKey (spelling es f) e.1 with
  | [] => fine ()
  | others => flawed (others.map fun e => ([e.1.shown], .unknownField))

end Entries

namespace Datum

def checkText : Datum → Checked String
  | text s (.text _) => fine s
  | _ => refuse .notText

def checkInteger : Datum → Checked Int
  | int n => fine n
  | bool b => fine (if b then 1 else 0)
  | text s (.text _) =>
    match Text.integer? s with
    | some n => fine n
    | none => refuse .notNumeral
  | text _ (.fraction f) =>
    match f, f.whole? with
    | .finite .., some n => if n.natAbs < Nat.pow 2 63 then fine n else refuse .tooLarge
    | .finite .., none => refuse .notWhole
    | _, _ => refuse .notFinite
  | _ => refuse .notInteger

def checkTruth : Datum → Checked Bool
  | bool b => fine b
  | int 0 => fine false
  | int 1 => fine true
  | text s (.text _) =>
    let word := Text.lower s
    if word ∈ ["1", "true", "t", "yes", "y", "on"] then fine true
    else if word ∈ ["0", "false", "f", "no", "n", "off"] then fine false
    else refuse .notTruthValue
  | text _ (.fraction f) =>
    match f.whole? with
    | some 0 => fine false
    | some 1 => fine true
    | _ => refuse .notTruthValue
  | _ => refuse .notTruthValue

def checkOption (check : Datum → Checked α) : Datum → Checked (Option α)
  | null => fine none
  | d => some <$> check d

def checkRecord (check : Entries → Checked α) : Datum → Checked α
  | record es => check es
  | _ => refuse .notRecord

def checkElements (check : List Datum → Checked α) (d : Datum) : Checked α :=
  match d.elements? with
  | some ds => check ds
  | none => refuse .wrongKind

def checkList (check : Datum → Checked α) : Datum → Checked (List α)
  | list ds => items check ds
  | _ => refuse .notList

/-- A name without the white space around it, after `strip` took off what may stand in front. -/
def checkName (strip : String → String) (d : Datum) : Checked String :=
  (checkText d).andThen fun s =>
    let name := Text.trim (strip s)
    if name.isEmpty then refuse .emptyName else fine name

end Datum

open Entries Datum

def Loc.check : Datum → Checked (Option Loc) :=
  checkOption <| checkRecord fun es =>
    Loc.mk <$> es.optional "file" none (checkOption checkText)
      <*> es.optional "line" none (checkOption checkInteger)

def Expr.ofDatum : Datum → Except Fault Expr
  | .int n => .ok (.const n)
  | .text s (.text _) => Expr.parse s
  | .bool b => .error (.truthValue b)
  | d => .error (.notExpression d.inner)

def Expr.check (d : Datum) : Checked Expr := ofExcept (Expr.ofDatum d)

/-- An expression given node by node, with its nodes told apart by their kind. -/
def Expr.checkTree : Nat → Datum → Checked Expr
  | 0, _ => refuse .notRecord
  | depth + 1, d => d |> checkRecord fun es =>
    let operands (node : Expr → Expr → Expr) : Checked Expr :=
      node <$> es.required "lhs" (checkTree depth) <*> es.required "rhs" (checkTree depth)
        <* es.noOthers ["kind", "lhs", "rhs"]
    match es.get? "kind" with
    | some (.text "const" (.text _)) =>
      Expr.const <$> es.required "value" checkInteger <* es.noOthers ["kind", "value"]
    | some (.text "param" (.text _)) =>
      Expr.param <$> es.required "name" checkText <* es.noOthers ["kind", "name"]
    | some (.text "event" (.text _)) =>
      Expr.event <$> es.required "name" checkText <* es.noOthers ["kind", "name"]
    | some (.text "add" (.text _)) => operands .add
    | some (.text "sub" (.text _)) => operands .sub
    | some (.text "mul" (.text _)) => operands .mul
    | some _ => refuse .notMember
    | none => inside "kind" (refuse .missing)

/-- An event's name, with or without its quote. -/
def checkEventName : Datum → Checked String := checkName Time.eventName

def Time.check : Datum → Checked Time :=
  checkRecord fun es =>
    Time.mk <$> es.required "event" checkEventName <*> es.optional "offset" 0 checkInteger
      <* es.noOthers ["event", "offset"]

def Time.checkBound : Datum → Checked Time
  | .text s (.text _) => ofExcept (Time.parse s)
  | d => Time.check d

def Interval.check : Datum → Checked Interval :=
  checkRecord fun es =>
    (Prod.mk <$> es.required "start" Time.checkBound <*> es.required "end" Time.checkBound
      <* es.noOthers ["start", "end"]).andThen fun (start, stop) =>
        ofExcept (Interval.between start stop)

def Interval.checkWindow : Datum → Checked Interval
  | .text s (.text _) => ofExcept (Interval.parse s)
  | d => Interval.check d

def Parameter.check : Datum → Checked Parameter :=
  checkRecord fun es =>
    (fun name loc default description => { name, default, description, loc : Parameter })
      <$> es.required "name" (checkName fun s => Text.dropLeading '?' (Text.trim s))
      <*> es.optional "loc" none Loc.check
      <*> es.optional "default" none (checkOption Expr.check)
      <*> es.optional "description" "" checkText
      <* es.noOthers ["name", "loc", "default", "description"]

def Event.check : Datum → Checked Event :=
  checkRecord fun es =>
    (fun name loc delay description => { name, delay, description, loc : Event })
      <$> es.required "name" checkEventName
      <*> es.optional "loc" none Loc.check
      <*> es.required "delay" Expr.check
      <*> es.optional "description" "" checkText
      <* es.noOthers ["name", "loc", "delay", "description"]

def Direction.check : Datum → Checked Direction
  | .text s (.text _) => ofExcept (Direction.ofText s)
  | _ => refuse .notMember

def Port.check : Datum → Checked Port :=
  checkRecord fun es =>
    (fun name loc direction width interval description =>
        { name, direction, width, interval, description, loc : Port })
      <$> es.required "name" (checkName id)
      <*> es.optional "loc" none Loc.check
      <*> es.required "direction" Direction.check
      <*> es.optional "width" (.const 1)
        (fun d => (Expr.check d).andThen fun e => ofExcept (Port.checkWidth e))
      <*> es.required "interval" Interval.checkWindow
      <*> es.optional "description" "" checkText
      <* es.noOthers ["name", "loc", "direction", "width", "interval", "description"]

def Relation.check : Datum → Checked Relation
  | .text s (.text _) =>
    match Relation.ofText? s with
    | some r => fine r
    | none => refuse .notMember
  | _ => refuse .notMember

def Clause.check : Datum → Checked Clause :=
  checkRecord fun es =>
    (fun lhs relation rhs loc => { lhs, relation, rhs, loc : Clause })
      <$> es.required "lhs" Expr.check
      <*> es.required "relation" Relation.check
      <*> es.required "rhs" Expr.check
      <*> es.optional "loc" none Loc.check
      <* es.noOthers ["lhs", "relation", "rhs", "loc"]

def checkEvents (d : Datum) : Checked (Event × List Event) :=
  (checkList Event.check d).andThen fun
    | [] => refuse .noEvents
    | e :: es => fine (e, es)

def Signature.check : Datum → Checked Signature :=
  checkRecord fun es =>
    (fun name loc params events ports clauses external description =>
        { name, params, primary := events.1, secondary := events.2, ports, clauses, external,
          description, loc : Signature })
      <$> es.required "name" (checkName id)
      <*> es.optional "loc" none Loc.check
      <*> es.optional "params" [] (checkList Parameter.check)
      <*> es.required "events" checkEvents
      <*> es.optional "ports" [] (checkList Port.check)
      <*> es.optional "where" [] (checkList Clause.check)
      <*> es.optional "extern" false checkTruth
      <*> es.optional "description" "" checkText
      <* es.noOthers ["name", "loc", "params", "events", "ports", "where", "extern", "description"]

def PortRef.check : Datum → Checked PortRef :=
  checkRecord fun es =>
    (fun port invocation => ⟨invocation, port⟩)
      <$> es.required "port" checkText
      <*> es.optional "invocation" none (checkOption checkText)
      <* es.noOthers ["port", "invocation"]

def PortRef.checkEnd : Datum → Checked PortRef
  | .text s (.text _) => fine (PortRef.ofText s)
  | d => PortRef.check d

/-- Arguments are read one after the other; the first that is none ends the reading. -/
def checkArguments : Datum → Checked (List Expr) :=
  checkElements fun ds => ofExcept (ds.mapM Expr.ofDatum)

/-- Name and value of each entry of a record, or of each pair in a list. -/
def namedPairs : Datum → Except Fault (List (String × Datum))
  | .record es => .ok (es.map fun (k, v) => (k.shown, v))
  | d =>
    match d.elements? with
    | none => .error .wrongKind
    | some ds => ds.zipIdx.mapM fun (item, i) =>
      match item.elements? with
      | none => .error .wrongKind
      | some [k, v] => .ok (k.shown, v)
      | some parts => .error (.notPair i parts.length)

def checkNamedArguments (d : Datum) : Checked (List (String × Expr)) :=
  ofExcept do
    let pairs ← namedPairs d
    let last := pairs.foldl (fun acc (k, v) =>
      if acc.any (·.1 == k) then acc.map fun p => if p.1 == k then (k, v) else p
      else acc ++ [(k, v)]) []
    last.mapM fun (k, v) => return (k, ← Expr.ofDatum v)

def Instantiation.check : Datum → Checked Instantiation :=
  checkRecord fun es =>
    (fun name loc component args named => { name, component, args, named, loc : Instantiation })
      <$> es.required "name" (checkName id)
      <*> es.optional "loc" none Loc.check
      <*> es.required "component" checkText
      <*> es.optional "args" [] checkArguments
      <*> es.optional ⟨"named_args", "namedArgs"⟩ [] checkNamedArguments
      <* es.noOthers ["name", "loc", "component", "args", ⟨"named_args", "namedArgs"⟩]

/-- Times that are written as texts are all read before the others are looked at. -/
def checkTimes : Datum → Checked (List Time) :=
  checkElements fun ds =>
    (ofExcept (ds.forM fun
      | .text s (.text _) => discard (Time.parse s)
      | _ => .ok ())).andThen fun _ => items Time.checkBound ds

def Invocation.check : Datum → Checked Invocation :=
  checkRecord fun es =>
    (fun name loc target times inputs => { name, target, times, inputs, loc : Invocation })
      <$> es.required "name" (checkName id)
      <*> es.optional "loc" none Loc.check
      <*> es.required "instance" checkText
      <*> es.required "events" checkTimes
      <*> es.optional "inputs" none (checkOption (checkElements (items PortRef.checkEnd)))
      <* es.noOthers ["name", "loc", "instance", "events", "inputs"]

def Connection.check : Datum → Checked Connection :=
  checkRecord fun es =>
    (fun dest src loc => { dest, src, loc : Connection })
      <$> es.required "dest" PortRef.checkEnd
      <*> es.required "src" PortRef.checkEnd
      <*> es.optional "loc" none Loc.check
      <* es.noOthers ["dest", "src", "loc"]

end Chronogram
