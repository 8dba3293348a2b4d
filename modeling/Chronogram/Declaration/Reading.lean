import Chronogram.Expr.Reading
import Chronogram.Statement

/-! Reading one-line declarations and statements. A reader either reads something from the front of
the tokens, or finds that they do not start with it, or finds that they do and that a rule beyond
the grammar is broken; the last outcome is final, even where another reading would be tried. -/

namespace Chronogram

def Reader (α : Type) := List Token → Except Fault (Option (α × List Token))

namespace Reader

instance : Monad Reader where
  pure a := fun ts => .ok (some (a, ts))
  bind p f := fun ts =>
    match p ts with
    | .ok (some (a, rest)) => f a rest
    | .ok none => .ok none
    | .error e => .error e

def fail : Reader α := fun _ => .ok none

def broken (cause : Fault) : Reader α := fun _ => .error cause

def either (p q : Reader α) : Reader α := fun ts =>
  match p ts with
  | .ok none => q ts
  | r => r

def optional (p : Reader α) : Reader (Option α) := fun ts =>
  match p ts with
  | .ok none => .ok (some (none, ts))
  | .ok (some (a, rest)) => .ok (some (some a, rest))
  | .error e => .error e

def mark (m : Mark) : Reader Unit
  | .mark k :: ts => .ok (if k = m then some ((), ts) else none)
  | _ => .ok none

def word : Reader String
  | .word w :: ts => .ok (some (w, ts))
  | _ => .ok none

def number : Reader Nat
  | .number n :: ts => .ok (some (n, ts))
  | _ => .ok none

def eventName : Reader String
  | .event e :: ts => .ok (some (e, ts))
  | _ => .ok none

def expr : Reader Expr := fun ts => .ok (Expr.read ts)

def more (p : Reader α) : Nat → Reader (List α)
  | 0 => pure []
  | fuel + 1 => do
    match ← optional (do mark .comma; p) with
    | some a => return a :: (← more p fuel)
    | none => return []

def list (p : Reader α) : Reader (List α) := fun ts =>
  (do let a ← p; return a :: (← more p ts.length) : Reader (List α)) ts

/-- Possibly no items, between two marks. -/
def enclosed (open_ close : Mark) (p : Reader α) : Reader (List α) := do
  mark open_
  let items ← optional (list p)
  mark close
  return items.getD []

def whole (p : Reader α) (what : Phrase) (s : String) : Except Fault α :=
  match p (Token.scan s.toList) with
  | .ok (some (a, [])) => .ok a
  | .ok _ => .error (.unreadable what s .noReading)
  | .error cause => .error (.unreadable what s cause)

def time : Reader Time := do
  let event ← eventName
  let offset ← optional (do
    let sign ← either (do mark .plus; return (1 : Int)) (do mark .minus; return -1)
    return sign * (← number))
  return ⟨event, offset.getD 0⟩

def interval : Reader Interval := do
  mark .openBracket
  let start ← time
  mark .comma
  let stop ← time
  either (mark .closeParen) (mark .closeBracket)
  match Interval.between start stop with
  | .ok i => return i
  | .error cause => broken (.rejected .interval [([], cause)])

def relation : Reader Relation
  | .mark .less :: ts => .ok (some (.lt, ts))
  | .mark .lessEq :: ts => .ok (some (.le, ts))
  | .mark .greater :: ts => .ok (some (.gt, ts))
  | .mark .greaterEq :: ts => .ok (some (.ge, ts))
  | .mark .equal :: ts => .ok (some (.eq, ts))
  | _ => .ok none

def clause : Reader Clause := do
  let lhs ← expr
  let r ← relation
  return { lhs, relation := r, rhs := ← expr }

def parameter : Reader Parameter := do
  let sign ← optional (mark .question)
  let name ← word
  let default ← optional (do mark .becomes; expr)
  if sign.isSome && default.isNone then broken (.needsDefault name)
  else return { name, default }

def event : Reader Event := do
  let name ← eventName
  mark .colon
  return { name, delay := ← expr }

def port : Reader (String × Interval × Expr) := do
  let name ← word
  mark .colon
  let i ← interval
  return (name, i, ← expr)

def portRef : Reader PortRef := do
  let head ← word
  match ← optional (do mark .dot; word) with
  | some tail => return ⟨some head, tail⟩
  | none => return ⟨none, head⟩

def argument : Reader (Option String × Expr) :=
  either (do let name ← word; mark .becomes; return (some name, ← expr)) (do return (none, ← expr))

/-- Named arguments stand in the order of their first occurrence; the last value counts. -/
def setNamed (named : List (String × Expr)) (name : String) (e : Expr) : List (String × Expr) :=
  if named.any (·.1 == name) then named.map fun p => if p.1 == name then (name, e) else p
  else named ++ [(name, e)]

def instantiation : Reader Instantiation := do
  let name ← word
  mark .define
  let keyword ← word
  if keyword != "new" then fail
  else
    let component ← word
    let arguments := (← optional (enclosed .openBracket .closeBracket argument)).getD []
    return { name, component
             args := arguments.filterMap fun a => if a.1.isNone then some a.2 else none
             named := arguments.foldl (fun named a =>
               match a.1 with
               | some n => setNamed named n a.2
               | none => named) [] }

def invocation : Reader Invocation := do
  let name ← word
  mark .define
  let target ← word
  mark .less
  let times ← list time
  mark .greater
  return { name, target, times, inputs := ← optional (enclosed .openParen .closeParen portRef) }

def connection : Reader Connection := do
  let dest ← portRef
  mark .becomes
  return { dest, src := ← portRef }

def statement : Reader Statement :=
  either (do return .instantiate (← instantiation))
    (either (do return .invoke (← invocation)) (do return .connect (← connection)))

end Reader

def Expr.parse (s : String) : Except Fault Expr := Reader.expr.whole .expression s

def Time.parse (s : String) : Except Fault Time := Reader.time.whole .time s

def Interval.parse (s : String) : Except Fault Interval := Reader.interval.whole .interval s

def Clause.parse (s : String) (loc : Option Loc) : Except Fault Clause := do
  return { ← Reader.clause.whole .clause s with loc }

def Parameter.parse (s : String) (loc : Option Loc) : Except Fault Parameter := do
  return { ← Reader.parameter.whole .parameter s with loc }

def Event.parse (s : String) (loc : Option Loc) : Except Fault Event := do
  return { ← Reader.event.whole .event s with loc }

/-- Reads a port of the direction that is given by its word. -/
def Port.parse (s direction : String) (loc : Option Loc) : Except Fault Port := do
  let (name, interval, width) ← Reader.port.whole .port s
  match Direction.ofText direction, Port.checkWidth width with
  | .ok direction, .ok width => return { name, direction, width, interval, loc }
  | d, w =>
    let issues := (match d with | .ok _ => [] | .error e => [(["direction"], e)]) ++
      (match w with | .ok _ => [] | .error e => [(["width"], e)])
    throw (.unreadable .port s (.rejected .port issues))

def Statement.parse (s : String) (loc : Option Loc) : Except Fault Statement := do
  return (← Reader.statement.whole .statement s).withLoc loc

end Chronogram
