import Chronogram.Expr.Basic
import Chronogram.Relation

/-! Points in time: an event and a number of cycles after it. Only times on one event compare. -/

namespace Chronogram

structure Time where
  event : String
  offset : Int
  deriving DecidableEq, Repr

namespace Time

/-- The cycle that a time denotes when every event is assigned the cycle at which it happens. -/
def cycle (ρ : Symbol → Int) (t : Time) : Int := ρ (.ofEvent t.event) + t.offset

def text (t : Time) : String :=
  "'" ++ t.event ++
    (if 0 < t.offset then "+" ++ toString t.offset
     else if t.offset < 0 then toString t.offset
     else "")

instance : ToString Time := ⟨text⟩

/-- The name of an event as it is kept: without blanks around it and quotes in front of it. -/
def eventName (s : String) : String := Text.trim (Text.dropLeading '\'' (Text.trim s))

/-- The time on the event that a text names, unless nothing is left of the name. -/
def on? (event : String) (offset : Int) : Option Time :=
  if (eventName event).isEmpty then none else some ⟨eventName event, offset⟩

/-- The time some cycles later, on the event that is named by the name of this one. -/
def shift? (t : Time) (cycles : Int) : Option Time := on? t.event (t.offset + cycles)

def toExpr (t : Time) : Expr :=
  if t.offset = 0 then .event t.event else .add (.event t.event) (.const t.offset)

def form (t : Time) : LinearForm := .symbol (.ofEvent t.event) t.offset

/-- Replaces the event by the time bound to it and keeps the offset. -/
def subst? (binding : List (String × Time)) (t : Time) : Option Time :=
  match binding.lookup t.event with
  | some target => target.shift? t.offset
  | none => some t

structure Incomparable where
  left : Time
  right : Time
  deriving DecidableEq, Repr

def since (t s : Time) : Except Incomparable Int :=
  if t.event = s.event then .ok (t.offset - s.offset) else .error ⟨t, s⟩

def compare (r : Relation) (t s : Time) : Except Incomparable Bool :=
  if t.event = s.event then .ok (r.Holds t.offset s.offset) else .error ⟨t, s⟩

end Time

end Chronogram
