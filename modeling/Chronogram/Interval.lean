import Chronogram.Time

/-! Half-open intervals of cycles. The last cycle of `[start, stop)` is the one before `stop`. When
both bounds are on one event the interval holds at least one cycle. -/

namespace Chronogram

structure Interval where
  start : Time
  stop : Time
  nonempty : start.event = stop.event → start.offset < stop.offset
  deriving DecidableEq

namespace Interval

/-- The interval between two times, unless it can be seen to be empty. -/
def between? (start stop : Time) : Option Interval :=
  if h : start.event = stop.event → start.offset < stop.offset then some ⟨start, stop, h⟩ else none

/-- The cycles of an interval. -/
def Covers (i : Interval) (ρ : Symbol → Int) (cycle : Int) : Prop :=
  i.start.cycle ρ ≤ cycle ∧ cycle < i.stop.cycle ρ

def textOf (start stop : Time) : String := "[" ++ start.text ++ ", " ++ stop.text ++ ")"

def text (i : Interval) : String := textOf i.start i.stop

instance : ToString Interval := ⟨text⟩

/-- The number of cycles, when both bounds are on one event. -/
def length? (i : Interval) : Option Int :=
  if i.start.event = i.stop.event then some (i.stop.offset - i.start.offset) else none

def events (i : Interval) : List String := [i.start.event, i.stop.event]

def lengthForm (i : Interval) : LinearForm := i.stop.form - i.start.form

def substBounds? (binding : List (String × Time)) (i : Interval) : Option (Time × Time) := do
  return (← i.start.subst? binding, ← i.stop.subst? binding)

/-- Whether `available` lasts for all of `required`. Both pairs of bounds are compared, so bounds
on different events are found in any case. -/
def contains (required available : Interval) : Except Time.Incomparable Bool := do
  let inTime ← available.start.compare .le required.start
  let longEnough ← required.stop.compare .le available.stop
  return inTime && longEnough

/-- By how many cycles `available` comes late for `required` and by how many it ends early. -/
def gap (required available : Interval) : Except Time.Incomparable (Int × Int) := do
  let late ← available.start.since required.start
  let early ← required.stop.since available.stop
  return (max 0 late, max 0 early)

end Interval

end Chronogram
