import Chronogram.Text.Numeral

/-! Days, and times of a day with or without the zone in which they are told. -/

namespace Chronogram

structure Clock where
  hour : Nat
  minute : Nat
  second : Nat
  micro : Nat
  /-- How many minutes the zone is ahead. -/
  zone : Option Int
  deriving DecidableEq, Repr

structure Moment where
  year : Nat
  month : Nat
  day : Nat
  clock : Option Clock
  deriving DecidableEq, Repr

namespace Clock

def isValid (c : Clock) : Bool :=
  c.hour < 24 && c.minute < 60 && c.second < 60 && c.zone.all fun z => z.natAbs < 24 * 60

def zoneText (z : Int) : String :=
  (if z < 0 then "-" else "+") ++ Text.numeral 2 (z.natAbs / 60) ++ ":" ++ Text.numeral 2 (z.natAbs % 60)

def text (c : Clock) : String :=
  Text.joined ":" ([c.hour, c.minute, c.second].map (Text.numeral 2)) ++
    (if c.micro = 0 then "" else "." ++ Text.numeral 6 c.micro) ++ c.zone.elim "" zoneText

def innerZone (z : Int) : String :=
  if z = 0 then "datetime.timezone.utc"
  else
    let seconds := if z < 0 then "days=-1, seconds=" ++ toString (60 * (24 * 60 + z))
      else "seconds=" ++ toString (60 * z)
    "datetime.timezone(datetime.timedelta(" ++ seconds ++ "))"

end Clock

namespace Moment

def daysIn (year month : Nat) : Nat :=
  if month = 2 then
    if year % 4 = 0 ∧ (year % 100 ≠ 0 ∨ year % 400 = 0) then 29 else 28
  else if month ∈ [4, 6, 9, 11] then 30
  else 31

def isValid (m : Moment) : Bool :=
  1 ≤ m.year && 1 ≤ m.month && m.month ≤ 12 && 1 ≤ m.day && m.day ≤ daysIn m.year m.month &&
    m.clock.all (·.isValid)

def text (m : Moment) : String :=
  Text.numeral 4 m.year ++ "-" ++ Text.numeral 2 m.month ++ "-" ++ Text.numeral 2 m.day ++
    m.clock.elim "" fun c => " " ++ c.text

/-- The moment as part of a larger value. Seconds are left out if there are none. -/
def inner (m : Moment) : String :=
  let day := [m.year, m.month, m.day]
  match m.clock with
  | none => "datetime.date(" ++ Text.commas (day.map toString) ++ ")"
  | some c =>
    let fine := if c.micro ≠ 0 then [c.second, c.micro] else if c.second ≠ 0 then [c.second] else []
    let zone := c.zone.toList.map fun z => "tzinfo=" ++ Clock.innerZone z
    "datetime.datetime(" ++
      Text.commas ((day ++ [c.hour, c.minute] ++ fine).map toString ++ zone) ++ ")"

end Moment

end Chronogram
