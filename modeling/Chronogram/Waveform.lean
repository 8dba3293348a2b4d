import Chronogram.Interval
import Chronogram.Text.Basic

/-! Two intervals drawn as rows of one character for each cycle, under a ruler of the last digits of
the cycle numbers. -/

namespace Chronogram

structure Waveform where
  event : String
  first : Int
  span : Nat
  available : Interval
  required : Interval

namespace Waveform

/-- The drawing of two intervals whose four bounds are on one event. -/
def of? (available required : Interval) : Option Waveform :=
  let bounds := [available.stop, required.start, required.stop]
  let event := available.start.event
  if bounds.all (·.event == event) then
    let first := bounds.foldl (fun m t => min m t.offset) available.start.offset
    let last := bounds.foldl (fun m t => max m t.offset) available.start.offset
    some ⟨event, first, (last - first).toNat, available, required⟩
  else none

def cycles (w : Waveform) : List Int := (List.range w.span).map fun (k : Nat) => w.first + k

def row (w : Waveform) (i : Interval) : List Char :=
  w.cycles.map fun c => if i.start.offset ≤ c ∧ c < i.stop.offset then '#' else '.'

def ruler (w : Waveform) : List Char :=
  w.cycles.map fun c => Char.ofNat ('0'.toNat + c.natAbs % 10)

def signed (n : Int) : String := if 0 ≤ n then "+" ++ toString n else toString n

def lines (w : Waveform) : List String :=
  [Text.padded 10 "cycle" ++ " " ++ String.ofList w.ruler ++ "   ('" ++ w.event ++ signed w.first ++
      " onwards)",
    Text.padded 10 "available" ++ " " ++ String.ofList (w.row w.available) ++ "   " ++
      w.available.text,
    Text.padded 10 "required" ++ " " ++ String.ofList (w.row w.required) ++ "   " ++
      w.required.text]

end Waveform

end Chronogram
