import Chronogram.Datum.Basic
import Chronogram.Yaml.Node

/-! The data that a YAML document stands for. Under a key that occurs several times the last value
counts; the keys of merged mappings come first, so that a mapping's own keys win over them. -/

namespace Chronogram.Yaml

/-- Sets a value under a key. A key that is already there keeps its place. -/
def setEntry (entries : List (Datum × Datum)) (key value : Datum) : List (Datum × Datum) :=
  if entries.any fun e => e.1.sameScalar key then
    entries.map fun e => if e.1.sameScalar key then (e.1, value) else e
  else entries ++ [(key, value)]

def distinctEntries (entries : List (Datum × Datum)) : List (Datum × Datum) :=
  entries.foldl (fun es (k, v) => setEntry es k v) []

namespace Node

def scalarValue (tag : Tag) (content : String) (line : Nat) : Option Datum :=
  match tag with
  | .scalar .null => some .null
  | .scalar .bool => .bool <$> Scalar.bool? content
  | .scalar .int => .int <$> Scalar.int? content
  | .scalar .text => some (.text content (.text line))
  | .scalar .float => (.text content ∘ .fraction) <$> Scalar.fraction? content
  | .scalar .date => (.text content ∘ .moment) <$> Scalar.moment? content
  | _ => none

/-- A key is a scalar; an equals sign stands for itself. -/
def keyValue : Node → Option Datum
  | .scalar (.scalar .value) content line => some (.text content (.text line))
  | .scalar tag content line => scalarValue tag content line
  | _ => none

def isMerge : Node → Bool
  | .scalar tag _ _ => tag == .scalar .merge
  | .sequence tag _ => tag == .scalar .merge
  | .mapping tag _ => tag == .scalar .merge

mutual

def value : Node → Option Datum
  | .scalar tag content line => scalarValue tag content line
  | .sequence tag items => if tag == .sequence then .list <$> values items else none
  | .mapping tag entries =>
    if tag == .mapping then do
      let (merged, own) ← pairs entries
      return .record (distinctEntries (merged ++ own))
    else none

def values : List Node → Option (List Datum)
  | [] => some []
  | n :: ns => do return (← value n) :: (← values ns)

/-- The entries that a mapping takes over from others, and its own. -/
def pairs : List (Node × Node) → Option (List (Datum × Datum) × List (Datum × Datum))
  | [] => some ([], [])
  | (k, v) :: rest => do
    if k.isMerge then
      let entries ← mergeable v
      let (merged, own) ← pairs rest
      return (entries ++ merged, own)
    else
      let entry := (← keyValue k, ← value v)
      let (merged, own) ← pairs rest
      return (merged, entry :: own)

/-- The entries of a mapping, or of all mappings in a sequence, of which the first ones win. -/
def mergeable : Node → Option (List (Datum × Datum))
  | .mapping _ entries => do
    let (merged, own) ← pairs entries
    return merged ++ own
  | .sequence _ items => mergeableItems items
  | .scalar .. => none

def mergeableItems : List Node → Option (List (Datum × Datum))
  | [] => some []
  | .mapping _ entries :: ns => do
    let (merged, own) ← pairs entries
    return (← mergeableItems ns) ++ merged ++ own
  | _ :: _ => none

end

end Node

def parse? (text : String) : Option Datum := do
  match ← Node.ofLexemes (← tokens? text) with
  | none => return .null
  | some node => node.value

end Chronogram.Yaml
