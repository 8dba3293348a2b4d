import Chronogram.Datum.Fraction
import Chronogram.Datum.Moment
import Chronogram.Text.Quoted

/-! Plain data: what a design file holds before it is read as a design, and what a report is before
it is written as text. Fractions and moments are kept as they are written, together with what they
stand for. -/

namespace Chronogram

/-- What something written stands for. A text stands for itself; one from a file knows the line on
which it starts. -/
inductive Datum.Kind where
  | text (line : Option Nat)
  | fraction (value : Fraction)
  | moment (value : Moment)
  deriving Inhabited, Repr

instance : Coe (Option Nat) Datum.Kind := ⟨.text⟩

inductive Datum where
  | null
  | bool (value : Bool)
  | int (value : Int)
  | text (written : String) (kind : Datum.Kind)
  | list (items : List Datum)
  | record (entries : List (Datum × Datum))
  deriving Inhabited, Repr

namespace Datum

/-- A text that comes from no file. -/
def str (s : String) : Datum := text s (.text none)

def texts (items : List String) : Datum := list (items.map str)

def object (entries : List (String × Datum)) : Datum := record (entries.map fun (k, v) => (str k, v))

def ofOption (f : α → Datum) : Option α → Datum
  | none => null
  | some a => f a

def line : Datum → Option Nat
  | text _ (.text line) => line
  | _ => none

/-- Null, `false`, zero and everything empty count as absent. -/
def isPresent : Datum → Bool
  | null => false
  | bool b => b
  | int n => n != 0
  | text s (.text _) => !s.isEmpty
  | text _ (.fraction f) => !f.isZero
  | text _ (.moment _) => true
  | list items => !items.isEmpty
  | record entries => !entries.isEmpty

/-- Equality of scalars, where lines do not count and `true` and `false` equal one and zero.
Lists and records equal nothing. -/
def sameScalar : Datum → Datum → Bool
  | null, null => true
  | text s (.text _), text t (.text _) => s == t
  | text _ (.fraction f), text _ (.fraction g) => f.same g
  | text _ (.moment m), text _ (.moment n) => m == n
  | text _ (.fraction f), int b => f.whole? == some b
  | int a, text _ (.fraction f) => f.whole? == some a
  | text _ (.fraction f), bool b => f.whole? == some (if b then 1 else 0)
  | bool a, text _ (.fraction f) => f.whole? == some (if a then 1 else 0)
  | bool a, bool b => a == b
  | int a, int b => a == b
  | bool a, int b => (if a then 1 else 0) == b
  | int a, bool b => a == (if b then 1 else 0)
  | _, _ => false

def isKey (name : String) : Datum → Bool
  | text s (.text _) => s == name
  | _ => false

def field? (entries : List (Datum × Datum)) (name : String) : Option Datum :=
  (entries.find? fun e => isKey name e.1).map (·.2)

/-- What goes through a value one by one: the items of a list, the characters of a text, the keys
of a record. -/
def elements? : Datum → Option (List Datum)
  | list items => some items
  | text s (.text _) => some (s.toList.map fun c => str c.toString)
  | record entries => some (entries.map (·.1))
  | _ => none

mutual

/-- The value as part of a larger one: texts are quoted. -/
def inner : Datum → String
  | null => "None"
  | bool true => "True"
  | bool false => "False"
  | int n => toString n
  | text s (.text _) => Text.quoted s
  | text _ (.fraction f) => f.text
  | text _ (.moment m) => m.inner
  | list items => "[" ++ Text.commas (innerItems items) ++ "]"
  | record entries => "\x7b" ++ Text.commas (innerEntries entries) ++ "\x7d"

def innerItems : List Datum → List String
  | [] => []
  | d :: ds => inner d :: innerItems ds

def innerEntries : List (Datum × Datum) → List String
  | [] => []
  | (k, v) :: es => (inner k ++ ": " ++ inner v) :: innerEntries es

end

/-- The value as a text of its own: a text stands for itself. -/
def shown : Datum → String
  | text s (.text _) => s
  | text _ (.moment m) => m.text
  | d => inner d

end Datum

end Chronogram
