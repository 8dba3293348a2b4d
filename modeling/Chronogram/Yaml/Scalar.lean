import Chronogram.Datum.Fraction
import Chronogram.Datum.Moment

/-! What an unquoted scalar stands for. The forms of numbers, dates and truth values are those of
YAML 1.1: `yes` is a truth value, `010` is eight and `1:30` is ninety. -/

namespace Chronogram.Yaml

inductive ScalarKind where
  | null | bool | int | float | date | merge | value | text
  deriving DecidableEq, Repr

namespace Scalar

def isDigit (c : Char) : Bool := '0' ≤ c && c ≤ '9'

/-- Digits may be grouped by underscores. -/
def isGrouped (c : Char) : Bool := isDigit c || c == '_'

def isHex (c : Char) : Bool := isDigit c || ('a' ≤ c && c ≤ 'f') || ('A' ≤ c && c ≤ 'F')

def dropSign : List Char → List Char
  | '+' :: cs => cs
  | '-' :: cs => cs
  | cs => cs

def some? (p : Char → Bool) (cs : List Char) : Bool := !cs.isEmpty && cs.all p

/-- Groups to the base of sixty, each behind a colon. -/
def sixties : List Char → Bool
  | [':', d] => isDigit d
  | ':' :: d :: ':' :: cs => isDigit d && sixties (':' :: cs)
  | [':', t, d] => '0' ≤ t && t ≤ '5' && isDigit d
  | ':' :: t :: d :: cs => '0' ≤ t && t ≤ '5' && isDigit d && sixties cs
  | _ => false

def isInt (cs : List Char) : Bool :=
  match dropSign cs with
  | '0' :: 'b' :: ds => some? (fun c => c == '0' || c == '1' || c == '_') ds
  | '0' :: 'x' :: ds => some? (fun c => isHex c || c == '_') ds
  | '0' :: ds => ds.all fun c => ('0' ≤ c && c ≤ '7') || c == '_'
  | d :: ds =>
    let rest := ds.dropWhile isGrouped
    isDigit d && (rest.isEmpty || sixties rest)
  | [] => false

/-- Nothing, or an exponent with its sign. -/
def isExponent : List Char → Bool
  | [] => true
  | e :: s :: ds => (e == 'e' || e == 'E') && (s == '+' || s == '-') && some? isDigit ds
  | _ => false

def isFraction (cs : List Char) : Bool :=
  match cs with
  | '.' :: d :: ds => isDigit d && isExponent (ds.dropWhile isGrouped)
  | _ => false

/-- Whole digits and a point, or sixties and a point, and what may follow. -/
def isDecimal (cs : List Char) : Bool :=
  match dropSign cs with
  | d :: ds =>
    isDigit d &&
      let rest := ds.dropWhile isGrouped
      match rest with
      | '.' :: fs => isExponent (fs.dropWhile isGrouped)
      | _ =>
        let groups := rest.takeWhile (· != '.')
        match rest.dropWhile (· != '.') with
        | '.' :: fs => sixties groups && fs.all isGrouped
        | _ => false
  | [] => false

def isFloat (cs : List Char) : Bool :=
  isDecimal cs || isFraction cs ||
    String.ofList (dropSign cs) ∈ [".inf", ".Inf", ".INF"] ||
    String.ofList cs ∈ [".nan", ".NaN", ".NAN"]

def digitValue (c : Char) : Nat :=
  if isDigit c then c.toNat - '0'.toNat
  else if 'a' ≤ c && c ≤ 'f' then c.toNat - 'a'.toNat + 10
  else c.toNat - 'A'.toNat + 10

def natural (base : Nat) (cs : List Char) : Nat := cs.foldl (fun n c => base * n + digitValue c) 0

/-- Takes a number from the front, with at least `least` and at most `most` digits. -/
def takeNumber (least most : Nat) (cs : List Char) : Option (Nat × List Char) :=
  let ds := (cs.take most).takeWhile isDigit
  if least ≤ ds.length then some (natural 10 ds, cs.drop ds.length) else none

def takeChar (p : Char → Bool) : List Char → Option (List Char)
  | c :: cs => if p c then some cs else none
  | [] => none

def isSpacing (c : Char) : Bool := c == ' ' || c == '\t'

/-- What may follow the seconds of a time: nothing, or a zone. -/
def zone? (cs : List Char) : Option (Option Int) :=
  match cs.dropWhile isSpacing with
  | [] => if cs.isEmpty then some none else none
  | ['Z'] => some (some 0)
  | sign :: rest => do
    if sign != '+' && sign != '-' then none
    let (hours, rest) ← takeNumber 1 2 rest
    let (minutes, rest) ← if rest.isEmpty then some (0, []) else takeNumber 2 2 (← takeChar (· == ':') rest)
    if !rest.isEmpty then none
    let ahead : Int := 60 * hours + minutes
    return some (if sign == '-' then -ahead else ahead)

def clock? (cs : List Char) : Option Clock := do
  let (hour, cs) ← takeNumber 1 2 cs
  let (minute, cs) ← takeNumber 2 2 (← takeChar (· == ':') cs)
  let (second, cs) ← takeNumber 2 2 (← takeChar (· == ':') cs)
  let (places, cs) := match cs with
    | '.' :: cs => (cs.takeWhile isDigit, cs.dropWhile isDigit)
    | cs => ([], cs)
  let micro := natural 10 ((places ++ List.replicate 6 '0').take 6)
  return ⟨hour, minute, second, micro, ← zone? cs⟩

/-- A day, or a time of it, whether or not the calendar has it. -/
def readMoment? (cs : List Char) : Option Moment := do
  let (year, cs) ← takeNumber 4 4 cs
  let (month, cs) ← takeNumber 1 2 (← takeChar (· == '-') cs)
  let (day, cs) ← takeNumber 1 2 (← takeChar (· == '-') cs)
  match cs with
  | [] => return ⟨year, month, day, none⟩
  | c :: rest =>
    if c == 'T' || c == 't' then return ⟨year, month, day, ← clock? rest⟩
    else if isSpacing c then return ⟨year, month, day, ← clock? (rest.dropWhile isSpacing)⟩
    else none

/-- A day alone is written with all its digits. -/
def isMoment (cs : List Char) : Bool :=
  (readMoment? cs).any fun m => m.clock.isSome || cs.length == 10

def isNull (s : String) : Bool := s ∈ ["", "~", "null", "Null", "NULL"]

def isTrue (s : String) : Bool :=
  s ∈ ["yes", "Yes", "YES", "true", "True", "TRUE", "on", "On", "ON"]

def isFalse (s : String) : Bool :=
  s ∈ ["no", "No", "NO", "false", "False", "FALSE", "off", "Off", "OFF"]

def kind (s : String) : ScalarKind :=
  let cs := s.toList
  if isNull s then .null
  else if isTrue s || isFalse s then .bool
  else if s == "<<" then .merge
  else if s == "=" then .value
  else if isInt cs then .int
  else if isFloat cs then .float
  else if isMoment cs then .date
  else .text

def sixtiesValue (cs : List Char) : Nat :=
  (cs.splitOn ':').foldl (fun n group => 60 * n + natural 10 group) 0

def int? (s : String) : Option Int :=
  if isInt s.toList then
    let cs := s.toList.filter (· != '_')
    let magnitude : Nat := match dropSign cs with
      | '0' :: 'b' :: ds => natural 2 ds
      | '0' :: 'x' :: ds => natural 16 ds
      | '0' :: ds => natural 8 ds
      | ds => sixtiesValue ds
    some (if cs.head? == some '-' then -magnitude else magnitude)
  else none

def fraction? (s : String) : Option Fraction :=
  let cs := (Text.lower s).toList.filter (· != '_')
  let magnitude := String.ofList (dropSign cs)
  Fraction.withSign (cs.head? == some '-') <$>
    if magnitude ∈ [".inf", "inf", "infinity"] then some (.infinite false)
    else if magnitude ∈ [".nan", "nan"] then some .undefined
    else Fraction.sixties <$> (((dropSign cs).splitOn ':').reverse.mapM Fraction.decimal?)

def moment? (s : String) : Option Moment := (readMoment? s.toList).filter (·.isValid)

/-- A truth value in any mixture of upper and lower case, as a tag may ask for. -/
def bool? (s : String) : Option Bool :=
  let s := Text.lower s
  if isTrue s then some true else if isFalse s then some false else none

end Scalar

end Chronogram.Yaml
