import Chronogram.Text.Numeral

/-! Fractions of 53 binary digits. What lies between two of them is rounded to the nearer one, and from
the middle to the even one. A fraction is written with as few decimal digits as are read back as the
same fraction. -/

namespace Chronogram

inductive Fraction where
  /-- The mantissa times a power of two. -/
  | finite (negative : Bool) (mantissa : Nat) (exponent : Int)
  | infinite (negative : Bool)
  | undefined
  deriving DecidableEq, Repr

namespace Fraction

def isZero : Fraction → Bool
  | finite _ m _ => m == 0
  | _ => false

def withSign (negative : Bool) : Fraction → Fraction
  | finite _ m e => finite negative m e
  | infinite _ => infinite negative
  | undefined => undefined

def ratio? : Fraction → Option (Nat × Nat)
  | finite _ m e => some (m * Nat.pow 2 e.toNat, Nat.pow 2 (-e).toNat)
  | _ => none

def whole? (f : Fraction) : Option Int := do
  let (n, d) ← f.ratio?
  if n % d ≠ 0 then none
  else return if f matches finite true _ _ then -(n / d) else n / d

/-- Equality as numbers, which an undefined fraction has with nothing. -/
def same (a b : Fraction) : Bool := a != undefined && (a == b || (a.isZero && b.isZero))

/-- The nearest whole number to a quotient, from the middle the even one. -/
def roundDiv (n d : Nat) : Nat :=
  if 2 * (n % d) < d ∨ 2 * (n % d) = d ∧ n / d % 2 = 0 then n / d else n / d + 1

/-- The nearest fraction to a quotient. Its last binary digit stands for `2 ^ -1074` or more. -/
def ofRatio (n d : Nat) : Fraction :=
  let limit := Nat.pow 2 53
  -- the quotient by `2 ^ least` has 53 or 54 digits, or fewer if `least` was raised
  let least : Int := max ((n.log2 : Int) - d.log2 - 53) (-1074)
  let scaled (e : Int) : Nat × Nat := (n * Nat.pow 2 (-e).toNat, d * Nat.pow 2 e.toNat)
  let e := if (scaled least).1 < limit * (scaled least).2 then least else least + 1
  let m := roundDiv (scaled e).1 (scaled e).2
  let (m, e) := if m = limit then (limit / 2, e + 1) else (m, e)
  if n = 0 then finite false 0 (-1074) else if e > 971 then infinite false else finite false m e

def ofDecimal (n : Nat) (k : Int) : Fraction :=
  -- powers that are out of range are not computed
  if k > 400 ∧ n ≠ 0 then infinite false
  else if k + (Nat.toDigits 10 n).length < -400 then ofRatio 0 1
  else ofRatio (n * Nat.pow 10 k.toNat) (Nat.pow 10 (-k).toNat)

/-- Digits with a point among them or not, and an exponent or not. -/
def decimal? (cs : List Char) : Option Fraction := do
  let whole := cs.takeWhile Char.isDigit
  let (places, rest) := match cs.dropWhile Char.isDigit with
    | '.' :: rest => (rest.takeWhile Char.isDigit, rest.dropWhile Char.isDigit)
    | rest => ([], rest)
  if whole.isEmpty && places.isEmpty then none
  let k ← match rest with
    | [] => some 0
    | 'e' :: rest => Text.signed? rest
    | _ => none
  return ofDecimal (Text.natural (whole ++ places)) (k - places.length)

/-- Adds a fraction that is multiplied first, where neither is negative. Both results are rounded. -/
def addTimes (sum : Fraction) (factor : Nat) (f : Fraction) : Fraction :=
  let product := match f.ratio? with
    | some (n, d) => ofRatio (n * factor) d
    | none => f
  match sum.ratio?, product.ratio? with
  | some (n, d), some (n', d') => ofRatio (n * d' + n' * d) (d * d')
  | _, _ => infinite false

/-- The value of groups to the base of sixty, of which the last one comes first. -/
def sixties (groups : List Fraction) : Fraction :=
  (groups.zipIdx.foldl (fun sum (f, i) => sum.addTimes (Nat.pow 60 i) f) (ofRatio 0 1))

/-- The number of decimal digits in front of the point; it is below zero if there are zeros behind it. -/
def wholeDigits (n d : Nat) : Int :=
  let least : Int := ((n.log2 : Int) - d.log2 - 1) * 30103 / 100000
  let exceeds (k : Int) : Bool := n * Nat.pow 10 (-k).toNat < d * Nat.pow 10 k.toNat
  (([0, 1, 2, 3].map fun i : Int => least + i).find? exceeds).getD least

/-- The shortest whole number whose product with a power of ten is read back as the given fraction, and
the exponent of ten. Of two that are as short it is the nearer one. -/
def shortest (m : Nat) (e : Int) : Nat × Int :=
  let n := m * Nat.pow 2 e.toNat
  let d := Nat.pow 2 (-e).toNat
  let candidate (digits : Nat) : Option (Nat × Int) :=
    let k := wholeDigits n d - digits
    let n := n * Nat.pow 10 (-k).toNat
    let d := d * Nat.pow 10 k.toNat
    let near := roundDiv n d
    let far := if near = n / d then near + 1 else near - 1
    ([near, far].find? fun c => ofDecimal c k == finite false m e).map (·, k)
  ((List.range 17).findSome? fun i => candidate (i + 1)).getD (m, 0)

def zeros (n : Nat) : List Char := List.replicate n '0'

/-- Digits with a point behind as many of them as `point` says. Very large and very small numbers have
an exponent. -/
def decimalText (digits : List Char) (point : Int) : List Char :=
  if -4 < point ∧ point ≤ 16 then
    let whole := if point ≤ 0 then ['0'] else (digits ++ zeros (point.toNat - digits.length)).take point.toNat
    let places := if point ≤ 0 then zeros (-point).toNat ++ digits else digits.drop point.toNat
    whole ++ '.' :: (if places.isEmpty then ['0'] else places)
  else
    let mantissa := match digits with
      | first :: second :: rest => first :: '.' :: second :: rest
      | _ => digits
    let exponent := point - 1
    mantissa ++ 'e' :: (if exponent < 0 then '-' else '+') :: (Text.numeral 2 exponent.natAbs).toList

def text : Fraction → String
  | finite negative m e =>
    let (c, k) := shortest m e
    let digits := Nat.toDigits 10 c
    let significant := (digits.reverse.dropWhile (· == '0')).reverse
    (if negative then "-" else "") ++
      if m = 0 then "0.0" else String.ofList (decimalText significant (digits.length + k))
  | infinite negative => if negative then "-inf" else "inf"
  | undefined => "nan"

example : (ofDecimal 150 (-2)).text = "1.5" ∧ (ofDecimal 1 16).text = "1e+16" ∧
    (ofDecimal 5 (-324)).text = "5e-324" := by
  decide +kernel

end Fraction

end Chronogram
