import Chronogram.Text.Basic

/-! Integers written as texts: an optional sign, decimal digits with single underscores between
them, and possibly a decimal point with nothing but zeros behind it. -/

namespace Chronogram.Text

/-- The digits of a text in which an underscore stands only between two digits. -/
def digits? : List Char → Option (List Char)
  | [] => none
  | [c] => if c.isDigit then some [c] else none
  | c :: '_' :: cs => if c.isDigit then (digits? cs).map (c :: ·) else none
  | c :: cs => if c.isDigit then (digits? cs).map (c :: ·) else none

def natural (digits : List Char) : Nat := digits.foldl (fun n c => 10 * n + (c.toNat - 48)) 0

def signed? : List Char → Option Int
  | '+' :: cs => (digits? cs).map fun ds => (natural ds : Int)
  | '-' :: cs => (digits? cs).map fun ds => -(natural ds : Int)
  | cs => (digits? cs).map fun ds => (natural ds : Int)

def whole? (s : String) : Option Int := signed? (trim s).toList

/-- As `whole?`, but with room for a fraction that is zero. -/
def integer? (s : String) : Option Int :=
  let cs := (trim s).toList
  if ((cs.dropWhile (· != '.')).drop 1).all (· == '0') then signed? (cs.takeWhile (· != '.'))
  else none

def numeral (width n : Nat) : String :=
  let ds := Nat.toDigits 10 n
  String.ofList (List.replicate (width - ds.length) '0' ++ ds)

end Chronogram.Text
