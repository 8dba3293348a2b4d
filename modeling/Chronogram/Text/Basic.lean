/-! Small operations on names and texts: trimming, sorting, joining. -/

namespace Chronogram.Text

/-- White space in the wide sense: the Unicode spaces and separators together with the control
characters that separate lines or fields. -/
def isBlank (c : Char) : Bool :=
  let n := c.toNat
  (9 ≤ n && n ≤ 13) || (28 ≤ n && n ≤ 32) || n == 0x85 || n == 0xA0 || n == 0x1680 ||
    (0x2000 ≤ n && n ≤ 0x200A) || n == 0x2028 || n == 0x2029 || n == 0x202F || n == 0x205F ||
    n == 0x3000

def trim (s : String) : String :=
  String.ofList (((s.toList.dropWhile isBlank).reverse.dropWhile isBlank).reverse)

def dropLeading (c : Char) (s : String) : String := String.ofList (s.toList.dropWhile (· == c))

/-- ASCII letters in lower case, all else unchanged. -/
def lower (s : String) : String := String.ofList (s.toList.map Char.toLower)

def joined (separator : String) (parts : List String) : String := separator.intercalate parts

def commas (parts : List String) : String := joined ", " parts

/-- The distinct names of a list, by code point. -/
def sorted (names : List String) : List String :=
  names.eraseDups.mergeSort fun a b => !(b < a : Bool)

def padded (width : Nat) (s : String) : String :=
  s ++ String.ofList (List.replicate (width - s.length) ' ')

/-- Names that occur again after an earlier occurrence, once for each repetition. -/
def repeated (names : List String) : List String :=
  go [] names
where
  go (seen : List String) : List String → List String
    | [] => []
    | n :: names => if n ∈ seen then n :: go seen names else go (n :: seen) names

end Chronogram.Text
