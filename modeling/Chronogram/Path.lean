import Chronogram.Text.Basic

/-! Absolute paths of files, without `.`, `..` and doubled slashes. -/

namespace Chronogram

/-- The names on the way from the root. -/
structure Path where
  parts : List String
  deriving DecidableEq, Repr

namespace Path

def text (p : Path) : String := "/" ++ Text.joined "/" p.parts

def parent (p : Path) : Path := ⟨p.parts.dropLast⟩

def step (p : Path) (name : String) : Path :=
  if name = "" ∨ name = "." then p
  else if name = ".." then p.parent
  else ⟨p.parts ++ [name]⟩

/-- The path that a text names, seen from a directory. -/
def resolve (dir : Path) (s : String) : Path :=
  let names := (s.toList.splitOn '/').map String.ofList
  names.foldl step (if s.toList.head? = some '/' then ⟨[]⟩ else dir)

def ofText (s : String) : Path := resolve ⟨[]⟩ s

def isBelow (p dir : Path) : Bool := dir.parts.isPrefixOf p.parts && p != dir

end Path

end Chronogram
