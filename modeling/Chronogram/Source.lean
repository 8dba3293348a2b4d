/-! Places in design files. -/

namespace Chronogram

structure Loc where
  file : Option String
  line : Option Int
  deriving DecidableEq, Repr

namespace Loc

def file? (l : Loc) : Option String := l.file.filter (!·.isEmpty)

def text (l : Loc) : String :=
  match l.file?, l.line with
  | some f, some n => f ++ ":" ++ toString n
  | some f, none => f
  | none, some n => toString n
  | none, none => "<unknown>"

end Loc

end Chronogram
