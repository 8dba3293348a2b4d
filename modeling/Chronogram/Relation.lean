/-! The comparisons that a constraint can state. -/

namespace Chronogram

inductive Relation where
  | lt | le | gt | ge | eq
  deriving DecidableEq, Repr

namespace Relation

def Holds : Relation → Int → Int → Prop
  | lt, a, b => a < b
  | le, a, b => a ≤ b
  | gt, a, b => a > b
  | ge, a, b => a ≥ b
  | eq, a, b => a = b

instance (r : Relation) (a b : Int) : Decidable (r.Holds a b) := by
  cases r <;> unfold Holds <;> infer_instance

def text : Relation → String
  | lt => "<"
  | le => "<="
  | gt => ">"
  | ge => ">="
  | eq => "=="

def all : List Relation := [lt, le, gt, ge, eq]

def ofText? (s : String) : Option Relation := all.find? fun r => r.text == s

end Relation

end Chronogram
