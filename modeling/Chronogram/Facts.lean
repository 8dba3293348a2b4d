import Chronogram.LinearForm
import Chronogram.Relation
import Chronogram.Integers.Minimum

/-! Facts about integer symbols, and what follows from them. A fact says how a linear form compares
with zero. The questions are whether all facts can hold at once, whether they imply a further one
and what the least value of a form is under them; each is a question for the least goal of a system
of equations and bounds. -/

namespace Chronogram

structure Fact where
  form : LinearForm
  relation : Relation
  deriving DecidableEq, Repr

def Fact.Holds (f : Fact) (ρ : Symbol → Int) : Prop := f.relation.Holds (f.form.eval ρ) 0

abbrev Facts := List Fact

namespace LinearForm

def along (f : LinearForm) : (symbols : List Symbol) → Vec symbols.length
  | [] => .nil
  | s :: symbols => .cons (f.coeff s) (f.along symbols)

/-- The row `k * f + c`, in which the goal does not occur. -/
def row (f : LinearForm) (symbols : List Symbol) (k c : Int) : Row symbols.length :=
  ⟨(f.along symbols).map (k * ·), 0, k * f.constant + c⟩

end LinearForm

namespace Facts

def Hold (facts : Facts) (ρ : Symbol → Int) : Prop := ∀ f ∈ facts, f.Holds ρ

def symbols (facts : Facts) : List Symbol := (facts.flatMap (·.form.symbols)).eraseDups

def equations (facts : Facts) (symbols : List Symbol) : List (Row symbols.length) :=
  facts.filterMap fun f => if f.relation = .eq then some (f.form.row symbols 1 0) else none

def bounds (facts : Facts) (symbols : List Symbol) : List (Row symbols.length) :=
  facts.filterMap fun f =>
    match f.relation with
    | .lt => some (f.form.row symbols (-1) (-1))
    | .le => some (f.form.row symbols (-1) 0)
    | .gt => some (f.form.row symbols 1 (-1))
    | .ge => some (f.form.row symbols 1 0)
    | .eq => none

def minimum (facts : Facts) (form : LinearForm) : Optimum :=
  let symbols := Facts.symbols (⟨form, .eq⟩ :: facts)
  let goal : Row symbols.length := { form.row symbols 1 0 with goal := -1 }
  Row.minimum symbols.length (goal :: facts.equations symbols) (facts.bounds symbols)

def satisfiable (facts : Facts) : Bool := facts.minimum (.const 0) != .infeasible

/-- The facts of which one holds wherever the given one does not. -/
def refutations (form : LinearForm) : Relation → List Fact
  | .lt => [⟨form, .ge⟩]
  | .le => [⟨form, .gt⟩]
  | .gt => [⟨form, .le⟩]
  | .ge => [⟨form, .lt⟩]
  | .eq => [⟨form, .lt⟩, ⟨form, .gt⟩]

/-- Whether the form compares with zero as stated wherever the facts hold. A constant form is
compared directly, even under facts that cannot all hold. -/
def implies (facts : Facts) (form : LinearForm) (relation : Relation) : Bool :=
  if form.isConstant then decide (relation.Holds form.constant 0)
  else (refutations form relation).all fun r => !satisfiable (r :: facts)

/-- The least value of a form under the facts, if they can hold and bound it from below. A constant
form is its own least value, even under facts that cannot all hold. -/
def lowerBound? (facts : Facts) (form : LinearForm) : Option Int :=
  if form.isConstant then some form.constant else (facts.minimum form).value?

end Facts

end Chronogram
