import Chronogram.Integers.Vec
import Chronogram.Integers.Optimum

/-! Rows of a linear system over the integers. A row is an affine form in `n` unknowns and one
further integer, the goal, whose least value is asked for. As a bound it says that the form is not
negative, as an equation that it is zero. -/

namespace Chronogram

structure Row (n : Nat) where
  vars : Vec n
  goal : Int
  const : Int
  deriving DecidableEq, Repr

namespace Row

variable {n : Nat}

def eval (r : Row n) (x : Vec n) (t : Int) : Int := r.vars.dot x + r.goal * t + r.const

def Bounds (rows : List (Row n)) (x : Vec n) (t : Int) : Prop := ∀ r ∈ rows, 0 ≤ r.eval x t

def Solves (rows : List (Row n)) (x : Vec n) (t : Int) : Prop := ∀ r ∈ rows, r.eval x t = 0

def combine (a b : Int) (r s : Row n) : Row n :=
  ⟨r.vars.combine a b s.vars, a * r.goal + b * s.goal, a * r.const + b * s.const⟩

def neg (r : Row n) : Row n := ⟨r.vars.map (- ·), -r.goal, -r.const⟩

def lead (r : Row (n + 1)) : Int := r.vars.head

def rest (r : Row (n + 1)) : Row n := ⟨r.vars.tail, r.goal, r.const⟩

def front (k : Nat) (r : Row n) : Row n := { r with vars := r.vars.front k }

def isFlat (r : Row n) : Bool := r.vars.isZero

/-- The two bounds that together state an equation. -/
def both (r : Row n) : List (Row n) := [r, r.neg]

/-- Divides a bound by the common divisor of its coefficients, rounding the constant down:
the form takes integer values only, so nothing is lost. -/
def tighten (r : Row n) : Row n :=
  let g : Nat := Nat.gcd r.vars.gcd r.goal.natAbs
  if g ≤ 1 then r else ⟨r.vars.map (· / (g : Int)), r.goal / (g : Int), r.const / (g : Int)⟩

/-- Adds a bound to a list in which no two bounds differ in the constant alone. -/
def insert (r : Row n) : List (Row n) → List (Row n)
  | [] => [r]
  | s :: rows =>
    if r.vars = s.vars ∧ r.goal = s.goal then { s with const := min r.const s.const } :: rows
    else s :: insert r rows

/-- Tightened bounds, of which those that always hold are left out. -/
def tidy (rows : List (Row n)) : List (Row n) :=
  rows.foldr (fun r acc =>
    if r.vars.isZero ∧ r.goal = 0 ∧ 0 ≤ r.const then acc else insert r.tighten acc) []

def isAbsurd (r : Row n) : Bool := r.vars.isZero && r.goal == 0 && decide (r.const < 0)

/-- The least and the greatest goal that flat bounds leave, or nothing if they exclude all. -/
def range : List (Row n) → Option (Option Int × Option Int)
  | [] => some (none, none)
  | r :: rows =>
    match range rows with
    | none => none
    | some (lo, hi) =>
      if 0 < r.goal then
        let b := -(r.const / r.goal)
        some (some (lo.elim b (max b)), hi)
      else if r.goal < 0 then
        let b := r.const / (-r.goal)
        some (lo, some (hi.elim b (min b)))
      else if 0 ≤ r.const then some (lo, hi) else none

def leastGoal (rows : List (Row n)) : Optimum :=
  match range rows with
  | none => .infeasible
  | some (none, _) => .unbounded
  | some (some lo, none) => .least lo
  | some (some lo, some hi) => if lo ≤ hi then .least lo else .infeasible

end Row

end Chronogram
