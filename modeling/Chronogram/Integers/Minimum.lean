import Chronogram.Integers.Equation

/-! The least goal of a system of equations and bounds, exactly and over the integers.

Equations are solved first. Then one unknown `x` after the other is removed from the bounds. A lower
bound `a * x + p ≥ 0` and an upper bound `-b * x + q ≥ 0` combine to the real shadow
`a * q + b * p ≥ 0`, which every solution satisfies, and to the dark shadow
`a * q + b * p ≥ (a - 1) * (b - 1)`, which guarantees a value for `x`. A solution outside the dark
shadow lies close to one of the lower bounds: `a * x + p` is then one of finitely many numbers, each
of which gives an equation. -/

namespace Chronogram

namespace Row

variable {n : Nat}

def lowers (rows : List (Row (n + 1))) : List (Row (n + 1)) := rows.filter fun r => 0 < r.lead

def uppers (rows : List (Row (n + 1))) : List (Row (n + 1)) := rows.filter fun r => r.lead < 0

/-- The bounds in which the first unknown does not occur, over the other unknowns. -/
def others (rows : List (Row (n + 1))) : List (Row n) :=
  (rows.filter fun r => r.lead = 0).map rest

/-- The bound that a lower and an upper bound imply on the other unknowns. -/
def shadow (l u : Row (n + 1)) : Row n := combine (-u.lead) l.lead l.rest u.rest

/-- The stronger bound under which an integer fits between a lower and an upper bound. -/
def darkShadow (l u : Row (n + 1)) : Row n :=
  let s := shadow l u
  { s with const := s.const - (l.lead - 1) * (-u.lead - 1) }

def project (pair : Row (n + 1) → Row (n + 1) → Row n) (rows : List (Row (n + 1))) : List (Row n) :=
  others rows ++ (lowers rows).flatMap fun l => (uppers rows).map (pair l)

/-- The largest coefficient of the first unknown in an upper bound. -/
def steepest (rows : List (Row (n + 1))) : Nat :=
  (uppers rows).foldl (fun m u => max m u.lead.natAbs) 0

/-- Number of values that a lower bound's form may take outside the dark shadow. -/
def slack (b : Nat) (l : Row (n + 1)) : Nat := l.lead.natAbs * (b - 1) / b

/-- The equations that between them hold of every solution outside the dark shadow. -/
def splinters (rows : List (Row (n + 1))) : List (Row (n + 1)) :=
  (lowers rows).flatMap fun l =>
    (List.range (slack (steepest rows) l)).map fun (i : Nat) => { l with const := l.const - i }

/-- How costly it is to remove unknown `k`: the number of splinters, then that of new bounds. -/
def cost (rows : List (Row (n + 1))) (k : Nat) : Nat × Nat :=
  let rows := rows.map (front k)
  ((lowers rows).foldl (fun total l => total + slack (steepest rows) l) 0,
    (lowers rows).length * (uppers rows).length)

/-- A cheapest unknown to remove among the first `m + 1`. -/
def cheapest (rows : List (Row (n + 1))) : Nat → Nat × (Nat × Nat)
  | 0 => (0, cost rows 0)
  | m + 1 =>
    let best := cheapest rows m
    let c := cost rows (m + 1)
    if c.1 < best.2.1 ∨ (c.1 = best.2.1 ∧ c.2 < best.2.2) then (m + 1, c) else best

/-- The bound that only a smaller goal than the one found satisfies. There is none below goals that
go down without end. -/
def below : Optimum → List (Row n)
  | .infeasible => []
  | .unbounded => [⟨.zero n, 0, -1⟩]
  | .least v => [⟨.zero n, -1, v - 1⟩]

def close (least : (equations bounds : List (Row n)) → Optimum) : Option (Reduced n) → Optimum
  | none => .infeasible
  | some r => (least r.equations r.bounds).rescale r.step r.base

/-- The least goal over all integer points that satisfy the equations and the bounds. -/
def minimum : (n : Nat) → (equations bounds : List (Row n)) → Optimum
  | 0, equations, bounds => leastGoal (equations.flatMap both ++ bounds)
  | n + 1, equations, bounds =>
    let bounds := tidy (bounds ++ (equations.filter isFlat).flatMap both)
    if bounds.any isAbsurd then .infeasible
    else
      match equations.filter (! ·.isFlat) with
      | e :: equations => close (minimum n) (solve e equations bounds)
      | [] =>
        let bounds := bounds.map (front (cheapest bounds n).1)
        let dark := minimum n [] (project darkShadow bounds)
        match splinters bounds with
        | [] => dark
        | cuts =>
          let real := minimum n [] (project shadow bounds)
          if real = .infeasible ∨ real = dark then dark
          else
            cuts.foldl (fun best e =>
              best.better (close (minimum n) (solve e [] (below best ++ bounds)))) dark

end Row

end Chronogram
