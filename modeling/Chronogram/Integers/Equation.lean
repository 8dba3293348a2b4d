import Chronogram.Integers.Row

/-! Solving one equation in integers. Replacing the first unknown by itself minus an integer
combination of everything else is a bijection of the integer points, and so is moving an unknown to
the front. With these two moves the equation loses its unknowns one after the other as in the
Euclidean algorithm, until it reads `a * y + b * t + c = 0`; the values of `t` for which `a` divides
`b * t + c` form an arithmetic progression, and the other rows are expressed over its index. -/

namespace Chronogram

/-- A value `t` for which `a` divides `b * t + c`, if there is one. -/
def congruenceRoot? (a b : Nat) (c : Int) : Option Int :=
  if h : b = 0 then if (a : Int) ∣ c then some 0 else none
  else
    have : a % b < b := Nat.mod_lt _ (Nat.pos_of_ne_zero h)
    (congruenceRoot? b (a % b) c).map fun y => -((a : Int) * y + c) / (b : Int)
termination_by b

/-- Rows over one unknown less. The former goal is `step` times the new one plus `base`. -/
structure Reduced (n : Nat) where
  equations : List (Row n)
  bounds : List (Row n)
  step : Int
  base : Int

namespace Row

variable {n : Nat}

/-- The row after the first unknown `x` is replaced by `x - q`, where `q` is a row over the rest. -/
def shear (q : Row n) (r : Row (n + 1)) : Row (n + 1) :=
  let s := combine 1 (-r.lead) r.rest q
  ⟨.cons r.lead s.vars, s.goal, s.const⟩

def quotients (a : Int) (r : Row (n + 1)) : Row n :=
  ⟨r.rest.vars.map (· / a), r.goal / a, r.const / a⟩

/-- The row after its first unknown is replaced by `y₀ + y₁ * s` and the goal by `base + step * s`. -/
def follow (y₀ y₁ base step : Int) (r : Row (n + 1)) : Row n :=
  ⟨r.rest.vars, r.lead * y₁ + r.goal * step, r.const + r.lead * y₀ + r.goal * base⟩

def finish (e : Row (n + 1)) (equations bounds : List (Row (n + 1))) : Option (Reduced n) :=
  let a := e.lead
  let b := e.goal % a
  match congruenceRoot? a.natAbs b.toNat e.const with
  | none => none
  | some base =>
    let step : Int := (a.natAbs / Nat.gcd a.natAbs b.toNat : Nat)
    let y₀ := -(e.goal * base + e.const) / a
    let y₁ := -(e.goal * step) / a
    some ⟨equations.map (follow y₀ y₁ base step), bounds.map (follow y₀ y₁ base step), step, base⟩

/-- Solves `e` for its first unknown. Each round makes the leading coefficient smaller, so its
absolute value bounds their number. -/
def reduce : Nat → Row (n + 1) → List (Row (n + 1)) → List (Row (n + 1)) → Option (Reduced n)
  | 0, e, equations, bounds => finish e equations bounds
  | fuel + 1, e, equations, bounds =>
    let q := e.quotients e.lead
    let e := shear q e
    let equations := equations.map (shear q)
    let bounds := bounds.map (shear q)
    match e.rest.vars.leastNonzero? with
    | none => finish e equations bounds
    | some (k, _) =>
      reduce fuel (e.front (k + 1)) (equations.map (front (k + 1))) (bounds.map (front (k + 1)))

def solve (e : Row (n + 1)) (equations bounds : List (Row (n + 1))) : Option (Reduced n) :=
  match e.vars.leastNonzero? with
  | none => none
  | some (k, m) => reduce m (e.front k) (equations.map (front k)) (bounds.map (front k))

end Row

end Chronogram
