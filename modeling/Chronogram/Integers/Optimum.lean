/-! The answer to "what is the least element of this set of integers": there is none because
the set is empty, there is none because it has no lower bound, or it is a given integer. -/

namespace Chronogram

inductive Optimum where
  | infeasible
  | unbounded
  | least (value : Int)
  deriving DecidableEq, Repr

namespace Optimum

/-- `o.Of S` says that `o` is the right answer for the set `S`. -/
def Of (S : Int → Prop) : Optimum → Prop
  | infeasible => ∀ t, ¬ S t
  | unbounded => ∀ b, ∃ t, t ≤ b ∧ S t
  | least v => S v ∧ ∀ t, S t → v ≤ t

/-- The answer for `step * s + base` when `o` answers for `s`; `step` is positive. -/
def rescale (step base : Int) : Optimum → Optimum
  | infeasible => infeasible
  | unbounded => unbounded
  | least v => least (step * v + base)

/-- The better of two answers, of which the second is for numbers below the first. -/
def better (best found : Optimum) : Optimum :=
  match found with
  | infeasible => best
  | o => o

def value? : Optimum → Option Int
  | least v => some v
  | _ => none

end Optimum

end Chronogram
