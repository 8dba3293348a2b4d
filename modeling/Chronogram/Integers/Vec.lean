/-! Integer vectors of a fixed length, with the few operations that elimination needs:
linear combination, scalar product, common divisor and a change of the leading coordinate. -/

namespace Chronogram

inductive Vec : Nat → Type where
  | nil : Vec 0
  | cons {n : Nat} (head : Int) (tail : Vec n) : Vec (n + 1)
  deriving DecidableEq, Repr

namespace Vec

def head : {n : Nat} → Vec (n + 1) → Int
  | _, cons a _ => a

def tail : {n : Nat} → Vec (n + 1) → Vec n
  | _, cons _ v => v

def zero : (n : Nat) → Vec n
  | 0 => nil
  | n + 1 => cons 0 (zero n)

def dot : {n : Nat} → Vec n → Vec n → Int
  | _, nil, nil => 0
  | _, cons a u, cons b v => a * b + dot u v

/-- The vector `a * u + b * v`. -/
def combine (a b : Int) : {n : Nat} → Vec n → Vec n → Vec n
  | _, nil, nil => nil
  | _, cons p u, cons q v => cons (a * p + b * q) (combine a b u v)

def map (f : Int → Int) : {n : Nat} → Vec n → Vec n
  | _, nil => nil
  | _, cons a v => cons (f a) (map f v)

def isZero : {n : Nat} → Vec n → Bool
  | _, nil => true
  | _, cons a v => a == 0 && isZero v

/-- Greatest common divisor of the coordinates, zero for the zero vector. -/
def gcd : {n : Nat} → Vec n → Nat
  | _, nil => 0
  | _, cons a v => Nat.gcd a.natAbs (gcd v)

/-- Coordinate `k`, zero past the end. -/
def get : {n : Nat} → Vec n → Nat → Int
  | _, nil, _ => 0
  | _, cons a _, 0 => a
  | _, cons _ v, k + 1 => get v k

/-- Moves coordinate `k` to the front and keeps the order of the others. -/
def front : {n : Nat} → Nat → Vec n → Vec n
  | _, 0, v => v
  | _, _ + 1, nil => nil
  | _, k + 1, cons a v =>
    match front k v with
    | nil => cons a nil
    | cons b w => cons b (cons a w)

/-- Position of a non-zero coordinate of least absolute value. -/
def leastNonzero? : {n : Nat} → Vec n → Option (Nat × Nat)
  | _, nil => none
  | _, cons a v =>
    match leastNonzero? v with
    | none => if a = 0 then none else some (0, a.natAbs)
    | some (k, m) => if a ≠ 0 ∧ a.natAbs ≤ m then some (0, a.natAbs) else some (k + 1, m)

end Vec

end Chronogram
