import Chronogram.Expr.Basic
import Chronogram.Token

/-! Reading expressions: sums of products of signed primaries, all operators grouping to the left.
A reader takes the longest expression that the tokens start with and returns the tokens after it. -/

namespace Chronogram.Expr

mutual

def readPrimary : Nat → List Token → Option (Expr × List Token)
  | 0, _ => none
  | _ + 1, .number n :: ts => some (const n, ts)
  | _ + 1, .event e :: ts => some (event e, ts)
  | _ + 1, .word w :: ts => some (param w, ts)
  | fuel + 1, .mark .openParen :: ts =>
    match readSum fuel ts with
    | some (e, .mark .closeParen :: ts) => some (e, ts)
    | _ => none
  | _ + 1, _ => none

def readSigned : Nat → List Token → Option (Expr × List Token)
  | 0, _ => none
  | fuel + 1, .mark .minus :: ts => (readSigned fuel ts).map fun (e, ts) => (e.negated, ts)
  | fuel + 1, ts => readPrimary fuel ts

def readProduct : Nat → List Token → Option (Expr × List Token)
  | 0, _ => none
  | fuel + 1, ts => (readSigned fuel ts).map fun (e, ts) => moreFactors fuel e ts

def moreFactors : Nat → Expr → List Token → Expr × List Token
  | fuel + 1, e, .mark .star :: ts =>
    match readSigned fuel ts with
    | some (f, ts) => moreFactors fuel (mul e f) ts
    | none => (e, .mark .star :: ts)
  | _, e, ts => (e, ts)

def readSum : Nat → List Token → Option (Expr × List Token)
  | 0, _ => none
  | fuel + 1, ts => (readProduct fuel ts).map fun (e, ts) => moreSummands fuel e ts

def moreSummands : Nat → Expr → List Token → Expr × List Token
  | fuel + 1, e, .mark .plus :: ts =>
    match readProduct fuel ts with
    | some (f, ts) => moreSummands fuel (add e f) ts
    | none => (e, .mark .plus :: ts)
  | fuel + 1, e, .mark .minus :: ts =>
    match readProduct fuel ts with
    | some (f, ts) => moreSummands fuel (sub e f) ts
    | none => (e, .mark .minus :: ts)
  | _, e, ts => (e, ts)

end

/-- Reads the longest expression that the tokens start with. No nesting is deeper than four calls
for each token. -/
def read (ts : List Token) : Option (Expr × List Token) := readSum (4 * ts.length + 4) ts

end Chronogram.Expr
