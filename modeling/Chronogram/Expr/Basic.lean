import Chronogram.LinearForm

/-! Integer expressions over parameters and events: their value, their text, the linear form they
denote and substitution into them. -/

namespace Chronogram

inductive Expr where
  | const (value : Int)
  | param (name : String)
  | event (name : String)
  | add (lhs rhs : Expr)
  | sub (lhs rhs : Expr)
  | mul (lhs rhs : Expr)
  deriving DecidableEq, Repr, Inhabited

namespace Expr

def eval (ρ : Symbol → Int) : Expr → Int
  | const n => n
  | param p => ρ p
  | event e => ρ (.ofEvent e)
  | add l r => l.eval ρ + r.eval ρ
  | sub l r => l.eval ρ - r.eval ρ
  | mul l r => l.eval ρ * r.eval ρ

/-- Sums and differences, which need parentheses inside products and after a minus. -/
def isSum : Expr → Bool
  | add _ _ => true
  | sub _ _ => true
  | _ => false

def text : Expr → String
  | const n => toString n
  | param p => p
  | event e => "'" ++ e
  | add l r => l.text ++ " + " ++ r.text
  | sub l r => l.text ++ " - " ++ (if r.isSum then "(" ++ r.text ++ ")" else r.text)
  | mul l r =>
    (if l.isSum then "(" ++ l.text ++ ")" else l.text) ++ "*" ++
      (if r.isSum then "(" ++ r.text ++ ")" else r.text)

instance : ToString Expr := ⟨text⟩

def params : Expr → List String
  | const _ => []
  | param p => [p]
  | event _ => []
  | add l r => l.params ++ r.params
  | sub l r => l.params ++ r.params
  | mul l r => l.params ++ r.params

def events : Expr → List String
  | const _ => []
  | param _ => []
  | event e => [e]
  | add l r => l.events ++ r.events
  | sub l r => l.events ++ r.events
  | mul l r => l.events ++ r.events

/-- The expression and all expressions inside it. -/
def parts : Expr → List Expr
  | const n => [const n]
  | param p => [param p]
  | event e => [event e]
  | add l r => add l r :: (l.parts ++ r.parts)
  | sub l r => sub l r :: (l.parts ++ r.parts)
  | mul l r => mul l r :: (l.parts ++ r.parts)

/-- The linear form that an expression denotes, or a product of two non-constant factors in it. -/
def linearize : Expr → Except Expr LinearForm
  | const n => .ok (.const n)
  | param p => .ok (.symbol p 0)
  | event e => .ok (.symbol (.ofEvent e) 0)
  | add l r => do return (← l.linearize) + (← r.linearize)
  | sub l r => do return (← l.linearize) - (← r.linearize)
  | mul l r => do
    let f ← l.linearize
    let g ← r.linearize
    if f.isConstant then return g.scale f.constant
    else if g.isConstant then return f.scale g.constant
    else throw (mul l r)

/-- Replaces parameters and events, all at once, by the expressions that are given for them. -/
def subst (params events : List (String × Expr)) : Expr → Expr
  | const n => const n
  | param p => (params.lookup p).getD (param p)
  | event e => (events.lookup e).getD (event e)
  | add l r => add (l.subst params events) (r.subst params events)
  | sub l r => sub (l.subst params events) (r.subst params events)
  | mul l r => mul (l.subst params events) (r.subst params events)

/-- A constant when the value does not depend on any symbol. -/
def simplified (e : Expr) : Except Expr Expr := do
  let f ← e.linearize
  return if f.isConstant then const f.constant else e

/-- The opposite: a constant changes its sign, anything else is subtracted from zero. -/
def negated : Expr → Expr
  | const n => const (-n)
  | e => sub (const 0) e

end Expr

end Chronogram
