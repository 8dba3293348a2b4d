import Chronogram.Text.Basic

/-! Linear forms: a constant plus integer multiples of symbols. A symbol is a parameter's name, or
an event's name with a quote in front, so that the two name spaces do not meet. The terms stand in
the order in which their symbols entered the form, one term for a symbol, and none has the
coefficient zero. -/

namespace Chronogram

abbrev Symbol := String

namespace Symbol

def ofEvent (name : String) : Symbol := "'" ++ name

def isEvent (s : Symbol) : Bool := s.toList.head? == some '\''

def eventName (s : Symbol) : String := String.ofList (s.toList.drop 1)

end Symbol

structure LinearForm where
  terms : List (Symbol × Int)
  constant : Int
  nodup : (terms.map (·.1)).Nodup
  nonzero : ∀ t ∈ terms, t.2 ≠ 0
  deriving DecidableEq, Repr

namespace LinearForm

def coeff (f : LinearForm) (s : Symbol) : Int := (f.terms.lookup s).getD 0

def termsValue (ρ : Symbol → Int) : List (Symbol × Int) → Int
  | [] => 0
  | t :: terms => t.2 * ρ t.1 + termsValue ρ terms

def eval (f : LinearForm) (ρ : Symbol → Int) : Int := termsValue ρ f.terms + f.constant

/-- Drops the terms with coefficient zero. -/
def ofTerms (terms : List (Symbol × Int)) (constant : Int) (h : (terms.map (·.1)).Nodup) :
    LinearForm where
  terms := terms.filter (·.2 ≠ 0)
  constant := constant
  nodup := h.sublist (List.filter_sublist.map _)
  nonzero t ht := by simpa using (List.mem_filter.1 ht).2

def const (c : Int) : LinearForm := ⟨[], c, by simp, by simp⟩

def symbol (s : Symbol) (offset : Int) : LinearForm := ⟨[(s, 1)], offset, by simp, by simp⟩

theorem not_mem_of_lookup_eq_none {terms : List (Symbol × Int)} {s : Symbol}
    (h : terms.lookup s = none) : s ∉ terms.map (·.1) := by
  intro hs
  obtain ⟨t, ht, rfl⟩ := List.mem_map.1 hs
  exact absurd (List.lookup_eq_none_iff.1 h t ht) (by simp)

/-- The terms of one form with the coefficients of another added, then the terms that are new. -/
def sumTerms (f g : LinearForm) : List (Symbol × Int) :=
  f.terms.map (fun t => (t.1, t.2 + g.coeff t.1)) ++
    g.terms.filter (fun t => f.terms.lookup t.1 = none)

theorem nodup_sumTerms (f g : LinearForm) : ((sumTerms f g).map (·.1)).Nodup := by
  rw [sumTerms, List.map_append, List.map_map, List.nodup_append]
  refine ⟨f.nodup, g.nodup.sublist (List.filter_sublist.map _), ?_⟩
  intro a ha b hb hab
  obtain ⟨t, ht, rfl⟩ := List.mem_map.1 hb
  exact not_mem_of_lookup_eq_none (by simpa using (List.mem_filter.1 ht).2) (hab ▸ ha)

def add (f g : LinearForm) : LinearForm :=
  ofTerms (sumTerms f g) (f.constant + g.constant) (nodup_sumTerms f g)

def scale (f : LinearForm) (k : Int) : LinearForm :=
  ofTerms (f.terms.map fun t => (t.1, t.2 * k)) (f.constant * k)
    (by rw [List.map_map]; exact f.nodup)

def neg (f : LinearForm) : LinearForm where
  terms := f.terms.map fun t => (t.1, -t.2)
  constant := -f.constant
  nodup := by rw [List.map_map]; exact f.nodup
  nonzero t ht := by
    obtain ⟨u, hu, rfl⟩ := List.mem_map.1 ht
    exact Int.neg_ne_zero.2 (f.nonzero u hu)

def sub (f g : LinearForm) : LinearForm := f.add g.neg

def shift (f : LinearForm) (delta : Int) : LinearForm := { f with constant := f.constant + delta }

/-- The sum of a constant and the given multiples of symbols. -/
def ofList (terms : List (Symbol × Int)) (constant : Int) : LinearForm :=
  terms.foldl (fun f t => f.add ((symbol t.1 0).scale t.2)) (const constant)

instance : Add LinearForm := ⟨add⟩
instance : Sub LinearForm := ⟨sub⟩
instance : Neg LinearForm := ⟨neg⟩

def isConstant (f : LinearForm) : Bool := f.terms.isEmpty

/-- Equality of forms as functions; the order of the terms does not matter. -/
def same (f g : LinearForm) : Bool :=
  f.constant == g.constant && f.terms.length == g.terms.length &&
    f.terms.all fun t => g.terms.lookup t.1 == some t.2

def symbols (f : LinearForm) : List Symbol := f.terms.map (·.1)

def events (f : LinearForm) : List String := (f.symbols.filter Symbol.isEvent).map Symbol.eventName

def params (f : LinearForm) : List String := f.symbols.filter fun s => !Symbol.isEvent s

/-- The value under a partial assignment, or the first symbol that it leaves open. -/
def eval? (f : LinearForm) (env : List (Symbol × Int)) : Except Symbol Int :=
  f.terms.foldlM (fun total t =>
    match env.lookup t.1 with
    | some v => .ok (total + t.2 * v)
    | none => .error t.1) f.constant

def termText (t : Symbol × Int) : String :=
  if t.2 = 1 then t.1 else if t.2 = -1 then "-" ++ t.1 else toString t.2 ++ "*" ++ t.1

/-- Writes an addition of something negative as a subtraction. -/
def subtractions : List Char → List Char
  | '+' :: ' ' :: '-' :: cs => '-' :: ' ' :: subtractions cs
  | c :: cs => c :: subtractions cs
  | [] => []

/-- Terms by symbol, then the constant unless it is zero and there are terms. -/
def text (f : LinearForm) : String :=
  let terms := (f.terms.mergeSort fun a b => !(b.1 < a.1 : Bool)).map termText
  let parts := if f.constant ≠ 0 ∨ terms = [] then terms ++ [toString f.constant] else terms
  String.ofList (subtractions (Text.joined " + " parts).toList)

instance : ToString LinearForm := ⟨text⟩

end LinearForm

end Chronogram
