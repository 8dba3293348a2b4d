import Chronogram.Expr.Reading

/-! The grammar of expressions, as rules on token lists. All operators group to the left, so the rules
for sums and products recur on their left, where the readers go from left to right and carry along what
they have. A derivation is followed with the tokens behind it in view: a reader that has come to the
end of what is derived goes on as the tokens that follow make it. -/

namespace Chronogram.Expr

/-- The kinds of phrases, each of which is one of the kind before it. -/
inductive Level where
  | sum | product | signed | primary

/-- The tokens are a phrase of the kind and stand for the expression. -/
inductive Derives : Level → List Token → Expr → Prop
  | product {ts : List Token} {e : Expr} (h : Derives .product ts e) : Derives .sum ts e
  | plus {ts us : List Token} {e f : Expr} (h : Derives .sum ts e) (h' : Derives .product us f) :
    Derives .sum (ts ++ .mark .plus :: us) (add e f)
  | minus {ts us : List Token} {e f : Expr} (h : Derives .sum ts e) (h' : Derives .product us f) :
    Derives .sum (ts ++ .mark .minus :: us) (sub e f)
  | signed {ts : List Token} {e : Expr} (h : Derives .signed ts e) : Derives .product ts e
  | times {ts us : List Token} {e f : Expr} (h : Derives .product ts e) (h' : Derives .signed us f) :
    Derives .product (ts ++ .mark .star :: us) (mul e f)
  | primary {ts : List Token} {e : Expr} (h : Derives .primary ts e) : Derives .signed ts e
  | negative {ts : List Token} {e : Expr} (h : Derives .signed ts e) :
    Derives .signed (.mark .minus :: ts) e.negated
  | number (n : Nat) : Derives .primary [.number n] (const n)
  | event (name : String) : Derives .primary [.event name] (event name)
  | word (name : String) : Derives .primary [.word name] (param name)
  | parens {ts : List Token} {e : Expr} (h : Derives .sum ts e) :
    Derives .primary (.mark .openParen :: ts ++ [.mark .closeParen]) e

/-- The reader of a kind takes the tokens for the expression, with any tokens behind them: primaries
and signed ones end there, products and sums go on as far as these tokens let them. A sum is not cut
off inside a product. -/
def Level.Reads (ts : List Token) (e : Expr) : Level → Prop
  | .sum => ∀ rest fuel result, rest.head? ≠ some (.mark .star) →
      4 * (ts.length + rest.length) + 4 ≤ fuel →
      (∀ m, 4 * rest.length ≤ m → moreSummands m e rest = result) →
      readSum fuel (ts ++ rest) = some result
  | .product => ∀ rest fuel result, 4 * (ts.length + rest.length) + 3 ≤ fuel →
      (∀ m, 4 * rest.length ≤ m → moreFactors m e rest = result) →
      readProduct fuel (ts ++ rest) = some result
  | .signed => ∀ rest fuel, 4 * (ts.length + rest.length) + 2 ≤ fuel →
      readSigned fuel (ts ++ rest) = some (e, rest)
  | .primary => (∃ t us, ts = t :: us ∧ t ≠ .mark .minus) ∧
      ∀ rest fuel, 4 * (ts.length + rest.length) + 1 ≤ fuel →
      readPrimary fuel (ts ++ rest) = some (e, rest)

theorem readSigned_of_ne_minus {t : Token} {ts : List Token} (h : t ≠ .mark .minus) (fuel : Nat) :
    readSigned (fuel + 1) (t :: ts) = readPrimary fuel (t :: ts) := by
  rw [readSigned]
  simpa using h

theorem moreFactors_of_ne_star {e : Expr} {rest : List Token} (h : rest.head? ≠ some (.mark .star))
    (fuel : Nat) : moreFactors fuel e rest = (e, rest) := by
  unfold moreFactors
  split
  · simp at h
  · rfl

theorem moreFactors_star {e f : Expr} {ts rest : List Token} {fuel : Nat}
    (h : readSigned fuel ts = some (f, rest)) :
    moreFactors (fuel + 1) e (.mark .star :: ts) = moreFactors fuel (mul e f) rest := by
  rw [moreFactors, h]

theorem moreSummands_plus {e f : Expr} {ts rest : List Token} {fuel : Nat}
    (h : readProduct fuel ts = some (f, rest)) :
    moreSummands (fuel + 1) e (.mark .plus :: ts) = moreSummands fuel (add e f) rest := by
  rw [moreSummands, h]

theorem moreSummands_minus {e f : Expr} {ts rest : List Token} {fuel : Nat}
    (h : readProduct fuel ts = some (f, rest)) :
    moreSummands (fuel + 1) e (.mark .minus :: ts) = moreSummands fuel (sub e f) rest := by
  rw [moreSummands, h]

theorem moreSummands_of_ne_sign {e : Expr} {rest : List Token}
    (hplus : rest.head? ≠ some (.mark .plus)) (hminus : rest.head? ≠ some (.mark .minus)) (fuel : Nat) :
    moreSummands fuel e rest = (e, rest) := by
  unfold moreSummands
  split
  · simp at hplus
  · simp at hminus
  · rfl

namespace Level.Reads

variable {ts us : List Token} {e f : Expr}

theorem sum (h : Reads ts e .product) : Reads ts e .sum := by
  intro rest fuel result hrest hfuel hmore
  obtain ⟨fuel, rfl⟩ := Nat.exists_eq_succ_of_ne_zero (by omega : fuel ≠ 0)
  rw [readSum, h rest fuel (e, rest) (by omega) fun m _ => moreFactors_of_ne_star hrest m]
  exact congrArg some (hmore fuel (by omega))

theorem summand {mark : Mark} {op : Expr → Expr → Expr} (hmark : mark ≠ .star)
    (hop : ∀ {e f ts rest fuel}, readProduct fuel ts = some (f, rest) →
      moreSummands (fuel + 1) e (.mark mark :: ts) = moreSummands fuel (op e f) rest)
    (h : Reads ts e .sum) (h' : Reads us f .product) :
    Reads (ts ++ .mark mark :: us) (op e f) .sum := by
  intro rest fuel result hrest hfuel hmore
  rw [List.append_assoc, List.cons_append]
  simp only [List.length_append, List.length_cons] at hfuel
  refine h _ fuel result (by simpa using hmark) ?_ fun m hm => ?_
  · simp only [List.length_append, List.length_cons]
    omega
  · simp only [List.length_append, List.length_cons] at hm
    obtain ⟨m, rfl⟩ := Nat.exists_eq_succ_of_ne_zero (by omega : m ≠ 0)
    have hread := h' rest m (f, rest) (by omega) fun m _ => moreFactors_of_ne_star hrest m
    rw [hop hread]
    exact hmore m (by omega)

theorem product (h : Reads ts e .signed) : Reads ts e .product := by
  intro rest fuel result hfuel hmore
  obtain ⟨fuel, rfl⟩ := Nat.exists_eq_succ_of_ne_zero (by omega : fuel ≠ 0)
  rw [readProduct, h rest fuel (by omega)]
  exact congrArg some (hmore fuel (by omega))

theorem factor (h : Reads ts e .product) (h' : Reads us f .signed) :
    Reads (ts ++ .mark .star :: us) (mul e f) .product := by
  intro rest fuel result hfuel hmore
  rw [List.append_assoc, List.cons_append]
  simp only [List.length_append, List.length_cons] at hfuel
  refine h _ fuel result ?_ fun m hm => ?_
  · simp only [List.length_append, List.length_cons]
    omega
  · simp only [List.length_append, List.length_cons] at hm
    obtain ⟨m, rfl⟩ := Nat.exists_eq_succ_of_ne_zero (by omega : m ≠ 0)
    rw [moreFactors_star (h' rest m (by omega))]
    exact hmore m (by omega)

theorem signed (h : Reads ts e .primary) : Reads ts e .signed := by
  intro rest fuel hfuel
  obtain ⟨⟨t, us, rfl, ht⟩, hread⟩ := h
  obtain ⟨fuel, rfl⟩ := Nat.exists_eq_succ_of_ne_zero (by omega : fuel ≠ 0)
  rw [List.cons_append, readSigned_of_ne_minus ht]
  exact hread rest fuel (by omega)

theorem negative (h : Reads ts e .signed) : Reads (.mark .minus :: ts) e.negated .signed := by
  intro rest fuel hfuel
  simp only [List.length_cons] at hfuel
  obtain ⟨fuel, rfl⟩ := Nat.exists_eq_succ_of_ne_zero (by omega : fuel ≠ 0)
  rw [List.cons_append, readSigned, h rest fuel (by omega)]
  rfl

theorem parens (h : Reads ts e .sum) :
    Reads (.mark .openParen :: ts ++ [.mark .closeParen]) e .primary := by
  refine ⟨⟨_, _, rfl, by decide⟩, fun rest fuel hfuel => ?_⟩
  simp only [List.length_append, List.length_cons, List.length_nil] at hfuel
  obtain ⟨fuel, rfl⟩ := Nat.exists_eq_succ_of_ne_zero (by omega : fuel ≠ 0)
  have hread := h (.mark .closeParen :: rest) fuel (e, .mark .closeParen :: rest) (by simp)
    (by simp only [List.length_cons]; omega) fun m _ => moreSummands_of_ne_sign (by simp) (by simp) m
  rw [List.cons_append, List.cons_append, List.append_assoc, readPrimary, List.singleton_append, hread]

theorem token {t : Token} (ht : t ≠ .mark .minus)
    (h : ∀ fuel rest, readPrimary (fuel + 1) (t :: rest) = some (e, rest)) : Reads [t] e .primary := by
  refine ⟨⟨t, [], rfl, ht⟩, fun rest fuel hfuel => ?_⟩
  obtain ⟨fuel, rfl⟩ := Nat.exists_eq_succ_of_ne_zero (by omega : fuel ≠ 0)
  exact h fuel rest

end Level.Reads

theorem Derives.reads {level : Level} {ts : List Token} {e : Expr} (h : Derives level ts e) :
    level.Reads ts e := by
  induction h with
  | product _ ih => exact ih.sum
  | plus _ _ ih ih' => exact ih.summand (by decide) moreSummands_plus ih'
  | minus _ _ ih ih' => exact ih.summand (by decide) moreSummands_minus ih'
  | signed _ ih => exact ih.product
  | times _ _ ih ih' => exact ih.factor ih'
  | primary _ ih => exact ih.signed
  | negative _ ih => exact ih.negative
  | number n => exact .token (by simp) fun fuel rest => by rw [readPrimary]
  | event name => exact .token (by simp) fun fuel rest => by rw [readPrimary]
  | word name => exact .token (by simp) fun fuel rest => by rw [readPrimary]
  | parens _ ih => exact ih.parens

theorem Derives.read {ts : List Token} {e : Expr} (h : Derives .sum ts e) : read ts = some (e, []) := by
  have hread := h.reads [] (4 * ts.length + 4) (e, []) (by simp) (by simp) fun m _ =>
    moreSummands_of_ne_sign (by simp) (by simp) m
  rwa [List.append_nil] at hread

end Chronogram.Expr
