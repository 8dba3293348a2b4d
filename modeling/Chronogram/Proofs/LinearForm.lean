import Chronogram.LinearForm
import Chronogram.Proofs.Association
import Mathlib.Data.List.Perm.Subperm
import Mathlib.Tactic.Linarith
import Mathlib.Tactic.Ring

/-! Values of linear forms. Each operation on forms does to the value what its name says. A form
lists every symbol once and none with the coefficient zero, so its coefficients can be read off its
values, and a form whose value never changes has no terms. -/

namespace Chronogram.LinearForm

open Association

variable {ρ : Symbol → Int} {terms : List (Symbol × Int)} {s : Symbol} {f g : LinearForm}

theorem termsValue_append (ts us : List (Symbol × Int)) :
    termsValue ρ (ts ++ us) = termsValue ρ ts + termsValue ρ us := by
  induction ts with
  | nil => simp [termsValue]
  | cons t ts ih => simp only [List.cons_append, termsValue, ih]; ring

theorem termsValue_dropZeros (ts : List (Symbol × Int)) :
    termsValue ρ (ts.filter (·.2 ≠ 0)) = termsValue ρ ts := by
  induction ts with
  | nil => rfl
  | cons t ts ih =>
    by_cases h : t.2 = 0
    · rw [List.filter_cons_of_neg (by simp [h]), ih]
      simp [termsValue, h]
    · rw [List.filter_cons_of_pos (by simp [h])]
      simp only [termsValue, ih]

@[simp] theorem eval_ofTerms (c : Int) (h : (terms.map (·.1)).Nodup) :
    (ofTerms terms c h).eval ρ = termsValue ρ terms + c := by
  simp only [eval, ofTerms, termsValue_dropZeros]

@[simp] theorem eval_const (c : Int) : (const c).eval ρ = c := by simp [eval, const, termsValue]

@[simp] theorem eval_symbol (c : Int) : (symbol s c).eval ρ = ρ s + c := by
  simp [eval, symbol, termsValue]

@[simp] theorem eval_shift (d : Int) : (f.shift d).eval ρ = f.eval ρ + d := by
  simp only [eval, shift]; ring

@[simp] theorem eval_scale (k : Int) : (f.scale k).eval ρ = f.eval ρ * k := by
  have scaled : ∀ ts : List (Symbol × Int),
      termsValue ρ (ts.map fun t => (t.1, t.2 * k)) = termsValue ρ ts * k := by
    intro ts
    induction ts with
    | nil => simp [termsValue]
    | cons t ts ih => simp only [List.map_cons, termsValue, ih]; ring
  rw [scale, eval_ofTerms, scaled, eval]
  ring

@[simp] theorem eval_neg : (-f).eval ρ = -f.eval ρ := by
  have opposite : ∀ ts : List (Symbol × Int),
      termsValue ρ (ts.map fun t => (t.1, -t.2)) = -termsValue ρ ts := by
    intro ts
    induction ts with
    | nil => simp [termsValue]
    | cons t ts ih => simp only [List.map_cons, termsValue, ih]; ring
  change termsValue ρ (f.terms.map fun t => (t.1, -t.2)) + -f.constant = _
  rw [opposite, eval]
  ring

theorem termsValue_addCoeff (c : Int) {us : List (Symbol × Int)} (hs : us.lookup s = none)
    {ts : List (Symbol × Int)} (hts : (ts.map (·.1)).Nodup) :
    termsValue ρ (ts.map fun t => (t.1, t.2 + (((s, c) :: us).lookup t.1).getD 0)) =
      termsValue ρ (ts.map fun t => (t.1, t.2 + (us.lookup t.1).getD 0)) +
        (if ts.lookup s = none then 0 else c * ρ s) := by
  induction ts with
  | nil => simp [termsValue]
  | cons t ts ih =>
    obtain ⟨x, a⟩ := t
    rw [List.map_cons, List.nodup_cons] at hts
    simp only [List.map_cons, termsValue, ih hts.2]
    by_cases h : x = s
    · subst h
      have hnot : ts.lookup x = none := lookup_eq_none.2 hts.1
      simp only [List.lookup_cons, beq_self_eq_true, hs, hnot, reduceCtorEq, if_true, if_false,
        Option.getD_some, Option.getD_none]
      ring
    · have h₁ : (s == x) = false := by simpa using Ne.symm h
      have h₂ : (x == s) = false := by simpa using h
      simp only [List.lookup_cons, h₁, h₂]
      ring

/-- Adding to every term of a list the coefficient from another list, together with the terms that
only the other list has, adds the values. -/
theorem termsValue_merge {ts : List (Symbol × Int)} (hts : (ts.map (·.1)).Nodup)
    {us : List (Symbol × Int)} (hus : (us.map (·.1)).Nodup) :
    termsValue ρ (ts.map fun t => (t.1, t.2 + (us.lookup t.1).getD 0)) +
      termsValue ρ (us.filter fun u => ts.lookup u.1 = none) =
    termsValue ρ ts + termsValue ρ us := by
  -- the first symbol of the other list is in the one list, and then once, or among the new terms
  induction us with
  | nil => simp [termsValue]
  | cons u us ih =>
    obtain ⟨x, c⟩ := u
    rw [List.map_cons, List.nodup_cons] at hus
    have ih := ih hus.2
    rw [termsValue_addCoeff c (lookup_eq_none.2 hus.1) hts]
    by_cases h : ts.lookup x = none
    · rw [List.filter_cons_of_pos (by simpa using h), if_pos h]
      simp only [termsValue]
      linarith
    · rw [List.filter_cons_of_neg (by simpa using h), if_neg h]
      simp only [termsValue]
      linarith

@[simp] theorem eval_add : (f + g).eval ρ = f.eval ρ + g.eval ρ := by
  change (ofTerms (sumTerms f g) _ (nodup_sumTerms f g)).eval ρ = _
  rw [eval_ofTerms, sumTerms, termsValue_append]
  have := @termsValue_merge ρ f.terms f.nodup g.terms g.nodup
  simp only [coeff, eval]
  linarith

@[simp] theorem eval_sub : (f - g).eval ρ = f.eval ρ - g.eval ρ := by
  change (f + -g).eval ρ = _
  rw [eval_add, eval_neg]
  ring

def unit (s : Symbol) : Symbol → Int := fun x => if x = s then 1 else 0

theorem termsValue_zero (ts : List (Symbol × Int)) : termsValue (fun _ => 0) ts = 0 := by
  induction ts with
  | nil => rfl
  | cons t ts ih => simp [termsValue, ih]

theorem termsValue_unit {ts : List (Symbol × Int)} (h : (ts.map (·.1)).Nodup) :
    termsValue (unit s) ts = (ts.lookup s).getD 0 := by
  induction ts with
  | nil => rfl
  | cons t ts ih =>
    obtain ⟨x, a⟩ := t
    rw [List.map_cons, List.nodup_cons] at h
    rw [termsValue, ih h.2]
    by_cases hx : x = s
    · subst hx
      simp [unit, lookup_eq_none.2 h.1]
    · have : (s == x) = false := by simpa using Ne.symm hx
      simp [unit, List.lookup_cons, hx, this]

/-- The coefficient of a symbol is what the value gains when the symbol goes from zero to one. -/
theorem coeff_eq : f.coeff s = f.eval (unit s) - f.eval fun _ => 0 := by
  rw [eval, eval, termsValue_unit f.nodup, termsValue_zero, coeff]
  ring

theorem coeff_of_mem {t : Symbol × Int} (h : t ∈ f.terms) : f.coeff t.1 = t.2 := by
  rw [coeff, lookup_of_mem f.nodup h, Option.getD_some]

theorem isConstant_iff : f.isConstant = true ↔ ∃ c, ∀ ρ, f.eval ρ = c := by
  rw [isConstant, List.isEmpty_iff]
  constructor
  · intro h
    exact ⟨f.constant, fun ρ => by simp [eval, h, termsValue]⟩
  · rintro ⟨c, hc⟩
    rcases hf : f.terms with _ | ⟨t, ts⟩
    · rfl
    · have ht : t ∈ f.terms := by simp [hf]
      have := coeff_of_mem ht
      rw [coeff_eq, hc, hc, sub_self] at this
      exact absurd this.symm (f.nonzero t ht)

theorem eval_of_isConstant (h : f.isConstant = true) : f.eval ρ = f.constant := by
  simp [eval, List.isEmpty_iff.1 h, termsValue]

theorem termsValue_perm {ts us : List (Symbol × Int)} (h : ts.Perm us) :
    termsValue ρ ts = termsValue ρ us := by
  induction h with
  | nil => rfl
  | cons t _ ih => simp only [termsValue, ih]
  | swap t u ts => simp only [termsValue]; ring
  | trans _ _ ih₁ ih₂ => rw [ih₁, ih₂]

theorem perm_of_same (h : f.same g = true) : f.terms.Perm g.terms := by
  simp only [same, Bool.and_eq_true, beq_iff_eq, List.all_eq_true] at h
  obtain ⟨⟨-, hl⟩, ht⟩ := h
  have hsub : f.terms ⊆ g.terms := fun t htf => mem_of_lookup (ht t htf)
  exact (List.subperm_of_subset (List.Nodup.of_map _ f.nodup) hsub).perm_of_length_le hl.ge

theorem constant_of_same (h : f.same g = true) : f.constant = g.constant := by
  simp only [same, Bool.and_eq_true, beq_iff_eq] at h
  exact h.1.1

theorem eval_eq_of_same (h : f.same g = true) : f.eval ρ = g.eval ρ := by
  rw [eval, eval, termsValue_perm (perm_of_same h), constant_of_same h]

end Chronogram.LinearForm
