import Chronogram.Check.Instance
import Chronogram.Primitives
import Chronogram.Proofs.Facts

/-! Entailment and least values, as far as they are asked for. Facts entail a comparison exactly when
they are found to imply it; the one exception is a constant form under facts that cannot all hold,
which is compared directly. The least value of a form is found exactly when it is attained, and where
none is found the facts cannot hold or leave the form without a lower bound. -/

namespace Chronogram

namespace Optimum

variable {S : Int → Prop} {o : Optimum}

theorem Of.value?_eq_some_iff (h : o.Of S) {v : Int} :
    o.value? = some v ↔ S v ∧ ∀ t, S t → v ≤ t := by
  cases o with
  | infeasible =>
    refine iff_of_false (by simp [value?]) ?_
    rintro ⟨hv, -⟩
    exact h v hv
  | unbounded =>
    refine iff_of_false (by simp [value?]) ?_
    rintro ⟨-, hle⟩
    obtain ⟨t, ht, hS⟩ := h (v - 1)
    have := hle t hS
    omega
  | least w =>
    obtain ⟨hw, hle⟩ := h
    rw [value?, Option.some.injEq]
    constructor
    · rintro rfl
      exact ⟨hw, hle⟩
    · rintro ⟨hv, hle'⟩
      exact le_antisymm (hle v hv) (hle' w hw)

theorem Of.value?_eq_none_iff (h : o.Of S) :
    o.value? = none ↔ (∀ t, ¬ S t) ∨ ∀ b, ∃ t, t < b ∧ S t := by
  cases o with
  | infeasible => exact iff_of_true rfl (.inl h)
  | unbounded =>
    refine iff_of_true rfl (.inr fun b => ?_)
    obtain ⟨t, ht, hS⟩ := h (b - 1)
    exact ⟨t, by omega, hS⟩
  | least w =>
    obtain ⟨hw, hle⟩ := h
    refine iff_of_false (by simp [value?]) ?_
    rintro (hempty | hbelow)
    · exact hempty w hw
    · obtain ⟨t, ht, hS⟩ := hbelow w
      have := hle t hS
      omega

end Optimum

namespace Facts

variable {facts : Facts} {form : LinearForm} {relation : Relation}

def Entails (facts : Facts) (form : LinearForm) (relation : Relation) : Prop :=
  ∀ ρ, facts.Hold ρ → relation.Holds (form.eval ρ) 0

/-- The form takes arbitrarily small values where the facts hold. -/
def Sinks (facts : Facts) (form : LinearForm) : Prop := ∀ b, ∃ ρ, facts.Hold ρ ∧ form.eval ρ < b

def Rises (facts : Facts) (form : LinearForm) : Prop := ∀ b, ∃ ρ, facts.Hold ρ ∧ b < form.eval ρ

theorem sinks_neg : facts.Sinks (-form) ↔ facts.Rises form := by
  simp only [Sinks, Rises, LinearForm.eval_neg]
  constructor
  · intro h b
    obtain ⟨ρ, hρ, hlt⟩ := h (-b)
    exact ⟨ρ, hρ, by omega⟩
  · intro h b
    obtain ⟨ρ, hρ, hlt⟩ := h (-b)
    exact ⟨ρ, hρ, by omega⟩

theorem satisfiable_append_iff {extra : Facts} :
    (facts ++ extra).satisfiable = true ↔ ∃ ρ, facts.Hold ρ ∧ extra.Hold ρ := by
  simp only [satisfiable_iff, hold_append]

theorem implies_of_isConstant (hc : form.isConstant = true) :
    facts.implies form relation = true ↔ relation.Holds form.constant 0 := by
  rw [implies, if_pos hc, decide_eq_true_iff]

theorem implies_iff_entails (hc : form.isConstant = false) :
    facts.implies form relation = true ↔ facts.Entails form relation := by
  constructor
  · intro h ρ hρ
    exact holds_of_implies h hρ
  · intro h
    rw [implies, if_neg (by simp [hc]), List.all_eq_true]
    intro r hr
    -- a refutation that could hold together with the facts would refute what they entail
    rw [Bool.not_eq_true', Bool.eq_false_iff, ne_eq, satisfiable_iff]
    rintro ⟨ρ, hρ⟩
    obtain ⟨hrefutes, hfacts⟩ := hold_cons.1 hρ
    exact not_holds_iff.1 ⟨r, hr, hrefutes⟩ (h ρ hfacts)

theorem entails_of_isConstant (hc : form.isConstant = true) (hsat : ∃ ρ, facts.Hold ρ) :
    facts.Entails form relation ↔ relation.Holds form.constant 0 := by
  constructor
  · intro h
    obtain ⟨ρ, hρ⟩ := hsat
    have hholds := h ρ hρ
    rwa [LinearForm.eval_of_isConstant hc] at hholds
  · intro h ρ _
    rwa [LinearForm.eval_of_isConstant hc]

/-- Satisfiability is decided, for facts together with further ones, and so is entailment. Where the
facts can hold, what is implied is what they entail; where they cannot, the two part for constant
forms only, which are compared with zero as they are. -/
theorem exact_entailment (facts extra : Facts) (form : LinearForm) (relation : Relation) :
    ((facts ++ extra).satisfiable = true ↔ ∃ ρ, facts.Hold ρ ∧ extra.Hold ρ) ∧
    (form.isConstant = false →
      (facts.implies form relation = true ↔ facts.Entails form relation)) ∧
    (form.isConstant = true →
      (facts.implies form relation = true ↔ relation.Holds form.constant 0)) ∧
    ((∃ ρ, facts.Hold ρ) →
      (facts.implies form relation = true ↔ facts.Entails form relation)) := by
  refine ⟨satisfiable_append_iff, implies_iff_entails, implies_of_isConstant, fun hsat => ?_⟩
  cases hc : form.isConstant with
  | false => exact implies_iff_entails hc
  | true => rw [implies_of_isConstant hc, entails_of_isConstant hc hsat]

def sampleForm (k c : Int) : LinearForm := ((LinearForm.symbol "x" 0).scale k).shift c

/-- Only `1` lies between a half and five thirds. -/
def sampleFacts : Facts := [⟨sampleForm 2 (-1), .ge⟩, ⟨sampleForm 3 (-5), .le⟩]

theorem eval_sampleForm (k c : Int) (ρ : Symbol → Int) : (sampleForm k c).eval ρ = ρ "x" * k + c := by
  simp [sampleForm]

theorem hold_sampleFacts {ρ : Symbol → Int} : sampleFacts.Hold ρ ↔ ρ "x" = 1 := by
  simp only [Hold, sampleFacts, List.forall_mem_cons, Fact.Holds, eval_sampleForm, Relation.Holds]
  constructor
  · rintro ⟨hlow, hhigh, -⟩
    omega
  · intro h
    exact ⟨by omega, by omega, by simp⟩

/-- Facts that leave an interval of rationals imply an equality of integers, and they cannot hold
together with a fact that contradicts it. A false comparison of constants is not implied. -/
theorem exact_entailment_sample :
    (∃ ρ, sampleFacts.Hold ρ) ∧ sampleFacts.implies (sampleForm 1 (-1)) .eq = true ∧
      (sampleFacts ++ [(⟨sampleForm 1 (-2), .ge⟩ : Fact)]).satisfiable = false ∧
      sampleFacts.implies (.const 1) .lt = false := by
  obtain ⟨hsat, himplies, -⟩ :=
    exact_entailment sampleFacts [⟨sampleForm 1 (-2), .ge⟩] (sampleForm 1 (-1)) .eq
  obtain ⟨-, -, hconst, -⟩ := exact_entailment sampleFacts [] (.const 1) .lt
  refine ⟨⟨fun _ => 1, hold_sampleFacts.2 rfl⟩, (himplies (by decide)).2 fun ρ hρ => ?_, ?_, ?_⟩
  · rw [hold_sampleFacts] at hρ
    simp only [Relation.Holds, eval_sampleForm]
    omega
  · rw [Bool.eq_false_iff, ne_eq, hsat]
    rintro ⟨ρ, hρ, hextra⟩
    rw [hold_sampleFacts] at hρ
    simp only [Hold, List.forall_mem_singleton, Fact.Holds, eval_sampleForm, Relation.Holds] at hextra
    omega
  · rw [Bool.eq_false_iff, ne_eq, hconst rfl]
    decide

theorem lowerBound?_eq_some_iff (hc : form.isConstant = false) {v : Int} :
    facts.lowerBound? form = some v ↔
      (∃ ρ, facts.Hold ρ ∧ form.eval ρ = v) ∧ ∀ ρ, facts.Hold ρ → v ≤ form.eval ρ := by
  rw [lowerBound?, if_neg (by simp [hc]), (facts.minimum_of form).value?_eq_some_iff]
  refine and_congr_right fun _ => ⟨fun h ρ hρ => h _ ⟨ρ, hρ, rfl⟩, ?_⟩
  rintro h _ ⟨ρ, hρ, rfl⟩
  exact h ρ hρ

theorem lowerBound?_eq_none_iff (hc : form.isConstant = false) :
    facts.lowerBound? form = none ↔ (¬ ∃ ρ, facts.Hold ρ) ∨ facts.Sinks form := by
  rw [lowerBound?, if_neg (by simp [hc]), (facts.minimum_of form).value?_eq_none_iff]
  apply or_congr
  · constructor
    · rintro h ⟨ρ, hρ⟩
      exact h _ ⟨ρ, hρ, rfl⟩
    · rintro h _ ⟨ρ, hρ, -⟩
      exact h ⟨ρ, hρ⟩
  · constructor
    · intro h b
      obtain ⟨_, hlt, ρ, hρ, rfl⟩ := h b
      exact ⟨ρ, hρ, hlt⟩
    · intro h b
      obtain ⟨ρ, hρ, hlt⟩ := h b
      exact ⟨_, hlt, ρ, hρ, rfl⟩

theorem not_sinks_of_isConstant (hc : form.isConstant = true) : ¬ facts.Sinks form := by
  intro h
  obtain ⟨ρ, -, hlt⟩ := h form.constant
  rw [LinearForm.eval_of_isConstant hc] at hlt
  exact lt_irrefl _ hlt

/-- Under facts that can hold, a form has no least value exactly when it sinks, constant or not. -/
theorem isNone_lowerBound?_iff (hsat : ∃ ρ, facts.Hold ρ) :
    (facts.lowerBound? form).isNone = true ↔ facts.Sinks form := by
  rw [Option.isNone_iff_eq_none]
  cases hc : form.isConstant with
  | false => simp only [lowerBound?_eq_none_iff hc, hsat, not_true_eq_false, false_or]
  | true =>
    refine iff_of_false ?_ (not_sinks_of_isConstant hc)
    rw [lowerBound?, if_pos hc]
    simp

/-- The least value of a form that is not constant is found exactly when it is attained, and no value
is found exactly when the facts cannot hold or the form sinks under them. So a form is left open by
facts that can hold exactly when it has no bound below and none above. -/
theorem exact_minimum (facts : Facts) :
    (∀ form : LinearForm, form.isConstant = false →
      (∀ v, facts.lowerBound? form = some v ↔
        (∃ ρ, facts.Hold ρ ∧ form.eval ρ = v) ∧ ∀ ρ, facts.Hold ρ → v ≤ form.eval ρ) ∧
      (facts.lowerBound? form = none ↔ (¬ ∃ ρ, facts.Hold ρ) ∨ facts.Sinks form)) ∧
    ((∃ ρ, facts.Hold ρ) → ∀ (s : Signature) (form : LinearForm),
      Caller.leavesOpen ⟨s, facts⟩ form = true ↔ facts.Sinks form ∧ facts.Rises form) := by
  refine ⟨fun form hc => ⟨fun v => lowerBound?_eq_some_iff hc, lowerBound?_eq_none_iff hc⟩, ?_⟩
  intro hsat s form
  rw [Caller.leavesOpen, Bool.and_eq_true, isNone_lowerBound?_iff hsat, isNone_lowerBound?_iff hsat,
    sinks_neg]

def halfFacts : Facts := [⟨sampleForm 2 (-1), .ge⟩]

theorem hold_halfFacts {ρ : Symbol → Int} : halfFacts.Hold ρ ↔ 1 ≤ ρ "x" := by
  simp only [Hold, halfFacts, List.forall_mem_singleton, Fact.Holds, eval_sampleForm, Relation.Holds]
  omega

/-- An integer that is at least a half is at least one, and it may be as large as it likes. With its
lower bound it is not left open; a symbol that the facts do not mention is. -/
theorem exact_minimum_sample :
    (∃ ρ, halfFacts.Hold ρ) ∧ halfFacts.lowerBound? (sampleForm 1 0) = some 1 ∧
      halfFacts.lowerBound? (sampleForm (-1) 0) = none ∧
      Caller.leavesOpen ⟨Primitives.delay, halfFacts⟩ (sampleForm 1 0) = false ∧
      Caller.leavesOpen ⟨Primitives.delay, halfFacts⟩ (.symbol "y" 0) = true := by
  have hsat : ∃ ρ, halfFacts.Hold ρ := ⟨fun _ => 1, hold_halfFacts.2 le_rfl⟩
  obtain ⟨hleast, hopen⟩ := exact_minimum halfFacts
  refine ⟨hsat, ((hleast _ (by decide)).1 1).2 ⟨?_, ?_⟩, (hleast _ (by decide)).2.2 (.inr ?_), ?_, ?_⟩
  · exact ⟨fun _ => 1, hold_halfFacts.2 le_rfl, by simp [eval_sampleForm]⟩
  · intro ρ hρ
    rw [hold_halfFacts] at hρ
    rw [eval_sampleForm]
    omega
  · intro b
    refine ⟨fun _ => max 1 (1 - b), hold_halfFacts.2 (le_max_left _ _), ?_⟩
    rw [eval_sampleForm]
    omega
  · rw [Bool.eq_false_iff, ne_eq, hopen hsat]
    rintro ⟨hsinks, -⟩
    obtain ⟨ρ, hρ, hlt⟩ := hsinks 1
    rw [hold_halfFacts] at hρ
    rw [eval_sampleForm] at hlt
    omega
  · rw [hopen hsat]
    constructor
    · intro b
      exact ⟨fun s => if s = "x" then 1 else b - 1, hold_halfFacts.2 (by simp), by simp⟩
    · intro b
      exact ⟨fun s => if s = "x" then 1 else b + 1, hold_halfFacts.2 (by simp), by simp⟩

end Facts

end Chronogram
