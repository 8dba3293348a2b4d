import Chronogram.Facts
import Chronogram.Proofs.LinearForm
import Chronogram.Proofs.Integers.Minimum

/-! What is asked of facts is answered exactly. The assignments to the distinct symbols of some facts
are the integer vectors, so the least goal of the system of rows is the least value of the form,
facts can all hold exactly when that system has a solution, and a comparison is implied exactly
when it holds wherever the facts do. -/

namespace Chronogram

namespace Text

theorem nodup_eraseDups (names : List String) : names.eraseDups.Nodup := by
  -- what follows the first name is the same question for the other names, of which there are fewer
  induction hn : names.length using Nat.strong_induction_on generalizing names with
  | _ n ih =>
    obtain _ | ⟨name, rest⟩ := names
    · simp
    · have hlt : (rest.filter (!· == name)).length < n :=
        hn ▸ Nat.lt_succ_of_le (List.length_filter_le _ _)
      rw [List.eraseDups_cons, List.nodup_cons, List.mem_eraseDups]
      exact ⟨by simp, ih _ hlt _ rfl⟩

end Text

namespace LinearForm

variable {symbols : List Symbol} {f : LinearForm} {ρ : Symbol → Int}

def point (ρ : Symbol → Int) : (symbols : List Symbol) → Vec symbols.length
  | [] => .nil
  | s :: symbols => .cons (ρ s) (point ρ symbols)

theorem point_congr {σ : Symbol → Int} (h : ∀ s ∈ symbols, ρ s = σ s) :
    point ρ symbols = point σ symbols := by
  induction symbols with
  | nil => rfl
  | cons s symbols ih => rw [point, point, h s (by simp), ih fun s hs => h s (by simp [hs])]

theorem exists_point_eq (hn : symbols.Nodup) (x : Vec symbols.length) : ∃ ρ, point ρ symbols = x := by
  induction symbols with
  | nil => exact ⟨fun _ => 0, by cases x; rfl⟩
  | cons s symbols ih =>
    rw [List.nodup_cons] at hn
    obtain _ | ⟨a, x⟩ := x
    obtain ⟨ρ, rfl⟩ := ih hn.2 x
    refine ⟨fun u => if u = s then a else ρ u, ?_⟩
    have hrest : ∀ u ∈ symbols, (if u = s then a else ρ u) = ρ u :=
      fun u hu => if_neg fun (hus : u = s) => hn.1 (hus ▸ hu)
    rw [point, if_pos rfl, point_congr hrest]

theorem along_dot_point :
    (f.along symbols).dot (point ρ symbols) =
      termsValue ρ (symbols.map fun s => (s, f.coeff s)) := by
  induction symbols with
  | nil => rfl
  | cons s symbols ih => rw [along, point, Vec.dot_cons, ih]; rfl

theorem along_dot (hn : symbols.Nodup) (hf : f.symbols ⊆ symbols) :
    (f.along symbols).dot (point ρ symbols) = termsValue ρ f.terms := by
  rw [along_dot_point, ← termsValue_dropZeros]
  refine termsValue_perm ((List.perm_ext_iff_of_nodup ?_ (List.Nodup.of_map _ f.nodup)).2 ?_)
  · exact (hn.map fun a b hab => congrArg Prod.fst hab).filter _
  · rintro ⟨s, c⟩
    simp only [List.mem_filter, List.mem_map, Prod.mk.injEq, decide_eq_true_eq]
    constructor
    · rintro ⟨⟨s, -, rfl, rfl⟩, hc⟩
      rw [coeff] at hc ⊢
      cases h : f.terms.lookup s with
      | none => simp [h] at hc
      | some c => exact Association.mem_of_lookup h
    · intro h
      exact ⟨⟨s, hf (List.mem_map_of_mem h), rfl, coeff_of_mem h⟩, f.nonzero _ h⟩

theorem eval_row (hn : symbols.Nodup) (hf : f.symbols ⊆ symbols) (k c t : Int) :
    (f.row symbols k c).eval (point ρ symbols) t = k * f.eval ρ + c := by
  simp only [row, Row.eval, Vec.dot_map_mul, along_dot hn hf, eval]
  ring

end LinearForm

namespace Facts

variable {facts : Facts} {form : LinearForm} {relation : Relation}

theorem hold_cons {f : Fact} {ρ : Symbol → Int} : Hold (f :: facts) ρ ↔ f.Holds ρ ∧ facts.Hold ρ := by
  simp [Hold]

theorem hold_append {more : Facts} {ρ : Symbol → Int} :
    Hold (facts ++ more) ρ ↔ facts.Hold ρ ∧ more.Hold ρ := by
  simp [Hold, or_imp, forall_and]

/-- The rows of the facts are satisfied where the facts hold. -/
theorem solves_and_bounds_iff {symbols : List Symbol} (hn : symbols.Nodup)
    (hsub : ∀ f ∈ facts, f.form.symbols ⊆ symbols) {ρ : Symbol → Int} {t : Int} :
    Row.Solves (facts.equations symbols) (LinearForm.point ρ symbols) t ∧
      Row.Bounds (facts.bounds symbols) (LinearForm.point ρ symbols) t ↔ facts.Hold ρ := by
  induction facts with
  | nil => simp [equations, bounds, Row.Solves, Row.Bounds, Hold]
  | cons f facts ih =>
    have hf := hsub f (by simp)
    have ih := ih fun g hg => hsub g (by simp [hg])
    rw [hold_cons, ← ih, Fact.Holds]
    have hrow := fun k c => LinearForm.eval_row (ρ := ρ) hn hf k c t
    obtain ⟨form, r⟩ := f
    cases r <;>
      simp only [equations, bounds, List.filterMap_cons, reduceCtorEq, if_true, if_false,
        Row.solves_cons, Row.bounds_cons, hrow, Relation.Holds] <;>
      grind

theorem minimum_of (facts : Facts) (form : LinearForm) :
    (facts.minimum form).Of fun t => ∃ ρ, facts.Hold ρ ∧ form.eval ρ = t := by
  rw [minimum]
  refine (Row.minimum_of _ _ _).congr fun t => ?_
  generalize hs : Facts.symbols (⟨form, .eq⟩ :: facts) = symbols
  have hn : symbols.Nodup := hs ▸ Text.nodup_eraseDups _
  have hsub : ∀ f ∈ (⟨form, .eq⟩ :: facts : Facts), f.form.symbols ⊆ symbols := by
    intro f hf s hsf
    rw [← hs, Facts.symbols, List.mem_eraseDups, List.mem_flatMap]
    exact ⟨f, hf, hsf⟩
  have hgoal : ∀ ρ, ({ form.row symbols 1 0 with goal := -1 } : Row symbols.length).eval
      (LinearForm.point ρ symbols) t = form.eval ρ - t := by
    intro ρ
    have := LinearForm.eval_row (ρ := ρ) hn (hsub ⟨form, .eq⟩ (by simp)) 1 0 t
    simp only [Row.eval, LinearForm.row] at this ⊢
    linarith
  have hrest : ∀ ρ, Row.Solves (facts.equations symbols) (LinearForm.point ρ symbols) t ∧
      Row.Bounds (facts.bounds symbols) (LinearForm.point ρ symbols) t ↔ facts.Hold ρ :=
    fun ρ => solves_and_bounds_iff hn fun f hf => hsub f (by simp [hf])
  constructor
  · rintro ⟨x, heq, hb⟩
    obtain ⟨ρ, rfl⟩ := LinearForm.exists_point_eq hn x
    rw [Row.solves_cons, hgoal] at heq
    exact ⟨ρ, (hrest ρ).1 ⟨heq.2, hb⟩, by linarith [heq.1]⟩
  · rintro ⟨ρ, hρ, rfl⟩
    obtain ⟨he, hb⟩ := (hrest ρ).2 hρ
    exact ⟨_, Row.solves_cons.2 ⟨by rw [hgoal, sub_self], he⟩, hb⟩

theorem satisfiable_iff : facts.satisfiable = true ↔ ∃ ρ, facts.Hold ρ := by
  have h := facts.minimum_of (.const 0)
  rw [satisfiable, bne_iff_ne]
  cases hm : facts.minimum (.const 0) with
  | infeasible =>
    rw [hm] at h
    simp only [ne_eq, not_true_eq_false, false_iff]
    rintro ⟨ρ, hρ⟩
    exact h 0 ⟨ρ, hρ, LinearForm.eval_const 0⟩
  | unbounded =>
    rw [hm] at h
    obtain ⟨t, -, ρ, hρ, -⟩ := h 0
    exact iff_of_true nofun ⟨ρ, hρ⟩
  | least v =>
    rw [hm] at h
    obtain ⟨⟨ρ, hρ, -⟩, -⟩ := h
    exact iff_of_true nofun ⟨ρ, hρ⟩

theorem not_holds_iff {ρ : Symbol → Int} :
    (∃ r ∈ refutations form relation, r.Holds ρ) ↔ ¬ relation.Holds (form.eval ρ) 0 := by
  cases relation <;> simp [refutations, Fact.Holds, Relation.Holds]

theorem holds_of_implies (h : facts.implies form relation = true) {ρ : Symbol → Int}
    (hρ : facts.Hold ρ) : relation.Holds (form.eval ρ) 0 := by
  rw [implies] at h
  split at h
  next hc => rw [LinearForm.eval_of_isConstant hc]; exact of_decide_eq_true h
  next =>
    by_contra hn
    obtain ⟨r, hr, hrρ⟩ := not_holds_iff.2 hn
    have hsat : satisfiable (r :: facts) = true := satisfiable_iff.2 ⟨ρ, hold_cons.2 ⟨hrρ, hρ⟩⟩
    simpa [hsat] using List.all_eq_true.1 h r hr

end Facts

end Chronogram
