import Chronogram.Integers.Equation
import Chronogram.Proofs.Integers.Row
import Mathlib.Data.Nat.GCD.Basic
import Mathlib.Tactic.LinearCombination

/-! Solving one equation keeps the goals of a system. The changes of unknowns are bijections of the
integer points, so each of them leaves the set of goals as it is, and the last step describes that
set through the index of an arithmetic progression. -/

namespace Chronogram

/-- Multiplication by `b` modulo `a` only sees `d` modulo `a / gcd a b`. -/
theorem dvd_mul_iff_div_gcd_dvd {a : Nat} (b : Nat) (ha : 0 < a) (d : Int) :
    (a : Int) ∣ b * d ↔ ((a / Nat.gcd a b : Nat) : Int) ∣ d := by
  have hg : 0 < Nat.gcd a b := Nat.gcd_pos_of_pos_left b ha
  rw [Int.natCast_dvd, Int.natAbs_mul, Int.natAbs_natCast, Int.natCast_dvd]
  constructor
  · intro h
    refine (Nat.coprime_div_gcd_div_gcd hg).dvd_of_dvd_mul_left ?_
    rw [← Nat.mul_div_right_comm (Nat.gcd_dvd_right a b)]
    exact Nat.div_dvd_div (Nat.gcd_dvd_left a b) h
  · intro h
    have := Nat.mul_dvd_mul h (Nat.gcd_dvd_right a b)
    rwa [Nat.div_mul_cancel (Nat.gcd_dvd_left a b), mul_comm] at this

theorem dvd_of_congruenceRoot? {a b : Nat} {c t : Int} (h : congruenceRoot? a b c = some t) :
    (a : Int) ∣ b * t + c := by
  fun_induction congruenceRoot? a b c generalizing t with
  | case1 a hc => simpa using hc
  | case2 a hc => cases h
  | case3 a b hb _ ih =>
    obtain ⟨y, hy, rfl⟩ := Option.map_eq_some_iff.1 h
    have hdvd : (b : Int) ∣ a * y + c := by
      have := ih hy
      rw [Int.natCast_mod, Int.emod_def] at this
      have h' : (a : Int) * y + c = (a - b * (a / b)) * y + c + b * (a / b * y) := by ring
      rw [h']
      exact Int.dvd_add this (Dvd.intro _ rfl)
    rw [Int.mul_ediv_cancel' (Int.dvd_neg.2 hdvd)]
    exact ⟨-y, by ring⟩

theorem not_dvd_of_congruenceRoot? {a b : Nat} {c : Int} (h : congruenceRoot? a b c = none) (t : Int) :
    ¬ (a : Int) ∣ b * t + c := by
  fun_induction congruenceRoot? a b c generalizing t with
  | case1 a hc => cases h
  | case2 a hc => simpa using hc
  | case3 a b hb _ ih =>
    rintro ⟨y, hy⟩
    refine ih (Option.map_eq_none_iff.1 h) (-y) ?_
    rw [Int.natCast_mod, Int.emod_def]
    refine ⟨a / b * y - t, ?_⟩
    linear_combination hy

namespace Row

variable {n : Nat} {t : Int}

/-- Some integer point satisfies the equations and the bounds with the given goal. -/
def Feasible (equations bounds : List (Row n)) (t : Int) : Prop :=
  ∃ x, Solves equations x t ∧ Bounds bounds x t

/-- The reduced rows describe a set of goals: all of it, and none is left out. -/
def Answers (S : Int → Prop) : Option (Reduced n) → Prop
  | none => ∀ t, ¬ S t
  | some r => 0 < r.step ∧ ∀ t, S t ↔ ∃ s, t = r.step * s + r.base ∧ Feasible r.equations r.bounds s

theorem feasible_map_front (k : Nat) (equations bounds : List (Row n)) :
    Feasible (equations.map (front k)) (bounds.map (front k)) t ↔ Feasible equations bounds t := by
  constructor
  · rintro ⟨y, he, hb⟩
    obtain ⟨x, rfl⟩ := Vec.front_surjective k y
    exact ⟨x, solves_map_front.1 he, bounds_map_front.1 hb⟩
  · rintro ⟨x, he, hb⟩
    exact ⟨x.front k, solves_map_front.2 he, bounds_map_front.2 hb⟩

theorem eval_shear (q : Row n) (r : Row (n + 1)) (y : Int) (x : Vec n) :
    (shear q r).eval (.cons y x) t = r.eval (.cons (y - q.eval x t) x) t := by
  have hs : (shear q r).rest.eval x t = 1 * r.rest.eval x t + -r.lead * q.eval x t :=
    eval_combine 1 (-r.lead) r.rest q x
  have hl : (shear q r).lead = r.lead := rfl
  rw [eval_cons, eval_cons, hs, hl]
  ring

theorem feasible_map_shear (q : Row n) (equations bounds : List (Row (n + 1))) :
    Feasible (equations.map (shear q)) (bounds.map (shear q)) t ↔ Feasible equations bounds t := by
  simp only [Feasible, Solves, Bounds, List.forall_mem_map]
  constructor
  · rintro ⟨_ | ⟨y, x⟩, he, hb⟩
    simp only [eval_shear] at he hb
    exact ⟨_, he, hb⟩
  · rintro ⟨_ | ⟨y, x⟩, he, hb⟩
    refine ⟨.cons (y + q.eval x t) x, fun r hr => ?_, fun r hr => ?_⟩
    · rw [eval_shear, add_sub_cancel_right]
      exact he r hr
    · rw [eval_shear, add_sub_cancel_right]
      exact hb r hr

theorem eval_follow (y₀ y₁ base step s : Int) (r : Row (n + 1)) (x : Vec n) :
    (follow y₀ y₁ base step r).eval x s = r.eval (.cons (y₀ + y₁ * s) x) (step * s + base) := by
  rw [eval_cons]
  simp only [eval, follow, rest]
  ring

theorem dvd_emod_mul_add_iff {a g c t : Int} : a ∣ g % a * t + c ↔ a ∣ g * t + c := by
  refine Int.dvd_iff_dvd_of_dvd_sub ?_
  rw [show g % a * t + c - (g * t + c) = (g - g % a) * -t by ring]
  exact Dvd.dvd.mul_right Int.dvd_self_sub_emod _

/-- The goals for which `a * y + g * t + c = 0` has a solution `y` are an arithmetic progression. -/
theorem dvd_iff_exists_eq {a g c base : Int} (ha : a ≠ 0) (hbase : a ∣ g * base + c) (t : Int) :
    a ∣ g * t + c ↔
      ∃ s, t = ((a.natAbs / Nat.gcd a.natAbs (g % a).toNat : Nat) : Int) * s + base := by
  have hmod : ((g % a).toNat : Int) = g % a := Int.toNat_of_nonneg (Int.emod_nonneg g ha)
  have hstep := dvd_mul_iff_div_gcd_dvd (g % a).toNat (Int.natAbs_pos.2 ha) (t - base)
  rw [hmod, Int.natAbs_dvd] at hstep
  have hshift : a ∣ g * t + c ↔ a ∣ g % a * (t - base) := by
    have : a ∣ g % a * (t - base) ↔ a ∣ g * (t - base) := by
      simpa using dvd_emod_mul_add_iff (a := a) (g := g) (c := 0) (t := t - base)
    rw [this]
    refine Int.dvd_iff_dvd_of_dvd_sub ?_
    rwa [show g * t + c - g * (t - base) = g * base + c by ring]
  rw [hshift, hstep]
  constructor
  · rintro ⟨s, hs⟩
    exact ⟨s, by linarith⟩
  · rintro ⟨s, rfl⟩
    exact ⟨s, by ring⟩

/-- Along the progression both quotients are exact, so `y` follows it on a line. -/
theorem eq_zero_along_iff {a g c base step : Int} (ha : a ≠ 0) (hbase : a ∣ g * base + c)
    (hstep : a ∣ g * step) (y s : Int) :
    a * y + (g * (step * s + base) + c) = 0 ↔ y = -(g * base + c) / a + -(g * step) / a * s := by
  have h₀ : a * (-(g * base + c) / a) = -(g * base + c) := Int.mul_ediv_cancel' (Int.dvd_neg.2 hbase)
  have h₁ : a * (-(g * step) / a) = -(g * step) := Int.mul_ediv_cancel' (Int.dvd_neg.2 hstep)
  constructor
  · intro h
    refine mul_left_cancel₀ ha ?_
    linear_combination h - h₀ - s * h₁
  · rintro rfl
    linear_combination h₀ + s * h₁

theorem finish_answers {e : Row (n + 1)} (hlead : e.lead ≠ 0) (hflat : e.rest.isFlat = true)
    (equations bounds : List (Row (n + 1))) :
    Answers (Feasible (e :: equations) bounds) (finish e equations bounds) := by
  have hval : ∀ y x t, e.eval (.cons y x) t = e.lead * y + (e.goal * t + e.const) := fun y x t => by
    rw [eval_cons, eval_of_isFlat hflat]
    rfl
  have hdvd : ∀ t, Feasible (e :: equations) bounds t → e.lead ∣ e.goal * t + e.const := by
    rintro t ⟨_ | ⟨y, x⟩, he, -⟩
    have := (solves_cons.1 he).1
    rw [hval] at this
    exact ⟨-y, by linarith⟩
  have hmod : ((e.goal % e.lead).toNat : Int) = e.goal % e.lead :=
    Int.toNat_of_nonneg (Int.emod_nonneg _ hlead)
  rw [finish]
  split
  next hroot =>
    intro t ht
    have := not_dvd_of_congruenceRoot? hroot t
    rw [hmod, Int.natAbs_dvd, dvd_emod_mul_add_iff] at this
    exact this (hdvd t ht)
  next base hroot =>
    have hbase := dvd_of_congruenceRoot? hroot
    rw [hmod, Int.natAbs_dvd, dvd_emod_mul_add_iff] at hbase
    have hprog := dvd_iff_exists_eq hlead hbase
    set step : Int := ((e.lead.natAbs / Nat.gcd e.lead.natAbs (e.goal % e.lead).toNat : Nat) : Int)
      with hstep
    have hpos : 0 < step := by
      have hle := Nat.gcd_le_left (e.goal % e.lead).toNat (Int.natAbs_pos.2 hlead)
      have := Nat.div_pos hle (Nat.gcd_pos_of_pos_left _ (Int.natAbs_pos.2 hlead))
      omega
    have hmul : e.lead ∣ e.goal * step := by
      have := Int.dvd_sub ((hprog (step + base)).2 ⟨1, by ring⟩) hbase
      rwa [show e.goal * (step + base) + e.const - (e.goal * base + e.const) = e.goal * step by ring]
        at this
    have hline := eq_zero_along_iff hlead hbase hmul
    refine ⟨hpos, fun t => ⟨fun ht => ?_, ?_⟩⟩
    · obtain ⟨s, rfl⟩ := (hprog t).1 (hdvd t ht)
      obtain ⟨_ | ⟨y, x⟩, he, hb⟩ := ht
      rw [solves_cons, hval, hline] at he
      obtain ⟨rfl, he⟩ := he
      refine ⟨s, rfl, x, ?_, ?_⟩
      · simpa only [Solves, List.forall_mem_map, eval_follow] using he
      · simpa only [Bounds, List.forall_mem_map, eval_follow] using hb
    · rintro ⟨s, rfl, x, he, hb⟩
      simp only [Solves, Bounds, List.forall_mem_map, eval_follow] at he hb
      refine ⟨_, solves_cons.2 ⟨?_, he⟩, hb⟩
      rw [hval, hline]

theorem Answers.congr {S T : Int → Prop} (h : ∀ t, S t ↔ T t) {o : Option (Reduced n)}
    (ho : Answers S o) : Answers T o := by
  rwa [← (funext fun t => propext (h t) : S = T)]

/-- A coordinate that is left after all were reduced modulo `a` is smaller than `a`. -/
theorem leastNonzero?_remainders {a : Int} (ha : a ≠ 0) : ∀ {n : Nat} (u : Vec n) {k m : Nat},
    (u.combine 1 (-a) (u.map (· / a))).leastNonzero? = some (k, m) → m < a.natAbs
  | _, .nil, k, m, h => by cases h
  | _, .cons p u, k, m, h => by
    have hp : (1 * p + -a * (p / a)).natAbs < a.natAbs := by
      have h₀ := Int.emod_nonneg p ha
      have h₁ := Int.emod_lt p ha
      have h₂ := Int.emod_def p a
      rw [show 1 * p + -a * (p / a) = p % a by rw [h₂]; ring]
      omega
    rw [Vec.map, Vec.combine, Vec.leastNonzero?] at h
    split at h
    · split at h
      · cases h
      · cases h
        exact hp
    next j l hu =>
      split at h
      · cases h
        exact hp
      · cases h
        exact leastNonzero?_remainders ha u hu

/-- Fuel that is not less than the leading coefficient lasts until the equation is solved. -/
theorem reduce_answers {fuel : Nat} {e : Row (n + 1)} (hlead : e.lead ≠ 0)
    (hfuel : e.lead.natAbs ≤ fuel) (equations bounds : List (Row (n + 1))) :
    Answers (Feasible (e :: equations) bounds) (reduce fuel e equations bounds) := by
  induction fuel generalizing e equations bounds with
  | zero => exact absurd (Int.natAbs_eq_zero.1 (Nat.le_zero.1 hfuel)) hlead
  | succ fuel ih =>
    rw [reduce]
    set q := e.quotients e.lead with hq
    have hshear : ∀ t, Feasible (shear q e :: equations.map (shear q)) (bounds.map (shear q)) t ↔
        Feasible (e :: equations) bounds t := fun t => feasible_map_shear q (e :: equations) bounds
    split
    next hnone =>
      exact (finish_answers (e := shear q e) hlead (Vec.leastNonzero?_eq_none hnone) _ _).congr hshear
    next k m hsome =>
      have hm : m < e.lead.natAbs := leastNonzero?_remainders hlead e.rest.vars hsome
      obtain _ | n := n
      · rcases hv : (shear q e).rest.vars with _ | _
        rw [hv] at hsome
        cases hsome
      · obtain ⟨hne, habs⟩ := Vec.leastNonzero?_eq_some hsome
        -- behind the first coefficient, coordinate `k` is coordinate `k + 1` of the whole row
        have hfront : ((shear q e).front (k + 1)).lead = ((shear q e).rest.vars.front k).head := by
          rcases hv : (shear q e).vars with _ | ⟨p, v⟩
          simp only [lead, front, rest, hv, Vec.front, Vec.tail]
          rcases v.front k with _ | ⟨b, w⟩
          rfl
        refine (ih (e := (shear q e).front (k + 1)) (hfront ▸ hne) ?_ _ _).congr fun t => ?_
        · rw [hfront, habs]
          omega
        · rw [← hshear t]
          exact feasible_map_front (k + 1) (shear q e :: equations.map (shear q)) _

theorem solve_answers {e : Row (n + 1)} (he : e.isFlat = false)
    (equations bounds : List (Row (n + 1))) :
    Answers (Feasible (e :: equations) bounds) (solve e equations bounds) := by
  rw [solve]
  split
  next hnone =>
    have : e.isFlat = true := Vec.leastNonzero?_eq_none hnone
    simp [this] at he
  next k m hsome =>
    obtain ⟨hne, habs⟩ := Vec.leastNonzero?_eq_some hsome
    exact (reduce_answers (e := e.front k) hne habs.le _ _).congr fun t =>
      feasible_map_front k (e :: equations) bounds

end Row

end Chronogram
