import Chronogram.Integers.Row
import Mathlib.Tactic.Linarith
import Mathlib.Tactic.Ring
import Mathlib.Tactic.Tauto

/-! Values of rows. Every operation on vectors and rows is described by what it does to the value at
a point, and tidying a list of bounds changes none of its integer solutions. -/

namespace Chronogram

namespace Vec

variable {n : Nat}

@[simp] theorem dot_cons (a b : Int) (u v : Vec n) : (cons a u).dot (cons b v) = a * b + u.dot v := rfl

@[simp] theorem dot_nil (u v : Vec 0) : u.dot v = 0 := by
  cases u
  cases v
  rfl

theorem dot_combine (a b : Int) : ∀ {n : Nat} (u v x : Vec n),
    (u.combine a b v).dot x = a * u.dot x + b * v.dot x
  | _, nil, nil, nil => by simp
  | _, cons p u, cons q v, cons y x => by
    rw [combine, dot_cons, dot_cons, dot_cons, dot_combine a b u v x]
    ring

theorem dot_map_mul (k : Int) : ∀ {n : Nat} (u x : Vec n), (u.map (k * ·)).dot x = k * u.dot x
  | _, nil, nil => by simp
  | _, cons p u, cons y x => by
    rw [map, dot_cons, dot_cons, dot_map_mul k u x]
    ring

theorem dot_map_neg : ∀ {n : Nat} (u x : Vec n), (u.map (- ·)).dot x = -u.dot x
  | _, nil, nil => by simp
  | _, cons p u, cons y x => by
    rw [map, dot_cons, dot_cons, dot_map_neg u x]
    ring

theorem dot_map_div (g : Int) : ∀ {n : Nat} (u x : Vec n), g ∣ (u.gcd : Int) →
    u.dot x = g * (u.map (· / g)).dot x
  | _, nil, nil, _ => by simp
  | _, cons p u, cons y x, h => by
    have hp : g ∣ p := Int.dvd_natAbs.1 (h.trans (Int.natCast_dvd_natCast.2 (Nat.gcd_dvd_left _ _)))
    have hu : g ∣ (u.gcd : Int) := h.trans (Int.natCast_dvd_natCast.2 (Nat.gcd_dvd_right _ _))
    rw [map, dot_cons, dot_cons, dot_map_div g u x hu]
    obtain ⟨k, rfl⟩ := hp
    by_cases hg : g = 0
    · simp [hg]
    · rw [Int.mul_ediv_cancel_left _ hg]
      ring

theorem dot_of_isZero : ∀ {n : Nat} {u : Vec n} (x : Vec n), u.isZero = true → u.dot x = 0
  | _, nil, nil, _ => by simp
  | _, cons p u, cons y x, h => by
    simp only [isZero, Bool.and_eq_true, beq_iff_eq] at h
    rw [dot_cons, h.1, dot_of_isZero x h.2]
    ring

@[simp] theorem isZero_zero : ∀ n : Nat, (zero n).isZero = true
  | 0 => rfl
  | n + 1 => by simp [zero, isZero, isZero_zero n]

theorem dot_front : ∀ {n : Nat} (k : Nat) (u x : Vec n), (u.front k).dot (x.front k) = u.dot x
  | _, 0, _, _ => by simp [front]
  | _, _ + 1, nil, nil => rfl
  | 1, _ + 1, cons p nil, cons y nil => by cases ‹Nat› <;> rfl
  | n + 2, k + 1, cons p u, cons y x => by
    have ih := dot_front k u x
    rw [front, front]
    rcases hu : u.front k with _ | ⟨b, w⟩
    rcases hx : x.front k with _ | ⟨c, z⟩
    rw [hu, hx, dot_cons] at ih
    simp only [dot_cons]
    linarith

theorem front_surjective : ∀ {n : Nat} (k : Nat) (w : Vec n), ∃ v : Vec n, v.front k = w
  | _, 0, w => ⟨w, by simp [front]⟩
  | _, _ + 1, nil => ⟨nil, rfl⟩
  | 1, k + 1, cons b nil => ⟨cons b nil, by cases k <;> rfl⟩
  | n + 2, k + 1, cons b (cons a w) => by
    obtain ⟨u, hu⟩ := front_surjective k (cons b w)
    exact ⟨cons a u, by rw [front, hu]⟩

theorem leastNonzero?_eq_none : ∀ {n : Nat} {v : Vec n}, v.leastNonzero? = none → v.isZero = true
  | _, nil, _ => rfl
  | _, cons a v, h => by
    rw [leastNonzero?] at h
    split at h
    next hv =>
      split at h
      next ha => simp [isZero, ha, leastNonzero?_eq_none hv]
      · cases h
    · split at h <;> cases h

/-- The coordinate that is found is not zero and comes first after it is moved to the front. -/
theorem leastNonzero?_eq_some : ∀ {n : Nat} {v : Vec (n + 1)} {k m : Nat},
    v.leastNonzero? = some (k, m) → (v.front k).head ≠ 0 ∧ (v.front k).head.natAbs = m
  | 0, cons a nil, k, m, h => by
    simp only [leastNonzero?] at h
    split at h
    · cases h
    next ha =>
      cases h
      exact ⟨ha, rfl⟩
  | n + 1, cons a v, k, m, h => by
    rw [leastNonzero?] at h
    split at h
    · split at h
      · cases h
      next ha =>
        cases h
        exact ⟨ha, rfl⟩
    next j l hv =>
      split at h
      next ha =>
        cases h
        exact ⟨ha.1, rfl⟩
      · cases h
        have ih := leastNonzero?_eq_some hv
        rw [front]
        rcases hw : v.front j with _ | ⟨b, w⟩
        rw [hw] at ih
        exact ih

end Vec

namespace Row

variable {n : Nat} {t : Int}

theorem eval_combine (a b : Int) (r s : Row n) (x : Vec n) :
    (combine a b r s).eval x t = a * r.eval x t + b * s.eval x t := by
  simp only [eval, combine, Vec.dot_combine]
  ring

theorem eval_neg (r : Row n) (x : Vec n) : r.neg.eval x t = -r.eval x t := by
  simp only [eval, neg, Vec.dot_map_neg]
  ring

theorem eval_front (k : Nat) (r : Row n) (x : Vec n) : (r.front k).eval (x.front k) t = r.eval x t := by
  simp only [eval, front, Vec.dot_front]

theorem eval_cons (r : Row (n + 1)) (y : Int) (x : Vec n) :
    r.eval (.cons y x) t = r.lead * y + r.rest.eval x t := by
  obtain ⟨_ | ⟨a, v⟩, g, c⟩ := r
  simp only [eval, lead, rest, Vec.head, Vec.tail, Vec.dot_cons]
  ring

theorem eval_of_isFlat {r : Row n} (h : r.isFlat = true) (x : Vec n) :
    r.eval x t = r.goal * t + r.const := by
  rw [eval, Vec.dot_of_isZero x h]
  ring

theorem bounds_append {rs ss : List (Row n)} {x : Vec n} :
    Bounds (rs ++ ss) x t ↔ Bounds rs x t ∧ Bounds ss x t := List.forall_mem_append

theorem bounds_cons {r : Row n} {rs : List (Row n)} {x : Vec n} :
    Bounds (r :: rs) x t ↔ 0 ≤ r.eval x t ∧ Bounds rs x t := List.forall_mem_cons

theorem solves_cons {r : Row n} {rs : List (Row n)} {x : Vec n} :
    Solves (r :: rs) x t ↔ r.eval x t = 0 ∧ Solves rs x t := List.forall_mem_cons

theorem bounds_map_front {k : Nat} {rows : List (Row n)} {x : Vec n} :
    Bounds (rows.map (front k)) (x.front k) t ↔ Bounds rows x t := by
  simp only [Bounds, List.forall_mem_map, eval_front]

theorem solves_map_front {k : Nat} {rows : List (Row n)} {x : Vec n} :
    Solves (rows.map (front k)) (x.front k) t ↔ Solves rows x t := by
  simp only [Solves, List.forall_mem_map, eval_front]

theorem bounds_both {rows : List (Row n)} {x : Vec n} :
    Bounds (rows.flatMap both) x t ↔ Solves rows x t := by
  have both_iff : ∀ r : Row n, Bounds (both r) x t ↔ r.eval x t = 0 := by
    intro r
    rw [both, bounds_cons, bounds_cons, eval_neg]
    constructor
    · rintro ⟨h₁, h₂, -⟩
      omega
    · intro h
      exact ⟨by omega, by omega, by simp [Bounds]⟩
  simp only [Bounds, Solves, List.mem_flatMap] at *
  constructor
  · exact fun h r hr => (both_iff r).1 fun s hs => h s ⟨r, hr, hs⟩
  · rintro h s ⟨r, hr, hs⟩
    exact (both_iff r).2 (h r hr) s hs

/-- The integer values of a form are not negative exactly when its rounded quotient is not. -/
theorem nonneg_tighten {r : Row n} {x : Vec n} : 0 ≤ r.tighten.eval x t ↔ 0 ≤ r.eval x t := by
  rw [tighten]
  split
  · rfl
  next hg =>
    set g : Nat := Nat.gcd r.vars.gcd r.goal.natAbs with hgdef
    have hpos : (0 : Int) < g := by omega
    have hvars : (g : Int) ∣ (r.vars.gcd : Int) := Int.natCast_dvd_natCast.2 (Nat.gcd_dvd_left _ _)
    have hgoal : (g : Int) ∣ r.goal :=
      Int.dvd_natAbs.1 (Int.natCast_dvd_natCast.2 (Nat.gcd_dvd_right _ _))
    have hval : r.eval x t =
        g * ((r.vars.map (· / (g : Int))).dot x + r.goal / g * t) + r.const := by
      rw [eval, Vec.dot_map_div (g : Int) r.vars x hvars]
      conv_lhs => rw [← Int.mul_ediv_cancel' hgoal]
      ring
    rw [hval, eval]
    generalize (r.vars.map (· / (g : Int))).dot x + r.goal / g * t = y
    constructor
    · intro h
      have := Int.mul_ediv_self_le (x := r.const) hpos.ne'
      nlinarith
    · intro h
      have : -y ≤ r.const / g := (Int.le_ediv_iff_mul_le hpos).2 (by linarith)
      linarith

theorem bounds_insert {r : Row n} {rows : List (Row n)} {x : Vec n} :
    Bounds (insert r rows) x t ↔ 0 ≤ r.eval x t ∧ Bounds rows x t := by
  induction rows with
  | nil => simp [insert, Bounds]
  | cons s rows ih =>
    rw [insert]
    split
    next h =>
      have hmin : 0 ≤ ({ s with const := min r.const s.const } : Row n).eval x t ↔
          0 ≤ r.eval x t ∧ 0 ≤ s.eval x t := by
        simp only [eval, h.1, h.2]
        omega
      rw [bounds_cons, bounds_cons, hmin, and_assoc]
    · rw [bounds_cons, bounds_cons, ih]
      tauto

theorem bounds_tidy {rows : List (Row n)} {x : Vec n} : Bounds (tidy rows) x t ↔ Bounds rows x t := by
  induction rows with
  | nil => rfl
  | cons r rows ih =>
    rw [tidy, List.foldr_cons, bounds_cons, ← ih]
    split
    next h =>
      have : 0 ≤ r.eval x t := by
        rw [eval_of_isFlat h.1, h.2.1]
        omega
      exact (and_iff_right this).symm
    · rw [bounds_insert, nonneg_tighten]
      rfl

theorem not_bounds_of_isAbsurd {rows : List (Row n)} {x : Vec n} (h : rows.any isAbsurd = true) :
    ¬ Bounds rows x t := by
  obtain ⟨r, hr, ha⟩ := List.any_eq_true.1 h
  simp only [isAbsurd, Bool.and_eq_true, beq_iff_eq, decide_eq_true_eq] at ha
  intro hb
  have := hb r hr
  rw [eval_of_isFlat ha.1.1, ha.1.2] at this
  omega

/-- What a lower and an upper bound leave, where either may be missing. -/
def Within (b : Option Int × Option Int) (t : Int) : Prop := (∀ l ∈ b.1, l ≤ t) ∧ ∀ h ∈ b.2, t ≤ h

theorem exists_within_range_iff {rows : List (Row n)} :
    (∃ b ∈ range rows, Within b t) ↔ ∀ r ∈ rows, 0 ≤ r.goal * t + r.const := by
  induction rows with
  | nil => simp [range, Within]
  | cons r rows ih =>
    rw [List.forall_mem_cons, ← ih, range]
    rcases range rows with _ | ⟨lo, hi⟩
    · simp
    · simp only [Option.mem_def, Option.some.injEq, exists_eq_left']
      split
      next hg =>
        -- a positive coefficient bounds the goal from below
        have hr : 0 ≤ r.goal * t + r.const ↔ -(r.const / r.goal) ≤ t := by
          rw [neg_le, Int.le_ediv_iff_mul_le hg]
          constructor <;> intro h <;> linarith
        rw [hr]
        cases lo <;> simp [Within, and_assoc]
      next hg =>
        split
        next hg' =>
          -- and a negative one from above
          have hr : 0 ≤ r.goal * t + r.const ↔ t ≤ r.const / -r.goal := by
            rw [Int.le_ediv_iff_mul_le (by omega)]
            constructor <;> intro h <;> linarith
          rw [hr]
          cases hi <;> simp [Within] <;> tauto
        · have hz : r.goal = 0 := by omega
          simp only [hz, zero_mul, zero_add]
          split
          next hc => simp [hc]
          next hc => simp [hc]

theorem leastGoal_of (rows : List (Row n)) :
    (leastGoal rows).Of fun t => ∀ r ∈ rows, 0 ≤ r.goal * t + r.const := by
  simp only [← exists_within_range_iff, leastGoal]
  rcases range rows with _ | ⟨_ | lo, _ | hi⟩
  · simp [Optimum.Of]
  · exact fun b => ⟨b, le_rfl, by simp [Within]⟩
  · exact fun b => ⟨min b hi, min_le_left _ _, by simp [Within]⟩
  · exact ⟨by simp [Within], by simp [Within]⟩
  · simp only
    split
    next h => exact ⟨by simp [Within, h], by simp [Within]; omega⟩
    next h => intro t; simp [Within]; omega

end Row

end Chronogram
