import Chronogram.Integers.Minimum
import Chronogram.Proofs.Integers.Equation

/-! The least goal of a system is found exactly. Removing an unknown is exact up to the gap between
the dark and the real shadow, and every solution in that gap satisfies one of the splinters; the
answers for the dark shadow and for the splinters are put together by keeping the smaller one. -/

namespace Chronogram

namespace Optimum

variable {S T : Int → Prop} {o : Optimum}

theorem Of.congr (h : ∀ t, S t ↔ T t) (ho : o.Of S) : o.Of T := by
  rwa [← (funext fun t => propext (h t) : S = T)]

theorem Of.rescale {step base : Int} (hstep : 0 < step) (ho : o.Of S) :
    (o.rescale step base).Of fun t => ∃ s, t = step * s + base ∧ S s := by
  cases o with
  | infeasible =>
    rintro t ⟨s, -, hs⟩
    exact ho s hs
  | unbounded =>
    intro b
    obtain ⟨s, hs, hS⟩ := ho ((b - base) / step)
    refine ⟨step * s + base, ?_, s, rfl, hS⟩
    have := (Int.le_ediv_iff_mul_le hstep).1 hs
    linarith
  | least v =>
    refine ⟨⟨v, rfl, ho.1⟩, ?_⟩
    rintro t ⟨s, rfl, hs⟩
    have := Int.mul_le_mul_of_nonneg_left (ho.2 s hs) hstep.le
    linarith

/-- An answer for a smaller set holds for a larger one inside a third set with the same answer. -/
theorem Of.between {D R : Int → Prop} {dark real : Optimum} (hD : dark.Of D) (hR : real.Of R)
    (hDS : ∀ t, D t → S t) (hSR : ∀ t, S t → R t) (h : real = .infeasible ∨ real = dark) :
    dark.Of S := by
  have hempty : real = .infeasible → dark.Of S := by
    rintro rfl
    have hS : ∀ t, ¬ S t := fun t hs => hR t (hSR t hs)
    exact hD.congr fun t => ⟨hDS t, fun hs => absurd hs (hS t)⟩
  rcases h with h | rfl
  · exact hempty h
  · cases real with
    | infeasible => exact hempty rfl
    | unbounded =>
      intro b
      obtain ⟨t, ht, hd⟩ := hD b
      exact ⟨t, ht, hDS t hd⟩
    | least v => exact ⟨hDS v hD.1, fun t ht => hR.2 t (hSR t ht)⟩

def Below (t : Int) : Optimum → Prop
  | infeasible => True
  | unbounded => False
  | least v => t < v

theorem Of.better {best found : Optimum} (hbest : best.Of S)
    (hfound : found.Of fun t => T t ∧ Below t best) : (best.better found).Of fun t => S t ∨ T t := by
  cases found with
  | infeasible =>
    have hT : ∀ t, T t → ¬ Below t best := fun t ht hb => hfound t ⟨ht, hb⟩
    cases best with
    | infeasible =>
      rintro t (hs | ht)
      · exact hbest t hs
      · exact hT t ht trivial
    | unbounded =>
      intro b
      obtain ⟨t, htb, ht⟩ := hbest b
      exact ⟨t, htb, .inl ht⟩
    | least v =>
      refine ⟨.inl hbest.1, ?_⟩
      rintro t (hs | ht)
      · exact hbest.2 t hs
      · exact not_lt.1 (hT t ht)
  | unbounded =>
    intro b
    obtain ⟨t, htb, ht⟩ := hfound b
    exact ⟨t, htb, .inr ht.1⟩
  | least v =>
    refine ⟨.inr hfound.1.1, ?_⟩
    rintro t (hs | ht)
    · cases best with
      | infeasible => exact absurd hs (hbest t)
      | unbounded => exact hfound.1.2.elim
      | least w => exact (hfound.1.2.le).trans (hbest.2 t hs)
    · by_contra hlt
      have hvt : t < v := not_le.1 hlt
      refine hlt (hfound.2 t ⟨ht, ?_⟩)
      cases best with
      | infeasible => trivial
      | unbounded => exact hfound.1.2.elim
      | least w => exact hvt.trans hfound.1.2

end Optimum

namespace Row

variable {n : Nat} {t : Int}

theorem close_of {least : (equations bounds : List (Row n)) → Optimum} {S : Int → Prop}
    (hleast : ∀ equations bounds, (least equations bounds).Of (Feasible equations bounds))
    {o : Option (Reduced n)} (ho : Answers S o) : (close least o).Of S := by
  cases o with
  | none => exact ho
  | some r => exact ((hleast r.equations r.bounds).rescale ho.1).congr fun t => (ho.2 t).symm

theorem bounds_below (best : Optimum) (x : Vec n) : Bounds (below best) x t ↔ best.Below t := by
  cases best with
  | infeasible => simp [below, Bounds, Optimum.Below]
  | unbounded => simp [below, bounds_cons, Optimum.Below, eval, Vec.dot_of_isZero x (Vec.isZero_zero n)]
  | least v =>
    simp only [below, bounds_cons, Optimum.Below, eval, Vec.dot_of_isZero x (Vec.isZero_zero n)]
    constructor
    · rintro ⟨h, -⟩
      omega
    · intro h
      exact ⟨by omega, by simp [Bounds]⟩

/-- The bounds at a point, sorted by how the first unknown occurs in them. -/
theorem bounds_cons_iff {rows : List (Row (n + 1))} {z : Int} {x : Vec n} :
    Bounds rows (.cons z x) t ↔ Bounds (others rows) x t ∧
      (∀ l ∈ lowers rows, 0 ≤ l.lead * z + l.rest.eval x t) ∧
      ∀ u ∈ uppers rows, 0 ≤ u.lead * z + u.rest.eval x t := by
  simp only [Bounds, others, lowers, uppers, List.forall_mem_map, List.mem_filter,
    decide_eq_true_eq, and_imp]
  constructor
  · intro h
    refine ⟨fun r hr hz => ?_, fun r hr _ => ?_, fun r hr _ => ?_⟩
    · have := h r hr
      rw [eval_cons, hz] at this
      linarith
    · exact eval_cons r z x ▸ h r hr
    · exact eval_cons r z x ▸ h r hr
  · rintro ⟨h₀, h₁, h₂⟩ r hr
    rw [eval_cons]
    rcases lt_trichotomy r.lead 0 with hneg | hzero | hpos
    · exact h₂ r hr hneg
    · rw [hzero, zero_mul, zero_add]
      exact h₀ r hr hzero
    · exact h₁ r hr hpos

theorem bounds_project {pair : Row (n + 1) → Row (n + 1) → Row n} {rows : List (Row (n + 1))}
    {x : Vec n} : Bounds (project pair rows) x t ↔ Bounds (others rows) x t ∧
      ∀ l ∈ lowers rows, ∀ u ∈ uppers rows, 0 ≤ (pair l u).eval x t := by
  rw [project, bounds_append]
  simp only [Bounds, List.mem_flatMap, List.mem_map]
  constructor
  · rintro ⟨h₀, h⟩
    exact ⟨h₀, fun l hl u hu => h _ ⟨l, hl, u, hu, rfl⟩⟩
  · rintro ⟨h₀, h⟩
    refine ⟨h₀, ?_⟩
    rintro _ ⟨l, hl, u, hu, rfl⟩
    exact h l hl u hu

theorem lead_of_mem_lowers {rows : List (Row (n + 1))} {l : Row (n + 1)} (h : l ∈ lowers rows) :
    0 < l.lead := by
  simpa using (List.mem_filter.1 h).2

theorem lead_of_mem_uppers {rows : List (Row (n + 1))} {u : Row (n + 1)} (h : u ∈ uppers rows) :
    u.lead < 0 := by
  simpa using (List.mem_filter.1 h).2

theorem eval_shadow (l u : Row (n + 1)) (x : Vec n) :
    (shadow l u).eval x t = -u.lead * l.rest.eval x t + l.lead * u.rest.eval x t :=
  eval_combine _ _ _ _ _

theorem eval_darkShadow (l u : Row (n + 1)) (x : Vec n) :
    (darkShadow l u).eval x t = (shadow l u).eval x t - (l.lead - 1) * (-u.lead - 1) := by
  simp only [eval, darkShadow]
  ring

/-- Every solution casts a real shadow. -/
theorem bounds_shadow {rows : List (Row (n + 1))} {z : Int} {x : Vec n}
    (h : Bounds rows (.cons z x) t) : Bounds (project shadow rows) x t := by
  obtain ⟨h₀, hl, hu⟩ := bounds_cons_iff.1 h
  refine bounds_project.2 ⟨h₀, fun l hlm u hum => ?_⟩
  rw [eval_shadow]
  have ha := lead_of_mem_lowers hlm
  have hb := lead_of_mem_uppers hum
  nlinarith [mul_nonneg (neg_nonneg.2 hb.le) (hl l hlm), mul_nonneg ha.le (hu u hum)]

/-- Between finitely many lower and upper limits there is room if there is room for each pair. -/
theorem exists_between {α β : Type} (f : α → Int) (g : β → Int) {ls : List α} {us : List β}
    (h : ∀ l ∈ ls, ∀ u ∈ us, f l ≤ g u) :
    ∃ z, (∀ l ∈ ls, f l ≤ z) ∧ ∀ u ∈ us, z ≤ g u := by
  induction ls with
  | nil =>
    clear h
    induction us with
    | nil => exact ⟨0, by simp, by simp⟩
    | cons u us ih =>
      obtain ⟨z, -, hz⟩ := ih
      refine ⟨min (g u) z, by simp, List.forall_mem_cons.2 ⟨min_le_left _ _, fun w hw => ?_⟩⟩
      exact (min_le_right _ _).trans (hz w hw)
  | cons l ls ih =>
    obtain ⟨z, hz, hz'⟩ := ih fun l' hl' => h l' (by simp [hl'])
    refine ⟨max (f l) z, List.forall_mem_cons.2 ⟨le_max_left _ _, fun l' hl' => ?_⟩, fun u hu => ?_⟩
    · exact (hz l' hl').trans (le_max_right _ _)
    · exact max_le (h l (by simp) u hu) (hz' u hu)

/-- Inside the dark shadow of two bounds an integer fits between them. -/
theorem neg_ediv_le_ediv {a b p q : Int} (ha : 0 < a) (hb : 0 < b)
    (h : (a - 1) * (b - 1) ≤ b * p + a * q) : -(p / a) ≤ q / b := by
  rw [Int.le_ediv_iff_mul_le hb]
  have h₁ := Int.emod_lt_of_pos p ha
  have h₂ := Int.emod_add_mul_ediv p a
  set k := p / a
  set r := p % a
  have hlt : a * (-k * b) < a * (q + 1) := by nlinarith
  have := lt_of_mul_lt_mul_left hlt ha.le
  omega

theorem exists_bounds_of_darkShadow {rows : List (Row (n + 1))} {x : Vec n}
    (h : Bounds (project darkShadow rows) x t) : ∃ z, Bounds rows (.cons z x) t := by
  obtain ⟨h₀, hpair⟩ := bounds_project.1 h
  have hroom : ∀ l ∈ lowers rows, ∀ u ∈ uppers rows,
      -(l.rest.eval x t / l.lead) ≤ u.rest.eval x t / -u.lead := by
    intro l hlm u hum
    have := hpair l hlm u hum
    rw [eval_darkShadow, eval_shadow] at this
    have hb := lead_of_mem_uppers hum
    exact neg_ediv_le_ediv (lead_of_mem_lowers hlm) (by omega) (by linarith)
  obtain ⟨z, hl, hu⟩ := exists_between (fun l : Row (n + 1) => -(l.rest.eval x t / l.lead))
    (fun u : Row (n + 1) => u.rest.eval x t / -u.lead) hroom
  refine ⟨z, bounds_cons_iff.2 ⟨h₀, fun l hlm => ?_, fun u hum => ?_⟩⟩
  · have := hl l hlm
    rw [neg_le, Int.le_ediv_iff_mul_le (lead_of_mem_lowers hlm)] at this
    linarith
  · have := hu u hum
    have hb := lead_of_mem_uppers hum
    rw [Int.le_ediv_iff_mul_le (by omega)] at this
    linarith

theorem natAbs_lead_le_steepest {rows : List (Row (n + 1))} {u : Row (n + 1)} (h : u ∈ uppers rows) :
    u.lead.natAbs ≤ steepest rows := by
  have le_fold : ∀ (us : List (Row (n + 1))) (m : Nat),
      m ≤ us.foldl (fun m u => max m u.lead.natAbs) m := by
    intro us
    induction us with
    | nil => exact fun m => le_rfl
    | cons u us ih => exact fun m => (le_max_left _ _).trans (ih _)
  rw [steepest]
  generalize 0 = m, uppers rows = us at h
  induction us generalizing m with
  | nil => simp at h
  | cons w us ih =>
    rw [List.foldl_cons]
    rcases List.mem_cons.1 h with rfl | h
    · exact (le_max_right _ _).trans (le_fold us _)
    · exact ih _ h

/-- Outside the dark shadow a lower bound is nearly attained. -/
theorem lt_slack {a b i B : Nat} {p q z : Int} (hb : 0 < b) (hB : b ≤ B) (hi : (i : Int) = a * z + p)
    (hu : 0 ≤ -(b : Int) * z + q) (h : b * p + a * q < ((a : Int) - 1) * ((b : Int) - 1)) :
    i < a * (B - 1) / B := by
  rw [Nat.lt_iff_add_one_le, Nat.le_div_iff_mul_le (by omega)]
  have hbi : (b : Int) * (i + 1) ≤ a * (b - 1) := by
    have : (a : Int) * (b * z) ≤ a * q := Int.mul_le_mul_of_nonneg_left (by linarith) (by omega)
    rw [hi]
    linarith
  have ha : 0 < a := by
    by_contra h0
    have : a = 0 := by omega
    subst this
    have : (0 : Int) < b * (i + 1) := by positivity
    simp at hbi
    omega
  have hia : (i : Int) + 1 ≤ a := by
    by_contra hlt
    nlinarith
  have hBi : ((i : Int) + 1) * B ≤ a * (B - 1) := by nlinarith
  have hB1 : ((B - 1 : Nat) : Int) = B - 1 := by omega
  zify
  rw [hB1]
  exact hBi

theorem mem_splinters {rows : List (Row (n + 1))} {l : Row (n + 1)} {i : Nat} (hl : l ∈ lowers rows)
    (hi : i < slack (steepest rows) l) : { l with const := l.const - i } ∈ splinters rows :=
  List.mem_flatMap.2 ⟨l, hl, List.mem_map.2 ⟨i, List.mem_range.2 hi, rfl⟩⟩

theorem not_isFlat_of_mem_splinters {rows : List (Row (n + 1))} {e : Row (n + 1)}
    (h : e ∈ splinters rows) : e.isFlat = false := by
  obtain ⟨l, hl, he⟩ := List.mem_flatMap.1 h
  obtain ⟨i, -, rfl⟩ := List.mem_map.1 he
  have hpos := lead_of_mem_lowers hl
  rcases hv : l.vars with _ | ⟨a, v⟩
  have ha : a ≠ 0 := by
    rw [lead, hv] at hpos
    exact hpos.ne'
  simp [isFlat, Vec.isZero, ha]

/-- A solution lies over the dark shadow or on a splinter. -/
theorem darkShadow_or_splinter {rows : List (Row (n + 1))} {z : Int} {x : Vec n}
    (h : Bounds rows (.cons z x) t) :
    Bounds (project darkShadow rows) x t ∨ ∃ e ∈ splinters rows, e.eval (.cons z x) t = 0 := by
  obtain ⟨h₀, hl, hu⟩ := bounds_cons_iff.1 h
  by_cases hdark : ∀ l ∈ lowers rows, ∀ u ∈ uppers rows, 0 ≤ (darkShadow l u).eval x t
  · exact .inl (bounds_project.2 ⟨h₀, hdark⟩)
  · right
    push Not at hdark
    obtain ⟨l, hlm, u, hum, hlt⟩ := hdark
    have ha := lead_of_mem_lowers hlm
    have hb := lead_of_mem_uppers hum
    obtain ⟨i, hi⟩ := Int.eq_ofNat_of_zero_le (hl l hlm)
    have ha' : ((l.lead.natAbs : Nat) : Int) = l.lead := by omega
    have hb' : ((u.lead.natAbs : Nat) : Int) = -u.lead := by omega
    refine ⟨_, mem_splinters hlm (i := i) ?_, ?_⟩
    · refine lt_slack (b := u.lead.natAbs) (p := l.rest.eval x t) (q := u.rest.eval x t) (z := z)
        (by omega) (natAbs_lead_le_steepest hum) ?_ ?_ ?_
      · rw [ha', hi]
      · rw [hb']
        linarith [hu u hum]
      · rw [ha', hb']
        rw [eval_darkShadow, eval_shadow] at hlt
        linarith
    · have : l.eval (.cons z x) t = i := by rw [eval_cons, hi]
      simp only [eval] at this ⊢
      linarith

theorem feasible_nil_iff {rows : List (Row (n + 1))} :
    Feasible [] rows t ↔ ∃ z x, Bounds rows (.cons z x) t := by
  constructor
  · rintro ⟨_ | ⟨z, x⟩, -, hb⟩
    exact ⟨z, x, hb⟩
  · rintro ⟨z, x, hb⟩
    exact ⟨_, by simp [Solves], hb⟩

theorem feasible_nil {rows : List (Row n)} : Feasible [] rows t ↔ ∃ x, Bounds rows x t := by
  simp [Feasible, Solves]

theorem feasible_splinter {rows : List (Row (n + 1))} {e : Row (n + 1)} (best : Optimum) :
    Feasible [e] (below best ++ rows) t ↔ Feasible [e] rows t ∧ best.Below t := by
  simp only [Feasible, bounds_append, bounds_below]
  constructor
  · rintro ⟨x, he, hb, hr⟩
    exact ⟨⟨x, he, hr⟩, hb⟩
  · rintro ⟨⟨x, he, hr⟩, hb⟩
    exact ⟨x, he, hb, hr⟩

theorem foldl_splinters_of {least : (equations bounds : List (Row n)) → Optimum}
    (hleast : ∀ equations bounds, (least equations bounds).Of (Feasible equations bounds))
    {rows cuts : List (Row (n + 1))} (hcuts : ∀ e ∈ cuts, e.isFlat = false) {S : Int → Prop}
    {best : Optimum} (hbest : best.Of S) :
    (cuts.foldl (fun best e =>
        best.better (close least (solve e [] (below best ++ rows)))) best).Of
      fun t => S t ∨ ∃ e ∈ cuts, Feasible [e] rows t := by
  induction cuts generalizing S best with
  | nil => exact hbest.congr fun t => by simp
  | cons e cuts ih =>
    have hfound := close_of hleast (solve_answers (hcuts e (by simp)) [] (below best ++ rows))
    have hstep := hbest.better (hfound.congr fun t => feasible_splinter best)
    refine (ih (fun e he => hcuts e (by simp [he])) hstep).congr fun t => ?_
    simp [or_assoc]

/-- The answer for a system of bounds in at least one unknown, from answers for fewer unknowns. -/
theorem eliminate_of {least : (equations bounds : List (Row n)) → Optimum}
    (hleast : ∀ equations bounds, (least equations bounds).Of (Feasible equations bounds))
    (rows : List (Row (n + 1))) :
    Optimum.Of (Feasible [] rows) (
      match splinters rows with
      | [] => least [] (project darkShadow rows)
      | cuts =>
        if least [] (project shadow rows) = .infeasible ∨
            least [] (project shadow rows) = least [] (project darkShadow rows) then
          least [] (project darkShadow rows)
        else
          cuts.foldl (fun best e =>
            best.better (close least (solve e [] (below best ++ rows))))
            (least [] (project darkShadow rows))) := by
  have hdark := hleast [] (project darkShadow rows)
  have hreal := hleast [] (project shadow rows)
  have hsplit : ∀ t, (Feasible [] (project darkShadow rows) t ∨
      ∃ e ∈ splinters rows, Feasible [e] rows t) ↔ Feasible [] rows t := by
    intro t
    rw [feasible_nil, feasible_nil_iff]
    constructor
    · rintro (⟨x, hx⟩ | ⟨e, -, _ | ⟨z, x⟩, -, hb⟩)
      · obtain ⟨z, hz⟩ := exists_bounds_of_darkShadow hx
        exact ⟨z, x, hz⟩
      · exact ⟨z, x, hb⟩
    · rintro ⟨z, x, hb⟩
      rcases darkShadow_or_splinter hb with hd | ⟨e, he, hz⟩
      · exact .inl ⟨x, hd⟩
      · exact .inr ⟨e, he, _, by simpa [Solves] using hz, hb⟩
  split
  next hnone => exact hdark.congr fun t => by rw [← hsplit t, hnone]; simp
  next cuts hne =>
    split
    next hsame =>
      refine hdark.between hreal (fun t ht => (hsplit t).1 (.inl ht)) (fun t ht => ?_) hsame
      obtain ⟨z, x, hb⟩ := feasible_nil_iff.1 ht
      exact feasible_nil.2 ⟨x, bounds_shadow hb⟩
    · exact (foldl_splinters_of hleast (fun e => not_isFlat_of_mem_splinters) hdark).congr hsplit

theorem feasible_flat_iff {equations bounds : List (Row n)} :
    Feasible (equations.filter (! ·.isFlat)) (bounds ++ (equations.filter isFlat).flatMap both) t ↔
      Feasible equations bounds t := by
  have hsplit : ∀ x : Vec n, Solves equations x t ↔
      Solves (equations.filter (! ·.isFlat)) x t ∧ Solves (equations.filter isFlat) x t := by
    intro x
    simp only [Solves, List.mem_filter, and_imp, Bool.not_eq_true']
    constructor
    · exact fun h => ⟨fun r hr _ => h r hr, fun r hr _ => h r hr⟩
    · rintro ⟨h₁, h₂⟩ r hr
      cases hf : r.isFlat with
      | false => exact h₁ r hr hf
      | true => exact h₂ r hr hf
  simp only [Feasible, hsplit, bounds_append, bounds_both]
  exact exists_congr fun x => by tauto

theorem feasible_tidy_iff {equations bounds : List (Row n)} :
    Feasible equations (tidy bounds) t ↔ Feasible equations bounds t := by
  simp only [Feasible, bounds_tidy]

theorem minimum_of : ∀ (n : Nat) (equations bounds : List (Row n)),
    (minimum n equations bounds).Of (Feasible equations bounds)
  | 0, equations, bounds => by
    rw [minimum]
    refine (leastGoal_of _).congr fun t => ?_
    have hval : ∀ r : Row 0, r.goal * t + r.const = r.eval .nil t := fun r => by simp [eval]
    simp only [hval]
    change Bounds _ _ _ ↔ _
    rw [bounds_append, bounds_both]
    constructor
    · exact fun h => ⟨.nil, h⟩
    · rintro ⟨_ | _, h⟩
      exact h
  | n + 1, equations, bounds => by
    have hkeep : ∀ t, Feasible (equations.filter (! ·.isFlat))
        (tidy (bounds ++ (equations.filter isFlat).flatMap both)) t ↔ Feasible equations bounds t :=
      fun t => feasible_tidy_iff.trans feasible_flat_iff
    rw [minimum]
    generalize tidy (bounds ++ (equations.filter isFlat).flatMap both) = rows at hkeep
    simp only
    split
    next habsurd =>
      intro t ht
      obtain ⟨x, -, hb⟩ := (hkeep t).2 ht
      exact not_bounds_of_isAbsurd habsurd hb
    · split
      next e others heq =>
        have he : e.isFlat = false := by
          have : e ∈ equations.filter (! ·.isFlat) := by rw [heq]; simp
          simpa using (List.mem_filter.1 this).2
        rw [heq] at hkeep
        exact (close_of (minimum_of n) (solve_answers he others rows)).congr hkeep
      next hnone =>
        rw [hnone] at hkeep
        refine (eliminate_of (minimum_of n) (rows.map (front (cheapest rows n).1))).congr fun t => ?_
        rw [← hkeep t]
        exact feasible_map_front _ [] rows

end Row

end Chronogram
