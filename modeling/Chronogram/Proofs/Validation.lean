import Chronogram.Check.Validation
import Chronogram.Proofs.Facts
import Chronogram.Proofs.Valuation

/-! What validation establishes. An assignment is admitted by a signature when all clauses hold under
it and every port is at least one bit wide. A signature without complaints has distinct names, uses
only what it declares, states facts that say exactly what it admits, and wherever they hold its
delays are positive and the intervals of its ports hold a cycle. -/

namespace Chronogram

open Fallible

namespace Text

theorem mem_sorted {names : List String} {n : String} : n ∈ sorted names ↔ n ∈ names := by
  rw [sorted, List.mem_mergeSort, List.mem_eraseDups]

theorem nodup_of_repeated {names : List String} (h : repeated names = []) : names.Nodup := by
  have go : ∀ names seen, repeated.go seen names = [] → names.Nodup ∧ ∀ n ∈ names, n ∉ seen := by
    intro names
    induction names with
    | nil => simp
    | cons n names ih =>
      intro seen hgo
      rw [repeated.go] at hgo
      split at hgo
      · simp at hgo
      next hn =>
        obtain ⟨hnames, hseen⟩ := ih (n :: seen) hgo
        refine ⟨List.nodup_cons.2 ⟨fun hm => hseen n hm (by simp), hnames⟩, ?_⟩
        intro m hm
        rcases List.mem_cons.1 hm with rfl | hm
        · exact hn
        · exact fun hs => hseen m hm (by simp [hs])
  exact (go names [] h).1

end Text

structure Expr.Over (e : Expr) (params events : List String) : Prop where
  params : ∀ p ∈ e.params, p ∈ params
  events : ∀ x ∈ e.events, x ∈ events
  linear : e.Linear

theorem Expr.Over.events_eq_nil {e : Expr} {params : List String} (h : e.Over params []) :
    e.events = [] :=
  List.eq_nil_iff_forall_not_mem.2 fun x hx => List.not_mem_nil (h.events x hx)

namespace Clause

theorem holds_subst {c : Clause} (hl : c.lhs.Plain) (hr : c.rhs.Plain) (params : List (String × Expr))
    (times : List (String × Time)) (v : Valuation) :
    (c.subst params times).Holds v.symbol ↔ c.Holds (v.bound params times).symbol := by
  simp only [Holds, subst]
  rw [← Expr.eval_subst hl, ← Expr.eval_subst hr]

theorem holds_iff_form {c : Clause} {f : LinearForm} (h : c.form = .ok f) (ρ : Symbol → Int) :
    c.relation.Holds (f.eval ρ) 0 ↔ c.Holds ρ := by
  simp only [form, bind_eq_ok, pure_eq_ok, Expr.toForm_eq_ok] at h
  obtain ⟨l, hl, r, hr, rfl⟩ := h
  rw [Holds, LinearForm.eval_sub, ← Expr.eval_linearize hl ρ, ← Expr.eval_linearize hr ρ]
  cases c.relation <;> simp only [Relation.Holds] <;> omega

theorem succeeds_form {c : Clause} (hl : c.lhs.Linear) (hr : c.rhs.Linear) : Succeeds c.form :=
  (Expr.succeeds_toForm hl).bind fun _ _ =>
    (Expr.succeeds_toForm hr).bind fun _ _ => succeeds_pure _

end Clause

namespace Signature

variable {s : Signature} {facts : Facts} {ρ : Symbol → Int}

/-- All clauses hold and every port has a width. -/
def Admits (s : Signature) (ρ : Symbol → Int) : Prop :=
  (∀ c ∈ s.clauses, c.Holds ρ) ∧ ∀ p ∈ s.ports, 1 ≤ p.width.eval ρ

instance (s : Signature) (ρ : Symbol → Int) : Decidable (s.Admits ρ) :=
  inferInstanceAs (Decidable ((∀ c ∈ s.clauses, c.relation.Holds (c.lhs.eval ρ) (c.rhs.eval ρ)) ∧
    ∀ p ∈ s.ports, 1 ≤ p.width.eval ρ))

/-- The names in all expressions are identifiers, as in every signature that is read. -/
structure Plain (s : Signature) : Prop where
  default : ∀ p ∈ s.params, ∀ e, p.default = some e → e.Plain
  delay : ∀ e ∈ s.events, e.delay.Plain
  width : ∀ p ∈ s.ports, p.width.Plain
  clause : ∀ c ∈ s.clauses, c.lhs.Plain ∧ c.rhs.Plain

instance (s : Signature) : Decidable s.Plain :=
  decidable_of_iff ((∀ p ∈ s.params, ∀ e ∈ p.default, e.Plain) ∧ (∀ e ∈ s.events, e.delay.Plain) ∧
      (∀ p ∈ s.ports, p.width.Plain) ∧ ∀ c ∈ s.clauses, c.lhs.Plain ∧ c.rhs.Plain)
    ⟨fun h => ⟨h.1, h.2.1, h.2.2.1, h.2.2.2⟩, fun h => ⟨h.default, h.delay, h.width, h.clause⟩⟩

/-- Names are distinct, and everything that is used is declared. -/
structure Declared (s : Signature) : Prop where
  params_nodup : s.paramNames.Nodup
  events_nodup : s.eventNames.Nodup
  ports_nodup : s.portNames.Nodup
  default : ∀ p ∈ s.params, ∀ e, p.default = some e → e.Over s.paramNames []
  delay : ∀ e ∈ s.events, e.delay.Over s.paramNames s.eventNames
  width : ∀ p ∈ s.ports, p.width.Over s.paramNames []
  window : ∀ p ∈ s.ports, p.interval.start.event ∈ s.eventNames ∧
    p.interval.stop.event ∈ s.eventNames
  clause : ∀ c ∈ s.clauses, c.lhs.Over s.paramNames s.eventNames ∧
    c.rhs.Over s.paramNames s.eventNames

/-- A signature that declares what it uses, admits something and, whatever it admits, has positive
delays and intervals that hold a cycle. -/
structure Valid (s : Signature) : Prop extends s.Declared where
  admitted : ∃ ρ, s.Admits ρ
  delay_pos : ∀ ρ, s.Admits ρ → ∀ e ∈ s.events, 0 < e.delay.eval ρ
  nonempty : ∀ ρ, s.Admits ρ → ∀ p ∈ s.ports, p.interval.start.cycle ρ < p.interval.stop.cycle ρ

theorem over_of_checkExpr {e : Expr} {what : String} {loc : Option Loc} {eventsAllowed : Bool}
    {params : List String} (h : s.checkExpr e what loc eventsAllowed params = []) :
    e.Over params (if eventsAllowed then s.eventNames else []) := by
  unfold checkExpr at h
  extract_lets complain undeclared found at h
  split at h
  next hfound =>
    simp only [found, undeclared, List.isEmpty_iff, List.append_eq_nil_iff,
      List.map_eq_nil_iff] at hfound
    obtain ⟨⟨hp, ha⟩, hx⟩ := hfound
    -- nothing is left of the names that are used but not declared
    have declared : ∀ {used names : List String},
        Text.sorted (used.filter (· ∉ names)) = [] → ∀ n ∈ used, n ∈ names := by
      intro used names hnone n hn
      by_contra hnot
      have : n ∈ Text.sorted (used.filter (· ∉ names)) :=
        Text.mem_sorted.2 (List.mem_filter.2 ⟨hn, by simpa using hnot⟩)
      exact List.not_mem_nil (hnone ▸ this)
    refine ⟨declared hp, ?_, ?_⟩
    · cases eventsAllowed with
      | true => exact declared hx
      | false =>
        have hnil : e.events = [] := by simpa using ha
        simp [hnil]
    · split at h
      next f hf => exact ⟨f, Expr.toForm_eq_ok.1 hf⟩
      next => simp at h
  next hfound => exact absurd (by simp [h]) hfound

theorem over_of_checkDefaults (h : s.checkDefaults = []) :
    ∀ p ∈ s.params, ∀ e, p.default = some e → e.Over s.paramNames [] := by
  have go : ∀ (params : List Parameter) (earlier : List String),
      checkDefaults.go s earlier params = [] → ∀ p ∈ params, ∀ e, p.default = some e →
        e.Over (earlier ++ params.map (·.name)) [] := by
    intro params
    induction params with
    | nil => simp
    | cons p params ih =>
      intro earlier hgo q hq e he
      simp only [checkDefaults.go, List.append_eq_nil_iff] at hgo
      rcases List.mem_cons.1 hq with rfl | hq
      · rw [he] at hgo
        have hover := over_of_checkExpr hgo.1
        exact ⟨fun n hn => List.mem_append_left _ (hover.params n hn), hover.events, hover.linear⟩
      · have hover := ih _ hgo.2 q hq e he
        simpa using hover
  exact go s.params [] h

theorem declared_of_checks (hn : s.checkNames = []) (hr : s.checkReferences = []) : s.Declared := by
  simp only [checkNames, List.append_eq_nil_iff, List.map_eq_nil_iff] at hn
  simp only [checkReferences, List.append_eq_nil_iff, List.flatMap_eq_nil_iff] at hr
  obtain ⟨⟨⟨hdefault, hdelay⟩, hport⟩, hclause⟩ := hr
  refine ⟨Text.nodup_of_repeated hn.1.1, Text.nodup_of_repeated hn.1.2, Text.nodup_of_repeated hn.2,
    over_of_checkDefaults hdefault, fun e he => over_of_checkExpr (hdelay e he), ?_, ?_, ?_⟩
  · intro p hp
    have := hport p hp
    rw [checkPort, List.append_eq_nil_iff] at this
    exact over_of_checkExpr this.1
  · intro p hp
    have := hport p hp
    rw [checkPort, List.append_eq_nil_iff, List.map_eq_nil_iff, List.filter_eq_nil_iff] at this
    simpa using this.2
  · intro c hc
    have := hclause c hc
    simp only [checkClause, List.flatMap_eq_nil_iff] at this
    exact ⟨over_of_checkExpr (this c.lhs (by simp)), over_of_checkExpr (this c.rhs (by simp))⟩

theorem Declared.exists_facts (h : s.Declared) : ∃ facts, s.facts = .ok facts := by
  refine Succeeds.bind (.mapM fun c hc => ?_) fun _ _ => ?_
  · have hc := h.clause c hc
    exact (Clause.succeeds_form hc.1.linear hc.2.linear).bind fun _ _ => succeeds_pure _
  · refine Succeeds.bind (.mapM fun p hp => ?_) fun _ _ => succeeds_pure _
    exact (Expr.succeeds_toForm (h.width p hp).linear).bind fun _ _ => succeeds_pure _

theorem hold_facts_iff (h : s.facts = .ok facts) : facts.Hold ρ ↔ s.Admits ρ := by
  simp only [Signature.facts, bind_eq_ok, pure_eq_ok] at h
  obtain ⟨clauses, hc, widths, hw, rfl⟩ := h
  rw [Facts.hold_append, Admits]
  refine and_congr ?_ ?_
  · refine (forall_mem_iff_of_forall₂ (mapM_eq_ok.1 hc) fun c f hf => ?_).symm
    simp only [Clause.fact, bind_eq_ok, pure_eq_ok] at hf
    obtain ⟨form, hform, rfl⟩ := hf
    exact (Clause.holds_iff_form hform ρ).symm
  · refine (forall_mem_iff_of_forall₂ (mapM_eq_ok.1 hw) fun p f hf => ?_).symm
    simp only [bind_eq_ok, pure_eq_ok, Expr.toForm_eq_ok] at hf
    obtain ⟨form, hform, rfl⟩ := hf
    rw [Fact.Holds, LinearForm.eval_shift, Expr.eval_linearize hform, Relation.Holds]
    omega

theorem delay_pos_of_checkDelay {e : Event} (hlinear : e.delay.Linear) (h : s.checkDelay facts e = [])
    (hρ : facts.Hold ρ) : 0 < e.delay.eval ρ := by
  obtain ⟨form, hform⟩ := hlinear
  rw [← Expr.eval_linearize hform]
  simp only [checkDelay, hform] at h
  split at h
  next hc =>
    rw [LinearForm.eval_of_isConstant hc]
    split at h
    · simp at h
    · omega
  next =>
    split at h
    next himp => exact Facts.holds_of_implies himp hρ
    next => simp at h

theorem nonempty_of_checkInterval {p : Port} (h : s.checkInterval facts p = []) (hρ : facts.Hold ρ) :
    p.interval.start.cycle ρ < p.interval.stop.cycle ρ := by
  simp only [checkInterval, Bool.or_eq_true, decide_eq_true_eq] at h
  split at h
  next hcases =>
    rcases hcases with hsame | himp
    · have := p.interval.nonempty hsame
      simp only [Time.cycle, hsame]
      omega
    · have := Facts.holds_of_implies himp hρ
      simp only [Interval.lengthForm, LinearForm.eval_sub, Time.eval_form, Relation.Holds] at this
      omega
  next => simp at h

theorem valid_of_validate (h : s.validate = []) : s.Valid := by
  simp only [validate, List.isEmpty_iff] at h
  split at h
  next hnames =>
    rw [List.append_eq_nil_iff] at hnames
    have hd := declared_of_checks hnames.1 hnames.2
    obtain ⟨facts, hfacts⟩ := hd.exists_facts
    rw [hfacts, Except.toOption, Option.getD_some] at h
    split at h
    next hsat =>
      rw [List.append_eq_nil_iff, List.flatMap_eq_nil_iff, List.flatMap_eq_nil_iff] at h
      refine ⟨hd, ?_, ?_, ?_⟩
      · obtain ⟨ρ, hρ⟩ := Facts.satisfiable_iff.1 hsat
        exact ⟨ρ, (hold_facts_iff hfacts).1 hρ⟩
      · intro ρ hρ e he
        exact delay_pos_of_checkDelay (hd.delay e he).linear (h.1 e he) ((hold_facts_iff hfacts).2 hρ)
      · intro ρ hρ p hp
        exact nonempty_of_checkInterval (h.2 p hp) ((hold_facts_iff hfacts).2 hρ)
    next => simp at h
  next hnames => exact absurd h hnames

end Signature

end Chronogram
