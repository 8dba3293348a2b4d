import Chronogram.Proofs.Entailment
import Chronogram.Proofs.Validation

/-! Validation is exact. It goes through the declarations one after the other and stops where names are
not in order or nothing is admitted, and it compares constants and intervals on one event without
asking the facts. What it lets pass are the well-formed signatures, no more and no less. -/

namespace Chronogram

open Fallible

namespace Text

theorem repeated_eq_nil_iff {names : List String} : repeated names = [] ↔ names.Nodup := by
  refine ⟨nodup_of_repeated, fun hnodup => ?_⟩
  have go : ∀ names seen, names.Nodup → (∀ n ∈ names, n ∉ seen) → repeated.go seen names = [] := by
    intro names
    induction names with
    | nil => exact fun _ _ _ => rfl
    | cons n names ih =>
      intro seen hn hseen
      obtain ⟨hnew, hn⟩ := List.nodup_cons.1 hn
      rw [List.forall_mem_cons] at hseen
      rw [repeated.go, if_neg hseen.1]
      apply ih _ hn
      intro m hm hmem
      rcases List.mem_cons.1 hmem with rfl | hmem
      · exact hnew hm
      · exact hseen.2 m hm hmem
  exact go names [] hnodup (by simp)

theorem sorted_filter_eq_nil {used names : List String} (h : ∀ n ∈ used, n ∈ names) :
    sorted (used.filter (· ∉ names)) = [] := by
  have hnone : used.filter (· ∉ names) = [] := by simpa using h
  rw [hnone, sorted]
  simp

end Text

/-- Facts that can hold imply exactly what they entail, constant forms included. -/
theorem Facts.implies_iff_of_hold {facts : Facts} {form : LinearForm} {relation : Relation}
    (hsat : ∃ ρ, facts.Hold ρ) : facts.implies form relation = true ↔ facts.Entails form relation := by
  cases hc : form.isConstant with
  | false => exact implies_iff_entails hc
  | true => rw [implies_of_isConstant hc, entails_of_isConstant hc hsat]

namespace Signature

variable {s : Signature} {facts : Facts}

def InOrder (earlier : List String) (params : List Parameter) : Prop :=
  ∀ before p after, params = before ++ p :: after → ∀ e, p.default = some e →
    e.Over (earlier ++ before.map (·.name)) []

/-- What a signature has to be: names are distinct, everything that is used is declared, in the case of
defaults before it is used, and linear; something is admitted, and whatever is admitted makes delays
positive and lets the interval of each port stop after its start. -/
structure WellFormed (s : Signature) : Prop extends s.Valid where
  defaults : InOrder [] s.params

theorem checkExpr_eq_nil_iff {e : Expr} {what : String} {loc : Option Loc} {eventsAllowed : Bool}
    {params : List String} :
    s.checkExpr e what loc eventsAllowed params = [] ↔
      e.Over params (if eventsAllowed then s.eventNames else []) := by
  refine ⟨over_of_checkExpr, fun h => ?_⟩
  have hevents : (e.events.isEmpty || eventsAllowed) = true ∧ ∀ x ∈ e.events, x ∈ s.eventNames := by
    cases eventsAllowed with
    | true => exact ⟨Bool.or_true _, h.events⟩
    | false =>
      have hnone : e.events = [] := h.events_eq_nil
      simp [hnone]
  obtain ⟨form, hform⟩ := Expr.succeeds_toForm h.linear
  simp only [checkExpr, Text.sorted_filter_eq_nil h.params, Text.sorted_filter_eq_nil hevents.2,
    hevents.1, hform, if_true]
  rfl

theorem inOrder_cons {earlier : List String} {p : Parameter} {params : List Parameter} :
    InOrder earlier (p :: params) ↔
      (∀ e, p.default = some e → e.Over earlier []) ∧ InOrder (earlier ++ [p.name]) params := by
  constructor
  · intro h
    refine ⟨fun e he => by simpa using h [] p params rfl e he, ?_⟩
    intro before q after hparams e he
    simpa using h (p :: before) q after (by simp [hparams]) e he
  · rintro ⟨hfirst, hrest⟩ before q after hparams e he
    cases before with
    | nil =>
      obtain ⟨rfl, -⟩ := List.cons.inj hparams
      simpa using hfirst e he
    | cons first before =>
      obtain ⟨rfl, htail⟩ := List.cons.inj hparams
      simpa using hrest before q after htail e he

theorem checkDefaults_eq_nil_iff : s.checkDefaults = [] ↔ InOrder [] s.params := by
  have go : ∀ (params : List Parameter) (earlier : List String),
      checkDefaults.go s earlier params = [] ↔ InOrder earlier params := by
    intro params
    induction params with
    | nil => exact fun earlier => iff_of_true rfl fun before p after h => by simp at h
    | cons p params ih =>
      intro earlier
      rw [checkDefaults.go, List.append_eq_nil_iff, ih, inOrder_cons]
      refine and_congr_left fun _ => ?_
      cases p.default with
      | none => simp
      | some e => simp [checkExpr_eq_nil_iff]
  exact go s.params []

theorem checkPort_eq_nil_iff {p : Port} :
    s.checkPort p = [] ↔ p.width.Over s.paramNames [] ∧ p.interval.start.event ∈ s.eventNames ∧
      p.interval.stop.event ∈ s.eventNames := by
  rw [checkPort, List.append_eq_nil_iff, checkExpr_eq_nil_iff, List.map_eq_nil_iff,
    List.filter_eq_nil_iff]
  simp

theorem checkClause_eq_nil_iff {c : Clause} :
    s.checkClause c = [] ↔ c.lhs.Over s.paramNames s.eventNames ∧
      c.rhs.Over s.paramNames s.eventNames := by
  simp [checkClause, checkExpr_eq_nil_iff]

theorem checks_eq_nil_iff :
    s.checkNames ++ s.checkReferences = [] ↔ s.Declared ∧ InOrder [] s.params := by
  constructor
  · intro h
    obtain ⟨hnames, hreferences⟩ := List.append_eq_nil_iff.1 h
    refine ⟨declared_of_checks hnames hreferences, ?_⟩
    simp only [checkReferences, List.append_eq_nil_iff] at hreferences
    exact checkDefaults_eq_nil_iff.1 hreferences.1.1.1
  · rintro ⟨hd, hdefaults⟩
    simp only [checkNames, checkReferences, List.append_eq_nil_iff, List.map_eq_nil_iff,
      List.flatMap_eq_nil_iff, Text.repeated_eq_nil_iff, checkDefaults_eq_nil_iff,
      checkExpr_eq_nil_iff, checkPort_eq_nil_iff, checkClause_eq_nil_iff]
    exact ⟨⟨⟨hd.params_nodup, hd.events_nodup⟩, hd.ports_nodup⟩,
      ⟨⟨hdefaults, hd.delay⟩, fun p hp => ⟨hd.width p hp, hd.window p hp⟩⟩, hd.clause⟩

theorem checkDelay_eq_nil_iff {e : Event} (hlinear : e.delay.Linear) (hsat : ∃ ρ, facts.Hold ρ) :
    s.checkDelay facts e = [] ↔ ∀ ρ, facts.Hold ρ → 0 < e.delay.eval ρ := by
  refine ⟨fun h ρ hρ => delay_pos_of_checkDelay hlinear h hρ, fun h => ?_⟩
  obtain ⟨form, hform⟩ := hlinear
  have hentails : facts.Entails form .gt := by
    intro ρ hρ
    rw [Expr.eval_linearize hform]
    exact h ρ hρ
  simp only [checkDelay, hform]
  split
  next hc =>
    have hpos : 0 < form.constant := (Facts.entails_of_isConstant hc hsat).1 hentails
    rw [if_neg (by omega)]
  next => rw [if_pos ((Facts.implies_iff_of_hold hsat).2 hentails)]

theorem checkInterval_eq_nil_iff {p : Port} (hsat : ∃ ρ, facts.Hold ρ) :
    s.checkInterval facts p = [] ↔
      ∀ ρ, facts.Hold ρ → p.interval.start.cycle ρ < p.interval.stop.cycle ρ := by
  refine ⟨fun h ρ hρ => nonempty_of_checkInterval h hρ, fun h => ?_⟩
  have himplies : facts.implies p.interval.lengthForm .gt = true := by
    rw [Facts.implies_iff_of_hold hsat]
    intro ρ hρ
    have hlt := h ρ hρ
    simp only [Interval.lengthForm, LinearForm.eval_sub, Time.eval_form, Relation.Holds]
    omega
  simp [checkInterval, himplies]

theorem validate_of_wellFormed (h : s.WellFormed) : s.validate = [] := by
  obtain ⟨facts, hfacts⟩ := h.exists_facts
  have hsat : ∃ ρ, facts.Hold ρ := h.admitted.imp fun ρ hρ => (hold_facts_iff hfacts).2 hρ
  simp only [validate, List.isEmpty_iff, checks_eq_nil_iff.2 ⟨h.toDeclared, h.defaults⟩, if_true,
    hfacts, Except.toOption, Option.getD_some, Facts.satisfiable_iff.2 hsat,
    List.append_eq_nil_iff, List.flatMap_eq_nil_iff]
  constructor
  · intro e he
    rw [checkDelay_eq_nil_iff (h.delay e he).linear hsat]
    exact fun ρ hρ => h.delay_pos ρ ((hold_facts_iff hfacts).1 hρ) e he
  · intro p hp
    rw [checkInterval_eq_nil_iff hsat]
    exact fun ρ hρ => h.nonempty ρ ((hold_facts_iff hfacts).1 hρ) p hp

theorem wellFormed_of_validate (h : s.validate = []) : s.WellFormed := by
  refine ⟨valid_of_validate h, ?_⟩
  simp only [validate, List.isEmpty_iff] at h
  split at h
  next hnames => exact (checks_eq_nil_iff.1 hnames).2
  next hnames => exact absurd h hnames

/-- A signature passes validation exactly when it is well-formed. -/
theorem exact_validation (s : Signature) : s.validate = [] ↔ s.WellFormed :=
  ⟨wellFormed_of_validate, validate_of_wellFormed⟩

end Signature

end Chronogram
