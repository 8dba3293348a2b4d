import Chronogram.Proofs.Sharing
import Chronogram.Proofs.WellFormedness

/-! Call sites are checked exactly. A clause of the callee is put in terms of the caller and looked at as a
constant, or as something that has to follow from the caller's facts; in both cases it passes if and
only if it holds under every induced valuation. So an instance is made exactly when the callee can be
used wherever the caller can, and a triggering exactly when its times fit as well. -/

namespace Chronogram

open Fallible

/-- Wherever the caller admits, the bindings meet what the callee demands of its parameters. -/
def Signature.Suits (caller callee : Signature) (bindings : List (String × Expr)) : Prop :=
  ∀ v : Valuation, caller.Admits v.symbol →
    (∀ clause ∈ callee.paramClauses, clause.Holds (v.bound bindings []).symbol) ∧
      ∀ p ∈ callee.ports, 1 ≤ p.width.eval (v.bound bindings []).symbol

/-- There is one time for each event of the callee, on an event of the caller, and wherever the caller
admits, the clauses of the callee on its events hold. -/
structure Instance.Accepts (i : Instance) (caller : Signature) (times : List Time) : Prop where
  arity : times.length = i.signature.events.length
  declared : ∀ t ∈ times, t.event ∈ caller.eventNames
  clauses : ∀ v : Valuation, caller.Admits v.symbol → ∀ clause ∈ i.signature.eventClauses,
    clause.Holds (v.bound i.bindings (i.signature.eventNames.zip times)).symbol

namespace Caller

variable {c : Caller} {i : Instance} {table : Table} {inst : Instantiation} {inv : Invocation}
  {instances : List Instance} {times : List (String × Time)} {loc : Option Loc}

/-- A registered caller proves exactly what holds wherever it admits. -/
theorem Registered.proves_iff (hc : c.Registered) {form : LinearForm} {r : Relation} :
    c.proves form r = true ↔
      ∀ v : Valuation, c.signature.Admits v.symbol → r.Holds (form.eval v.symbol) 0 := by
  have hsat : ∃ ρ, c.facts.Hold ρ := by
    obtain ⟨ρ, hρ⟩ := hc.valid.admitted
    exact ⟨ρ, (hc.facts ρ).2 hρ⟩
  rw [proves, Facts.implies_iff_of_hold hsat]
  constructor
  · exact fun h v hv => h v.symbol ((hc.facts _).2 hv)
  · intro h ρ hρ
    obtain ⟨v, rfl⟩ := Valuation.exists_symbol_eq ρ
    exact h v ((hc.facts _).1 hρ)

theorem checkClause_eq_none_iff (hc : c.Registered) (hb : ∀ b ∈ i.bindings, b.2.Linear) {clause : Clause}
    (hl : clause.lhs.Plain ∧ clause.lhs.Linear) (hr : clause.rhs.Plain ∧ clause.rhs.Linear) :
    c.checkClause clause i times loc = .ok none ↔
      ∀ v : Valuation, c.signature.Admits v.symbol → clause.Holds (v.bound i.bindings times).symbol := by
  refine ⟨fun h v hv => holds_of_checkClause hl.1 hr.1 h ((hc.facts _).2 hv), fun h => ?_⟩
  obtain ⟨form, hform⟩ : Succeeds (clause.subst i.bindings times).form :=
    Clause.succeeds_form (Expr.linear_subst_of_mem hl.1 hl.2 hb times)
      (Expr.linear_subst_of_mem hr.1 hr.2 hb times)
  have hproves : c.proves form clause.relation = true := by
    refine hc.proves_iff.2 fun v hv => ?_
    have hholds := (Clause.holds_subst hl.1 hr.1 i.bindings times v).2 (h v hv)
    exact (Clause.holds_iff_form hform v.symbol).2 hholds
  rw [checkClause]
  exact bind_eq_ok.2 ⟨form, hform, by rw [if_pos hproves]; rfl⟩

theorem checkWidth_eq_none_iff (hc : c.Registered) (hb : ∀ b ∈ i.bindings, b.2.Linear) {p : Port}
    (hp : p.width.Plain) (hl : p.width.Linear) :
    c.checkWidth i p = .ok none ↔
      ∀ v : Valuation, c.signature.Admits v.symbol → 1 ≤ p.width.eval (v.bound i.bindings []).symbol := by
  refine ⟨fun h v hv => width_of_checkWidth hp h ((hc.facts _).2 hv), fun h => ?_⟩
  obtain ⟨form, hform⟩ := Expr.succeeds_toForm (Expr.linear_subst_of_mem hp hl hb [])
  have hproves : c.proves (form.shift (-1)) .ge = true := by
    refine hc.proves_iff.2 fun v hv => ?_
    have hwidth := h v hv
    rw [← Expr.eval_subst hp, ← Expr.eval_linearize (Expr.toForm_eq_ok.1 hform)] at hwidth
    simp only [Relation.Holds, LinearForm.eval_shift]
    omega
  rw [checkWidth]
  exact bind_eq_ok.2 ⟨form, hform, by rw [if_pos hproves]; rfl⟩

/-- The checks of an instance all pass exactly when the callee suits the caller. -/
theorem checks_iff_suits (hc : c.Registered) (hp : i.signature.Plain) (hv : i.signature.Valid)
    (hb : ∀ b ∈ i.bindings, b.2.Linear) :
    ((∀ clause ∈ i.signature.paramClauses, c.checkClause clause i [] none = .ok none) ∧
        ∀ p ∈ i.signature.ports, c.checkWidth i p = .ok none) ↔
      c.signature.Suits i.signature i.bindings := by
  have hclause : ∀ clause ∈ i.signature.paramClauses, c.checkClause clause i [] none = .ok none ↔
      ∀ v : Valuation, c.signature.Admits v.symbol → clause.Holds (v.bound i.bindings []).symbol := by
    intro clause hmem
    have hmem := (List.mem_filter.1 hmem).1
    exact checkClause_eq_none_iff hc hb ⟨(hp.clause _ hmem).1, (hv.clause _ hmem).1.linear⟩
      ⟨(hp.clause _ hmem).2, (hv.clause _ hmem).2.linear⟩
  have hwidth : ∀ p ∈ i.signature.ports, c.checkWidth i p = .ok none ↔
      ∀ v : Valuation, c.signature.Admits v.symbol → 1 ≤ p.width.eval (v.bound i.bindings []).symbol :=
    fun p hmem => checkWidth_eq_none_iff hc hb (hp.width p hmem) (hv.width p hmem).linear
  constructor
  · rintro ⟨hclauses, hwidths⟩ v hadm
    exact ⟨fun clause hmem => (hclause clause hmem).1 (hclauses clause hmem) v hadm,
      fun p hmem => (hwidth p hmem).1 (hwidths p hmem) v hadm⟩
  · intro h
    exact ⟨fun clause hmem => (hclause clause hmem).2 fun v hadm => (h v hadm).1 clause hmem,
      fun p hmem => (hwidth p hmem).2 fun v hadm => (h v hadm).2 p hmem⟩

section Resolve

variable {callee : Signature} {bindings : List (String × Expr)}

theorem resolve_of_suits (hc : c.Registered) (ht : table.Built)
    (hget : table.get? inst.component = some callee)
    (hbind : c.bindParameters callee inst = .ok (bindings, []))
    (h : c.signature.Suits callee bindings) :
    c.resolve table inst = .ok (some ⟨inst.name, callee, bindings, inst.loc⟩, []) := by
  obtain ⟨-, hp, hv⟩ := ht.registered hget
  obtain ⟨hclauses, hwidths⟩ := (checks_iff_suits (i := ⟨inst.name, callee, bindings, inst.loc⟩) hc hp hv
    (linear_of_bindParameters hbind)).2 h
  rw [resolve, hget]
  refine bind_eq_ok.2 ⟨_, hbind, bind_eq_ok.2 ⟨_, mapM_eq_none hclauses,
    bind_eq_ok.2 ⟨_, mapM_eq_none hwidths, ?_⟩⟩⟩
  simp

theorem resolve_cases (hc : c.Registered) (ht : table.Built)
    (hget : table.get? inst.component = some callee)
    (hbind : c.bindParameters callee inst = .ok (bindings, [])) :
    (c.signature.Suits callee bindings ∧
        c.resolve table inst = .ok (some ⟨inst.name, callee, bindings, inst.loc⟩, [])) ∨
      ¬ c.signature.Suits callee bindings ∧
        ∃ found, found ≠ [] ∧ c.resolve table inst = .ok (none, found) := by
  by_cases hsuits : c.signature.Suits callee bindings
  · exact .inl ⟨hsuits, resolve_of_suits hc ht hget hbind hsuits⟩
  · right
    refine ⟨hsuits, ?_⟩
    obtain ⟨⟨i, found⟩, hresolve⟩ := succeeds_resolve_of_get? ht hget ⟨_, hbind⟩
    cases i with
    | none => exact ⟨found, resolve_eq_none hresolve, hresolve⟩
    | some i =>
      -- an instance that is made has the same callee and bindings, and it passed the checks
      obtain ⟨-, -, hget', hbind', hchecks⟩ := resolve_eq_some hresolve
      obtain rfl : callee = i.signature := by simpa [hget] using hget'
      obtain rfl : bindings = i.bindings := by simpa [hbind] using hbind'
      obtain ⟨-, hp, hv⟩ := ht.registered hget
      exact absurd ((checks_iff_suits hc hp hv (linear_of_bindParameters hbind)).1 hchecks) hsuits

end Resolve

section Schedule

theorem checkTimes_eq_nil_iff (hi : inv.Plain) {s : Signature} :
    c.checkTimes inv s = [] ↔
      inv.times.length = s.events.length ∧ ∀ t ∈ inv.times, t.event ∈ c.signature.eventNames := by
  refine ⟨checkTimes_eq_nil hi, fun ⟨harity, hdeclared⟩ => ?_⟩
  rw [checkTimes, if_neg (not_not.2 harity), List.map_eq_nil_iff, List.filter_eq_nil_iff]
  intro t ht
  obtain ⟨e, he⟩ := exists_event? (hi t ht) (hdeclared t ht)
  simp [he]

theorem checkEventClause_iff (hc : c.Registered) (hf : i.Fits c.signature) {clause : Clause}
    (hmem : clause ∈ i.signature.eventClauses) :
    c.checkClause clause i times loc = .ok none ↔
      ∀ v : Valuation, c.signature.Admits v.symbol → clause.Holds (v.bound i.bindings times).symbol := by
  have hmem := (List.mem_filter.1 hmem).1
  exact checkClause_eq_none_iff hc hf.linear ⟨(hf.plain.clause _ hmem).1, (hf.valid.clause _ hmem).1.linear⟩
    ⟨(hf.plain.clause _ hmem).2, (hf.valid.clause _ hmem).2.linear⟩

theorem accepts_of_schedule (hc : c.Registered) (hi : inv.Plain) {f : Firing} {found : List Diagnostic}
    (hf : f.inst.Fits c.signature) (h : c.schedule instances inv = .ok (some f, found)) :
    f.inst.Accepts c.signature inv.times := by
  obtain ⟨-, -, -, htimes, hcheck, hclauses, -⟩ := schedule_eq_some h
  obtain ⟨harity, hdeclared⟩ := (checkTimes_eq_nil_iff hi).1 hcheck
  refine ⟨harity, hdeclared, fun v hv clause hmem => ?_⟩
  rw [← htimes]
  exact (checkEventClause_iff hc hf hmem).1 (hclauses clause hmem) v hv

theorem schedule_of_accepts (hc : c.Registered) (hfits : ∀ i ∈ instances, i.Fits c.signature)
    (hi : inv.Plain) (hfind : instances.find? (·.name == inv.target) = some i)
    (h : i.Accepts c.signature inv.times) : ∃ f, c.schedule instances inv = .ok (some f, []) := by
  obtain ⟨⟨f, found⟩, hschedule⟩ := succeeds_schedule hc hfits hi
  cases f with
  | some f =>
    obtain ⟨rfl, -⟩ := schedule_eq_some hschedule
    exact ⟨f, hschedule⟩
  | none =>
    -- nothing is found before the ports, and they are bound without a further check
    have htimes : c.checkTimes inv i.signature = [] := (checkTimes_eq_nil_iff hi).2 ⟨h.arity, h.declared⟩
    have hclauses : ∀ clause ∈ i.signature.eventClauses,
        c.checkClause clause i (i.signature.eventNames.zip inv.times) inv.loc = .ok none :=
      fun clause hmem => (checkEventClause_iff hc (hfits i (List.mem_of_find?_eq_some hfind)) hmem).2
        fun v hv => h.clauses v hv clause hmem
    rw [schedule, hfind] at hschedule
    simp only [htimes, mapM_eq_none hclauses] at hschedule
    rw [if_neg (by simp)] at hschedule
    obtain ⟨checked, hchecked, hschedule⟩ := bind_eq_ok.1 hschedule
    cases hchecked
    have hnone : (i.signature.eventClauses.map fun _ => (none : Option Diagnostic)).filterMap id = [] := by
      simp
    rw [hnone] at hschedule
    obtain ⟨ports, -, hports⟩ := bind_eq_ok.1 hschedule
    cases hports

theorem schedule_cases (hc : c.Registered) (hfits : ∀ i ∈ instances, i.Fits c.signature)
    (hi : inv.Plain) (hfind : instances.find? (·.name == inv.target) = some i) :
    (i.Accepts c.signature inv.times ∧ ∃ f, c.schedule instances inv = .ok (some f, [])) ∨
      ¬ i.Accepts c.signature inv.times ∧
        ∃ found, found ≠ [] ∧ c.schedule instances inv = .ok (none, found) := by
  obtain ⟨⟨f, found⟩, hschedule⟩ := succeeds_schedule hc hfits hi
  cases f with
  | some f =>
    obtain ⟨rfl, hfind', -⟩ := schedule_eq_some hschedule
    obtain rfl : i = f.inst := by simpa [hfind] using hfind'
    have hf := hfits f.inst (List.mem_of_find?_eq_some hfind)
    exact .inl ⟨accepts_of_schedule hc hi hf hschedule, f, hschedule⟩
  | none =>
    refine .inr ⟨fun h => ?_, found, schedule_eq_none hschedule, hschedule⟩
    obtain ⟨f, hf⟩ := schedule_of_accepts hc hfits hi hfind h
    rw [hschedule] at hf
    cases hf

end Schedule

section Log

variable {log schedule : Schedule} {invocations : List Invocation}

/-- The triggerings so far with that of one more invocation, if it makes one, and what was found. -/
def invoke (c : Caller) (instances : List Instance) (log : Schedule) (inv : Invocation) :
    Except Fault (Schedule × List Diagnostic) := do
  let fired ← c.schedule instances inv
  return (log ++ fired.1.toList, fired.2)

def invokeAll (c : Caller) (instances : List Instance) (log : Schedule) :
    List Invocation → Except Fault Schedule
  | [] => return log
  | inv :: rest => do
    let after ← c.invoke instances log inv
    c.invokeAll instances after.1 rest

/-- The triggerings that the check of a body goes on with are those after all its invocations. -/
theorem invokeAll_of_mapM {fired : List (String × Option Firing × List Diagnostic)}
    (h : (invocations.mapM fun inv => return (inv.name, ← c.schedule instances inv)) = .ok fired) :
    c.invokeAll instances log invocations = .ok (log ++ fired.filterMap (·.2.1)) := by
  have hsteps := mapM_eq_ok.1 h
  clear h
  induction hsteps generalizing log with
  | nil => simp [invokeAll]
  | @cons inv r invocations fired hstep _ ih =>
    simp only [bind_eq_ok, pure_eq_ok] at hstep
    obtain ⟨⟨f, found⟩, hf, rfl⟩ := hstep
    rw [invokeAll]
    refine bind_eq_ok.2 ⟨_, bind_eq_ok.2 ⟨_, hf, rfl⟩, ?_⟩
    rw [ih]
    cases f <;> simp

theorem succeeds_invokeAll (hc : c.Registered) (hfits : ∀ i ∈ instances, i.Fits c.signature)
    (hi : ∀ inv ∈ invocations, inv.Plain) (log : Schedule) :
    Succeeds (c.invokeAll instances log invocations) := by
  induction invocations generalizing log with
  | nil => exact succeeds_pure log
  | cons inv rest ih =>
    rw [List.forall_mem_cons] at hi
    have hinvoke : Succeeds (c.invoke instances log inv) :=
      (succeeds_schedule hc hfits hi.1).bind fun _ _ => succeeds_pure _
    exact hinvoke.bind fun after _ => ih hi.2 after.1

theorem mem_of_invokeAll (h : c.invokeAll instances log invocations = .ok schedule) :
    ∀ f ∈ schedule, f ∈ log ∨ ∃ inv ∈ invocations, c.schedule instances inv = .ok (some f, []) := by
  induction invocations generalizing log with
  | nil =>
    obtain rfl : log = schedule := pure_eq_ok.1 h
    exact fun f hf => .inl hf
  | cons inv rest ih =>
    obtain ⟨after, hinvoke, hrest⟩ := bind_eq_ok.1 h
    obtain ⟨⟨made, found⟩, hmade, hafter⟩ := bind_eq_ok.1 hinvoke
    obtain rfl := pure_eq_ok.1 hafter
    intro f hf
    rcases ih hrest f hf with hf | ⟨inv', hinv', hf⟩
    · rcases List.mem_append.1 hf with hf | hf
      · exact .inl hf
      · obtain rfl : made = some f := by simpa using hf
        obtain ⟨rfl, -⟩ := schedule_eq_some hmade
        exact .inr ⟨inv, List.mem_cons_self, hmade⟩
    · exact .inr ⟨inv', List.mem_cons_of_mem _ hinv', hf⟩

/-- An invocation makes one more triggering, or there is a reason why it does not. -/
theorem invoke_cases (hc : c.Registered) (hfits : ∀ i ∈ instances, i.Fits c.signature) (hi : inv.Plain)
    (log : Schedule) :
    (∃ f, c.schedule instances inv = .ok (some f, []) ∧ c.invoke instances log inv = .ok (log ++ [f], [])) ∨
      ∃ found, found ≠ [] ∧ c.schedule instances inv = .ok (none, found) ∧
        c.invoke instances log inv = .ok (log, found) := by
  obtain ⟨⟨f, found⟩, hschedule⟩ := succeeds_schedule hc hfits hi
  have hinvoke : c.invoke instances log inv = .ok (log ++ f.toList, found) :=
    bind_eq_ok.2 ⟨_, hschedule, rfl⟩
  cases f with
  | some f =>
    obtain ⟨rfl, -⟩ := schedule_eq_some hschedule
    exact .inl ⟨f, hschedule, hinvoke⟩
  | none =>
    rw [Option.toList_none, List.append_nil] at hinvoke
    exact .inr ⟨found, schedule_eq_none hschedule, hschedule, hinvoke⟩

end Log

end Caller

/-- In a registered caller, an instantiation whose parameters are bound makes an instance exactly when the
callee suits the caller, and an invocation of an instance makes a triggering exactly when the instance
accepts its times. Where nothing is made there is a reason, and the triggerings stay as they are. -/
theorem exact_call_sites {t : Table} (ht : t.Built) {name : String} {s : Signature}
    (hs : t.get? name = some s) : ∃ c, Caller.of t s = .ok c ∧
      (∀ (inst : Instantiation) (callee : Signature) (bindings : List (String × Expr)),
        t.get? inst.component = some callee → c.bindParameters callee inst = .ok (bindings, []) →
          (∀ p ∈ callee.paramNames, ∃ e, bindings.lookup p = some e) ∧
          (c.resolve t inst = .ok (some ⟨inst.name, callee, bindings, inst.loc⟩, []) ↔
            s.Suits callee bindings) ∧
          (¬ s.Suits callee bindings → ∃ found, found ≠ [] ∧ c.resolve t inst = .ok (none, found))) ∧
      ∀ instances : List Instance, (∀ i ∈ instances, ∃ inst, c.resolve t inst = .ok (some i, [])) →
        ∀ inv : Invocation, inv.Plain →
          (∀ i, instances.find? (·.name == inv.target) = some i →
            ((∃ f, c.schedule instances inv = .ok (some f, [])) ↔ i.Accepts s inv.times) ∧
            ∀ f, c.schedule instances inv = .ok (some f, []) →
              f.name = inv.name ∧ f.inst = i ∧ f.times = i.signature.eventNames.zip inv.times) ∧
          ∀ log : Schedule,
            (∃ f, c.schedule instances inv = .ok (some f, []) ∧
              c.invoke instances log inv = .ok (log ++ [f], [])) ∨
            ∃ found, found ≠ [] ∧ c.schedule instances inv = .ok (none, found) ∧
              c.invoke instances log inv = .ok (log, found) := by
  obtain ⟨c, hcaller, rfl, hc⟩ := Caller.of_registered ht hs
  refine ⟨c, hcaller, fun inst callee bindings hget hbind => ⟨fun p hp => ?_, ?_⟩, ?_⟩
  · exact Association.exists_lookup (Caller.total_of_bindParameters hbind p hp)
  · rcases Caller.resolve_cases hc ht hget hbind with ⟨hsuits, hresolve⟩ | ⟨hsuits, found, hne, hresolve⟩
    · exact ⟨iff_of_true hresolve hsuits, fun h => absurd hsuits h⟩
    · refine ⟨iff_of_false (fun h => ?_) hsuits, fun _ => ⟨found, hne, hresolve⟩⟩
      rw [hresolve] at h
      cases h
  · intro instances hresolved inv hinv
    have hfits : ∀ i ∈ instances, i.Fits c.signature := by
      intro i hi
      obtain ⟨inst, hinst⟩ := hresolved i hi
      exact Caller.fits_of_resolve hc ht hinst
    refine ⟨fun i hfind => ⟨?_, fun f hf => ?_⟩, fun log => Caller.invoke_cases hc hfits hinv log⟩
    · rcases Caller.schedule_cases hc hfits hinv hfind with ⟨haccepts, hf⟩ | ⟨haccepts, found, -, hnone⟩
      · exact iff_of_true hf haccepts
      · refine iff_of_false ?_ haccepts
        rintro ⟨f, hf⟩
        rw [hnone] at hf
        cases hf
    · obtain ⟨-, hfind', hname, htimes, -⟩ := Caller.schedule_eq_some hf
      obtain rfl : i = f.inst := by simpa [hfind] using hfind'
      exact ⟨hname, rfl, htimes⟩

namespace Gate

/-- A component that wants a parameter of at least two and its second event after its first one. -/
def callee : Signature where
  name := "Gate"
  params := [{ name := "W", default := none }]
  primary := { name := "G", delay := .const 1 }
  secondary := [{ name := "L", delay := .const 1 }]
  ports := [{ Hold.input "x" 0 with width := .sub (.param "W") (.const 1) }]
  clauses := [Primitives.clause (.param "W") .ge (.const 2), Primitives.clause (.event "L") .gt (.event "G")]

def caller : Signature :=
  Primitives.element "Main" "" ["N"] 4 [] [Primitives.clause (.param "N") .ge (.const 2)]

def table : Table := (Table.empty.registerAll [callee, caller]).1

theorem built : table.Built := (Table.sound_empty.registerAll (by decide +kernel)).built

theorem registered : table.get? "Main" = some caller ∧ table.get? "Gate" = some callee := by
  decide +kernel

def inst (arg : Expr) : Instantiation := { name := "g", component := "Gate", args := [arg], named := [] }

def inv (first second : Int) : Invocation :=
  { name := "i", target := "g", times := [⟨"G", first⟩, ⟨"G", second⟩], inputs := none }

theorem bind_arg (facts : Facts) {arg : Expr}
    (h : ((Caller.bindParameters ⟨caller, []⟩ callee (inst arg)).toOption.map
      fun r => (r.1, r.2.isEmpty)) = some ([("W", arg)], true)) :
    Caller.bindParameters ⟨caller, facts⟩ callee (inst arg) = .ok ([("W", arg)], []) := by
  have hsame : Caller.bindParameters ⟨caller, facts⟩ callee (inst arg) =
      Caller.bindParameters ⟨caller, []⟩ callee (inst arg) := rfl
  obtain ⟨⟨bindings, found⟩, hbind, hr⟩ := Option.map_eq_some_iff.1 h
  simp only [Prod.mk.injEq, List.isEmpty_iff] at hr
  obtain ⟨rfl, rfl⟩ := hr
  rw [hsame, toOption_eq_some.1 hbind]

theorem admits_iff {v : Valuation} : caller.Admits v.symbol ↔ 2 ≤ v.param "N" := by
  have hN : v.symbol "N" = v.param "N" := v.symbol_param (by decide)
  simp [Signature.Admits, caller, Primitives.element, Primitives.clause, Clause.Holds, Relation.Holds,
    Expr.eval, hN]

theorem suits_iff {arg : Expr} : caller.Suits callee [("W", arg)] ↔
    ∀ v : Valuation, 2 ≤ v.param "N" → 2 ≤ arg.eval v.symbol := by
  have hW : ∀ v : Valuation, (v.bound [("W", arg)] []).symbol "W" = arg.eval v.symbol := by
    intro v
    rw [Valuation.symbol_param _ (by decide)]
    rfl
  have hclauses : callee.paramClauses = [Primitives.clause (.param "W") .ge (.const 2)] := by decide
  have hports : callee.ports = [{ Hold.input "x" 0 with width := .sub (.param "W") (.const 1) }] := rfl
  simp only [Signature.Suits, admits_iff, hclauses, hports, List.forall_mem_singleton, Primitives.clause,
    Clause.Holds, Relation.Holds, Expr.eval, hW]
  exact forall_congr' fun v => imp_congr_right fun _ => by omega

theorem accepts_iff {bindings : List (String × Expr)} {loc : Option Loc} {first second : Int} :
    (Instance.mk "g" callee bindings loc).Accepts caller (inv first second).times ↔ first < second := by
  have hG : ∀ v : Valuation, (v.bound bindings [("G", ⟨"G", first⟩), ("L", ⟨"G", second⟩)]).event "G" =
      v.event "G" + first := fun v => Valuation.event_bound (t := ⟨"G", first⟩) rfl
  have hL : ∀ v : Valuation, (v.bound bindings [("G", ⟨"G", first⟩), ("L", ⟨"G", second⟩)]).event "L" =
      v.event "G" + second := fun v => Valuation.event_bound (t := ⟨"G", second⟩) rfl
  have hclauses : callee.eventClauses = [Primitives.clause (.event "L") .gt (.event "G")] := by decide
  have hholds : ∀ v : Valuation, (∀ clause ∈ callee.eventClauses, clause.Holds
      (v.bound bindings (callee.eventNames.zip (inv first second).times)).symbol) ↔ first < second := by
    intro v
    have hzip : callee.eventNames.zip (inv first second).times =
        [("G", ⟨"G", first⟩), ("L", ⟨"G", second⟩)] := rfl
    simp only [hclauses, List.forall_mem_singleton, Primitives.clause, Clause.Holds, Relation.Holds,
      Expr.eval, Valuation.symbol_ofEvent, hzip, hG, hL]
    omega
  constructor
  · intro h
    have hv : caller.Admits (Valuation.symbol ⟨fun _ => 2, fun _ => 0⟩) := admits_iff.2 (le_refl 2)
    exact (hholds _).1 (h.clauses _ hv)
  · intro hlt
    refine ⟨rfl, ?_, fun v _ => (hholds v).2 hlt⟩
    simp [inv, caller, Primitives.element, Signature.eventNames, Signature.events]

end Gate

/-- In the sample the argument `N` suits the caller and `N - 1` does not, and the second event has to come
after the first one. -/
theorem exact_call_sites_gate : ∃ c i, Caller.of Gate.table Gate.caller = .ok c ∧
    c.resolve Gate.table (Gate.inst (.param "N")) = .ok (some i, []) ∧
    (∃ found, found ≠ [] ∧
      c.resolve Gate.table (Gate.inst (.sub (.param "N") (.const 1))) = .ok (none, found)) ∧
    (∃ f, c.schedule [i] (Gate.inv 0 1) = .ok (some f, [])) ∧
    ∃ found, found ≠ [] ∧ c.schedule [i] (Gate.inv 1 1) = .ok (none, found) ∧
      c.invoke [i] [] (Gate.inv 1 1) = .ok ([], found) := by
  obtain ⟨c, hcaller, hresolve, hschedule⟩ := exact_call_sites Gate.built Gate.registered.1
  obtain ⟨facts, rfl⟩ : ∃ facts, c = ⟨Gate.caller, facts⟩ := by
    obtain ⟨d, hd, hsignature, -⟩ := Caller.of_registered Gate.built Gate.registered.1
    obtain rfl : c = d := by simpa [hcaller] using hd
    exact ⟨c.facts, by rw [← hsignature]⟩
  obtain ⟨-, hiff, -⟩ := hresolve (Gate.inst (.param "N")) _ _ Gate.registered.2
    (Gate.bind_arg facts (by decide +kernel))
  obtain ⟨-, -, hnone⟩ := hresolve (Gate.inst (.sub (.param "N") (.const 1))) _ _ Gate.registered.2
    (Gate.bind_arg facts (by decide +kernel))
  have hmade := hiff.2 (Gate.suits_iff.2 fun v hv => by
    rwa [Expr.eval, v.symbol_param (by decide)])
  have hunsuited : ¬ Gate.caller.Suits Gate.callee [("W", .sub (.param "N") (.const 1))] := by
    intro h
    exact absurd (Gate.suits_iff.1 h ⟨fun _ => 2, fun _ => 0⟩ (le_refl 2)) (by decide)
  have hplain : ∀ first second, (Gate.inv first second).Plain := by
    have hname : Token.isName "G" = true := by decide
    intro first second t ht
    rcases List.mem_pair.1 ht with rfl | rfl <;> exact hname
  have hinstances := hschedule [⟨"g", Gate.callee, [("W", .param "N")], none⟩]
    (List.forall_mem_singleton.2 ⟨_, hmade⟩)
  obtain ⟨haccepted, -⟩ := hinstances (Gate.inv 0 1) (hplain 0 1)
  obtain ⟨hrefused, hcases⟩ := hinstances (Gate.inv 1 1) (hplain 1 1)
  refine ⟨_, _, hcaller, hmade, hnone hunsuited, ?_, ?_⟩
  · exact (haccepted _ rfl).1.2 (Gate.accepts_iff.2 Int.zero_lt_one)
  · rcases hcases [] with ⟨f, hf, -⟩ | hfound
    · exact absurd (Gate.accepts_iff.1 ((hrefused _ rfl).1.1 ⟨f, hf⟩)) (lt_irrefl 1)
    · exact hfound

end Chronogram
