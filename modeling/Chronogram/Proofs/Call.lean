import Chronogram.Check.Component
import Chronogram.Proofs.Schedule

/-! Calls: one invocation in a body together with what it refers to. A call induces a valuation on its
callee: parameters get the values of their bindings, events the cycles of the times bound to them. In
a body that passes its check every invocation is a call, and the induced valuation is admitted by
the callee whenever the caller admits the one it comes from. -/

namespace Chronogram

open Fallible

/-- The names in all arguments and times are identifiers, as in every body that is read. -/
structure Body.Plain (b : Body) : Prop where
  instances : ∀ i ∈ b.instances, i.Plain
  invocations : ∀ i ∈ b.invocations, i.Plain

structure Component.Plain (c : Component) : Prop where
  signature : c.signature.Plain
  body : ∀ b, c.body = some b → b.Plain

/-- An invocation in the body `b` of a component with signature `s`, the instance that it triggers,
the signature of the callee and the values of the callee's parameters. -/
structure Call (table : Table) (s : Signature) (b : Body) where
  inv : Invocation
  inst : Instantiation
  callee : Signature
  bindings : List (String × Expr)
  inv_mem : inv ∈ b.invocations
  inst_mem : inst ∈ b.instances
  target : inst.name = inv.target
  registered : table.get? inst.component = some callee
  bound : ∃ facts, Caller.bindParameters ⟨s, facts⟩ callee inst = .ok (bindings, [])

namespace Call

variable {table : Table} {s : Signature} {b : Body}

def times (k : Call table s b) : List (String × Time) := k.callee.eventNames.zip k.inv.times

def induced (k : Call table s b) (v : Valuation) : Valuation := v.bound k.bindings k.times

/-- What an instance is bound to does not depend on the facts of the caller. -/
theorem bindings_eq {callee : Signature} {inst : Instantiation} {facts facts' : Facts}
    {bindings bindings' : List (String × Expr)}
    (h : Caller.bindParameters ⟨s, facts⟩ callee inst = .ok (bindings, []))
    (h' : Caller.bindParameters ⟨s, facts'⟩ callee inst = .ok (bindings', [])) :
    bindings = bindings' := by
  have hsame : Caller.bindParameters ⟨s, facts⟩ callee inst =
      Caller.bindParameters ⟨s, facts'⟩ callee inst := rfl
  rw [hsame, h'] at h
  simpa using h.symm

theorem binds (k : Call table s b) (ht : table.Built) (hb : b.Plain) : Binds s k.callee k.bindings := by
  obtain ⟨-, hp, hv⟩ := ht.registered k.registered
  obtain ⟨facts, hbound⟩ := k.bound
  exact Caller.binds_of_bindParameters hp hv (hb.instances k.inst k.inst_mem) hbound

theorem ext_statements {k l : Call table s b} (hinv : k.inv = l.inv) (hinst : k.inst = l.inst) :
    k = l := by
  obtain ⟨inv, inst, callee, bindings, _, _, _, hreg, facts, hbound⟩ := k
  obtain ⟨inv', inst', callee', bindings', _, _, _, hreg', facts', hbound'⟩ := l
  obtain rfl : inv = inv' := hinv
  obtain rfl : inst = inst' := hinst
  obtain rfl : callee = callee' := by simpa [hreg] using hreg'
  obtain rfl := bindings_eq hbound hbound'
  rfl

end Call

namespace Caller

variable {c : Caller} {table : Table} {instances : List Instance}

theorem resolved_of_mapM {insts : List Instantiation}
    {resolved : List (Option Instance × List Diagnostic)}
    (h : insts.mapM (c.resolve table) = .ok resolved) (hfound : ∀ r ∈ resolved, r.2 = []) :
    List.Forall₂ (fun inst i => c.resolve table inst = .ok (some i, [])) insts
      (resolved.filterMap (·.1)) := by
  refine forall₂_filterMap (forall₂_mem (mapM_eq_ok.1 h)) ?_
  rintro inst ⟨i, found⟩ ⟨-, hmem, hr⟩
  obtain rfl : found = [] := hfound _ hmem
  cases i with
  | none => exact absurd rfl (resolve_eq_none hr)
  | some i => exact ⟨i, rfl, hr⟩

theorem nodup_of_mapM_resolve {insts : List Instantiation}
    {resolved : List (Option Instance × List Diagnostic)}
    (h : insts.mapM (c.resolve table) = .ok resolved) (hn : (insts.map (·.name)).Nodup) :
    ((resolved.filterMap (·.1)).map (·.name)).Nodup := by
  refine hn.sublist (sublist_of_forall₂ (mapM_eq_ok.1 h) ?_)
  rintro inst ⟨_, found⟩ i hr rfl
  exact (resolve_eq_some hr).2.1

theorem nodup_of_mapM_schedule {invocations : List Invocation}
    {fired : List (String × Option Firing × List Diagnostic)}
    (h : (invocations.mapM fun inv => return (inv.name, ← c.schedule instances inv)) = .ok fired)
    (hn : (invocations.map (·.name)).Nodup) : ((fired.filterMap (·.2.1)).map (·.name)).Nodup := by
  refine hn.sublist (sublist_of_forall₂ (mapM_eq_ok.1 h) ?_)
  rintro inv ⟨_, _, found⟩ f hr rfl
  simp only [bind_eq_ok, pure_eq_ok, Prod.mk.injEq] at hr
  obtain ⟨_, hr, -, rfl, rfl⟩ := hr
  exact (schedule_eq_some hr).2.2.1

theorem fits_of_resolved (hc : c.Registered) (ht : table.Built) {insts : List Instantiation}
    (h : List.Forall₂ (fun inst i => c.resolve table inst = .ok (some i, [])) insts instances) :
    ∀ i ∈ instances, i.Fits c.signature := by
  intro i hmem
  obtain ⟨inst, -, hr⟩ := exists_left_of_forall₂ h hmem
  exact fits_of_resolve hc ht hr

theorem scheduled_of_mapM {invocations : List Invocation}
    {fired : List (String × Option Firing × List Diagnostic)}
    (h : (invocations.mapM fun inv => return (inv.name, ← c.schedule instances inv)) = .ok fired)
    (hfound : ∀ r ∈ fired, r.2.2 = []) :
    List.Forall₂ (fun inv f => c.schedule instances inv = .ok (some f, [])) invocations
      (fired.filterMap (·.2.1)) ∧ fired.filter (·.2.1.isNone) = [] := by
  have hstep : List.Forall₂ (fun inv r => ∃ f, r.2.1 = some f ∧
      c.schedule instances inv = .ok (some f, [])) invocations fired := by
    refine (forall₂_mem (mapM_eq_ok.1 h)).imp ?_
    rintro inv r ⟨-, hmem, hr⟩
    simp only [bind_eq_ok, pure_eq_ok] at hr
    obtain ⟨⟨f, found⟩, hf, rfl⟩ := hr
    obtain rfl : found = [] := hfound _ hmem
    cases f with
    | none => exact absurd rfl (schedule_eq_none hf)
    | some f => exact ⟨f, rfl, hf⟩
  refine ⟨forall₂_filterMap hstep fun _ _ h => h, ?_⟩
  rw [List.filter_eq_nil_iff]
  intro r hr
  obtain ⟨inv, -, f, hf, -⟩ := exists_left_of_forall₂ hstep hr
  simp [hf]

end Caller

namespace Body

variable {b : Body} {table : Table} {c : Caller} {instances : List Instance} {schedule : Schedule}

theorem nodup_of_checkNames {component : String} (h : b.checkNames component = []) :
    (b.labels.map (·.1)).Nodup := by
  have go : ∀ labels seen, checkNames.go b component seen labels = [] →
      ∀ l ∈ labels, l.1 ∉ seen → b.labels.countP (·.1 == l.1) ≤ 1 := by
    intro labels
    induction labels with
    | nil => simp
    | cons first labels ih =>
      intro seen hgo l hl hseen
      simp only [checkNames.go] at hgo
      split at hgo
      · simp at hgo
      next hfirst =>
        simp only [Bool.and_eq_true, decide_eq_true_eq, not_and, not_not] at hfirst
        by_cases hname : l.1 = first.1
        · rw [hname] at hseen ⊢
          exact not_lt.1 fun hlt => hseen (hfirst hlt)
        · rcases List.mem_cons.1 hl with rfl | hl
          · exact absurd rfl hname
          · exact ih _ hgo l hl (by simp [hname, hseen])
  rw [List.nodup_iff_count_le_one]
  intro name
  by_cases hname : name ∈ b.labels.map (·.1)
  · obtain ⟨l, hl, rfl⟩ := List.mem_map.1 hname
    rw [List.count, List.countP_map]
    exact go _ _ h l hl (by simp)
  · rw [List.count_eq_zero_of_not_mem hname]
    exact Nat.zero_le 1

/-- What a check of the body went through without a complaint. -/
structure Passes (b : Body) (table : Table) (c : Caller) (instances : List Instance)
    (schedule : Schedule) : Prop where
  labels : (b.labels.map (·.1)).Nodup
  resolved : List.Forall₂ (fun inst i => c.resolve table inst = .ok (some i, [])) b.instances instances
  scheduled : List.Forall₂ (fun inv f => c.schedule instances inv = .ok (some f, [])) b.invocations
    schedule
  wired : (Bench.check ⟨c, schedule, []⟩ {} b).2 = .ok []
  spaced : c.checkDelays schedule = .ok []

theorem Passes.fits (h : b.Passes table c instances schedule) (hc : c.Registered) (ht : table.Built) :
    ∀ i ∈ instances, i.Fits c.signature :=
  Caller.fits_of_resolved hc ht h.resolved

theorem nodup_instances (hn : (b.labels.map (·.1)).Nodup) : (b.instances.map (·.name)).Nodup := by
  rw [labels, List.map_append, List.map_map] at hn
  exact (List.nodup_append.1 hn).1

theorem inst_eq_of_name (hn : (b.labels.map (·.1)).Nodup) {i j : Instantiation} (hi : i ∈ b.instances)
    (hj : j ∈ b.instances) (h : i.name = j.name) : i = j :=
  List.inj_on_of_nodup_map (nodup_instances hn) hi hj h

theorem nodup_invocations (hn : (b.labels.map (·.1)).Nodup) : (b.invocations.map (·.name)).Nodup := by
  rw [labels, List.map_append, List.map_map, List.map_map] at hn
  exact (List.nodup_append.1 hn).2.1

theorem inv_eq_of_name (hn : (b.labels.map (·.1)).Nodup) {i j : Invocation} (hi : i ∈ b.invocations)
    (hj : j ∈ b.invocations) (h : i.name = j.name) : i = j :=
  List.inj_on_of_nodup_map (nodup_invocations hn) hi hj h

theorem Passes.exists_call_of_schedule (h : b.Passes table c instances schedule) {inv : Invocation}
    (hinv : inv ∈ b.invocations) {f : Firing} (hf : c.schedule instances inv = .ok (some f, [])) :
    ∃ k : Call table c.signature b, k.inv = inv ∧ f.inst.signature = k.callee ∧
      f.inst.bindings = k.bindings ∧ f.times = k.times := by
  obtain ⟨-, hfind, -, htimes, -⟩ := Caller.schedule_eq_some hf
  obtain ⟨inst, hinst, hres⟩ := exists_left_of_forall₂ h.resolved (List.mem_of_find?_eq_some hfind)
  obtain ⟨-, hname, hget, hbound, -⟩ := Caller.resolve_eq_some hres
  have htarget : inst.name = inv.target := by
    rw [← hname]
    simpa using List.find?_some hfind
  exact ⟨⟨inv, inst, _, _, hinv, hinst, htarget, hget, c.facts, hbound⟩, rfl, rfl, rfl, htimes⟩

theorem Passes.exists_call_of_firing (h : b.Passes table c instances schedule) (hc : c.Registered)
    (ht : table.Built) (hb : b.Plain) {f : Firing} (hf : f ∈ schedule) :
    ∃ k : Call table c.signature b, f.Serves c.signature k.inv ∧ f.inst.signature = k.callee ∧
      f.inst.bindings = k.bindings ∧ f.times = k.times := by
  obtain ⟨inv, hinv, hsched⟩ := exists_left_of_forall₂ h.scheduled hf
  obtain ⟨k, rfl, hcall⟩ := h.exists_call_of_schedule hinv hsched
  exact ⟨k, Caller.serves_of_schedule hc (h.fits hc ht) (hb.invocations _ hinv) hsched, hcall⟩

theorem Passes.exists_call (h : b.Passes table c instances schedule) {inv : Invocation}
    (hinv : inv ∈ b.invocations) : ∃ k : Call table c.signature b, k.inv = inv := by
  obtain ⟨f, -, hf⟩ := exists_right_of_forall₂ h.scheduled hinv
  obtain ⟨k, hk, -⟩ := h.exists_call_of_schedule hinv hf
  exact ⟨k, hk⟩

theorem Passes.call_eq (h : b.Passes table c instances schedule) {k l : Call table c.signature b}
    (hinv : k.inv = l.inv) : k = l := by
  refine Call.ext_statements hinv (inst_eq_of_name h.labels k.inst_mem l.inst_mem ?_)
  rw [k.target, l.target, hinv]

theorem Passes.call_eq_of_serves (h : b.Passes table c instances schedule) {f : Firing}
    {k l : Call table c.signature b} (hk : f.Serves c.signature k.inv)
    (hl : f.Serves c.signature l.inv) : k = l := by
  have hname : k.inv.name = l.inv.name := hk.name.symm.trans hl.name
  exact h.call_eq (inv_eq_of_name h.labels k.inv_mem l.inv_mem hname)

theorem Passes.exists_firing (h : b.Passes table c instances schedule) (hc : c.Registered)
    (ht : table.Built) (hb : b.Plain) (k : Call table c.signature b) :
    ∃ f ∈ schedule, f.Serves c.signature k.inv ∧ f.inst.signature = k.callee ∧
      f.inst.bindings = k.bindings ∧ f.times = k.times := by
  obtain ⟨f, hf, hsched⟩ := exists_right_of_forall₂ h.scheduled k.inv_mem
  have hserves := Caller.serves_of_schedule hc (h.fits hc ht) (hb.invocations _ k.inv_mem) hsched
  obtain ⟨l, hl, hcall⟩ := h.exists_call_of_schedule k.inv_mem hsched
  obtain rfl := h.call_eq hl
  exact ⟨f, hf, hserves, hcall⟩

theorem Passes.admits (h : b.Passes table c instances schedule) (hc : c.Registered) (ht : table.Built)
    (hb : b.Plain) (k : Call table c.signature b) {v : Valuation} (hv : c.signature.Admits v.symbol) :
    k.callee.Admits (k.induced v).symbol := by
  obtain ⟨f, -, hserves, hcallee, hbindings, htimes⟩ := h.exists_firing hc ht hb k
  have := hserves.admits v hv
  rwa [hcallee, hbindings, htimes] at this

end Body

namespace Component

variable {c : Component} {b : Body} {table : Table}

/-- The check with lists in place of dictionaries. -/
def checkInOrder (c : Component) (table : Table) : Except Fault Outcome := do
  let body := c.body.getD .empty
  let caller ← Caller.of table ((table.get? c.name).getD c.signature)
  let resolved ← body.instances.mapM (caller.resolve table)
  let found := body.checkNames c.name ++ resolved.flatMap (·.2)
  if !found.isEmpty then return .rejected found
  let instances := resolved.filterMap (·.1)
  let fired ← body.invocations.mapM fun inv => return (inv.name, ← caller.schedule instances inv)
  let schedule := fired.filterMap (·.2.1)
  let failed := (fired.filter (·.2.1.isNone)).map (·.1)
  let wired ← (Bench.check ⟨caller, schedule, failed⟩ {} body).2
  let found := fired.flatMap (·.2.2) ++ wired
  if !found.isEmpty then return .rejected found
  match ← caller.checkDelays schedule with
  | [] => return c.accepted schedule
  | found => return .rejected found

/-- Instances and invocations have different names where anything is looked up by name, so the
dictionaries hold them all, in their order. -/
theorem check_eq (c : Component) (table : Table) : c.check table = c.checkInOrder table := by
  refine bind_congr_ok fun caller _ => bind_congr_ok fun resolved hresolved => ?_
  dsimp only
  split
  · rfl
  next hfound =>
    have hlabels : ((c.body.getD .empty).labels.map (·.1)).Nodup := by
      have hfound : (c.body.getD .empty).checkNames c.name = [] ∧ ∀ r ∈ resolved, r.2 = [] := by
        simpa using hfound
      exact Body.nodup_of_checkNames hfound.1
    rw [Dict.values_index (Caller.nodup_of_mapM_resolve hresolved (Body.nodup_instances hlabels))]
    refine bind_congr_ok fun fired hfired => ?_
    have hschedule := Dict.values_index (Caller.nodup_of_mapM_schedule hfired (Body.nodup_invocations hlabels))
    exact hschedule.symm ▸ rfl

/-- A check that ends well went through all its stages without a complaint. -/
theorem stages_of_verified {caller : Caller} {out : Verified}
    (hcaller : Caller.of table ((table.get? c.name).getD c.signature) = .ok caller)
    (h : c.check table = .ok (.verified out)) : ∃ instances schedule,
      (c.body.getD .empty).checkNames c.name = [] ∧
      List.Forall₂ (fun inst i => caller.resolve table inst = .ok (some i, []))
        (c.body.getD .empty).instances instances ∧
      List.Forall₂ (fun inv f => caller.schedule instances inv = .ok (some f, []))
        (c.body.getD .empty).invocations schedule ∧
      (Bench.check ⟨caller, schedule, []⟩ {} (c.body.getD .empty)).2 = .ok [] ∧
      caller.checkDelays schedule = .ok [] ∧ out = ⟨c.name, c.signature.ports, schedule⟩ := by
  rw [check_eq, checkInOrder] at h
  simp only [hcaller, bind_eq_ok, Except.ok.injEq, exists_eq_left'] at h
  obtain ⟨resolved, hresolved, h⟩ := h
  split at h
  · cases h
  next hfound =>
    have hfound : (c.body.getD .empty).checkNames c.name = [] ∧ ∀ r ∈ resolved, r.2 = [] := by
      simpa using hfound
    simp only [bind_eq_ok] at h
    obtain ⟨fired, hfired, wired, hwired, h⟩ := h
    split at h
    · cases h
    next hfound' =>
      have hfound' : (∀ r ∈ fired, r.2.2 = []) ∧ wired = [] := by simpa using hfound'
      obtain ⟨hscheduled, hfailed⟩ := Caller.scheduled_of_mapM hfired hfound'.1
      rw [hfailed, hfound'.2] at hwired
      obtain ⟨delays, hdelays, h⟩ := bind_eq_ok.1 h
      split at h
      · cases h
        exact ⟨_, _, hfound.1, Caller.resolved_of_mapM hresolved hfound.2, hscheduled, hwired, hdelays, rfl⟩
      · cases h

theorem verified_of_stages {caller : Caller} {instances : List Instance} {schedule : Schedule}
    (hcaller : Caller.of table ((table.get? c.name).getD c.signature) = .ok caller)
    (hnames : (c.body.getD .empty).checkNames c.name = [])
    (hresolved : List.Forall₂ (fun inst i => caller.resolve table inst = .ok (some i, []))
      (c.body.getD .empty).instances instances)
    (hscheduled : List.Forall₂ (fun inv f => caller.schedule instances inv = .ok (some f, []))
      (c.body.getD .empty).invocations schedule)
    (hwired : (Bench.check ⟨caller, schedule, []⟩ {} (c.body.getD .empty)).2 = .ok [])
    (hdelays : caller.checkDelays schedule = .ok []) :
    c.check table = .ok (.verified ⟨c.name, c.signature.ports, schedule⟩) := by
  have hresolved : (c.body.getD .empty).instances.mapM (caller.resolve table) =
      .ok (instances.map fun i => (some i, [])) :=
    mapM_eq_ok.2 (List.forall₂_map_right_iff.2 hresolved)
  have hfired : ((c.body.getD .empty).invocations.mapM fun inv =>
      return (inv.name, ← caller.schedule instances inv)) =
      .ok (schedule.map fun f => (f.name, some f, [])) := by
    refine mapM_eq_ok.2 (List.forall₂_map_right_iff.2 (hscheduled.imp fun inv f hf => ?_))
    obtain ⟨-, -, hname, -⟩ := Caller.schedule_eq_some hf
    simp only [bind_eq_ok, pure_eq_ok]
    exact ⟨_, hf, by rw [hname]⟩
  have hinstances : (instances.map fun i => (some i, ([] : List Diagnostic))).filterMap (·.1) =
      instances := by
    simp [List.filterMap_map]
  rw [check_eq, checkInOrder]
  simp only [hcaller, bind_eq_ok, Except.ok.injEq, exists_eq_left']
  refine ⟨_, hresolved, ?_⟩
  rw [if_neg (by simp [hnames]), hinstances]
  refine bind_eq_ok.2 ⟨_, hfired, bind_eq_ok.2 ⟨[], ?_, ?_⟩⟩
  · simpa [List.filterMap_map, List.filter_map, Function.comp_def] using hwired
  · rw [if_neg (by simp)]
    refine bind_eq_ok.2 ⟨[], ?_, ?_⟩
    · simpa [List.filterMap_map] using hdelays
    · simp [List.filterMap_map, accepted]

/-- A registered component that is verified has a body that passes, and its export has the triggerings. -/
theorem passes_of_verified (ht : table.Built) (hreg : table.get? c.name = some c.signature)
    (hb : c.body = some b) {out : Verified} (h : c.check table = .ok (.verified out)) :
    ∃ (facts : Facts) (instances : List Instance) (schedule : Schedule),
      Caller.Registered ⟨c.signature, facts⟩ ∧
      b.Passes table ⟨c.signature, facts⟩ instances schedule ∧
      out = ⟨c.name, c.signature.ports, schedule⟩ := by
  obtain ⟨⟨_, facts⟩, hcaller, rfl, hc⟩ := Caller.of_registered ht hreg
  obtain ⟨instances, schedule, hnames, hresolved, hscheduled, hwired, hdelays, hout⟩ :=
    stages_of_verified (by rwa [hreg]) h
  rw [hb] at hnames hresolved hscheduled hwired
  exact ⟨facts, instances, schedule, hc,
    ⟨Body.nodup_of_checkNames hnames, hresolved, hscheduled, hwired, hdelays⟩, hout⟩

theorem passes_of_check (ht : table.Built) (hreg : table.get? c.name = some c.signature)
    (hb : c.body = some b) {out : Verified} (h : c.check table = .ok (.verified out)) :
    ∃ (facts : Facts) (instances : List Instance) (schedule : Schedule),
      Caller.Registered ⟨c.signature, facts⟩ ∧
      b.Passes table ⟨c.signature, facts⟩ instances schedule := by
  obtain ⟨facts, instances, schedule, hc, hpass, -⟩ := passes_of_verified ht hreg hb h
  exact ⟨facts, instances, schedule, hc, hpass⟩

theorem exists_verified_of_isOk
    (h : (c.check table).toOption.any (fun o => (CheckResult.mk c.name o).isOk) = true) :
    ∃ out, c.check table = .ok (.verified out) := by
  simp only [Option.any_eq_true, toOption_eq_some] at h
  obtain ⟨outcome, houtcome, hok⟩ := h
  cases outcome with
  | rejected _ => cases hok
  | verified out => exact ⟨out, houtcome⟩

end Component

end Chronogram
