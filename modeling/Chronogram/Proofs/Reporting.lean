import Chronogram.Proofs.Batches
import Chronogram.Proofs.Wiring

/-! Every design that can be read gets a report. Once a signature is registered, all that the check
of a body computes from it has a result: its expressions stay linear when bindings and times are put
in, the intervals of its ports keep a cycle, and times are subtracted on one event only. -/

namespace Chronogram

open Fallible

theorem Component.Plain.getD_body {c : Component} (hc : c.Plain) : (c.body.getD .empty).Plain := by
  cases hb : c.body with
  | none => exact ⟨by simp [Body.empty], by simp [Body.empty]⟩
  | some b => exact hc.body b hb

theorem Component.succeeds_check {c : Component} {table : Table} (ht : table.Sound)
    (hreg : table.get? c.name = some c.signature) (hc : c.Plain) : Succeeds (c.check table) := by
  have hb := hc.getD_body
  obtain ⟨caller, hcaller, -, hcr⟩ := Caller.of_registered ht.built hreg
  rw [check_eq, checkInOrder]
  simp only [hreg, Option.getD_some]
  refine Succeeds.bind ⟨caller, hcaller⟩ ?_
  rintro _ hof
  obtain rfl := Except.ok.inj (hcaller.symm.trans hof)
  refine (Succeeds.mapM fun inst hi => ?_).bind fun resolved hresolved =>
    .ite (fun _ => succeeds_pure _) fun hfound => ?_
  · exact Caller.succeeds_resolve ht.built (hb.instances inst hi) ht.explained
  -- every instantiation got an instance, so invocations can be scheduled on them
  have hfound : (c.body.getD .empty).checkNames c.name = [] ∧ ∀ r ∈ resolved, r.2 = [] := by
    simpa using hfound
  have hfits := Caller.fits_of_resolved hcr ht.built
    (Caller.resolved_of_mapM hresolved hfound.2)
  refine (Succeeds.mapM fun inv hi => ?_).bind fun fired hfired => ?_
  · exact (Caller.succeeds_schedule hcr hfits (hb.invocations inv hi)).bind fun _ _ => succeeds_pure _
  refine (Bench.succeeds_check hcr _ _).bind fun wired _ => .ite (fun _ => succeeds_pure _) fun hok => ?_
  -- every invocation got a triggering, so their delays can be compared
  have hok : (∀ r ∈ fired, r.2.2 = []) ∧ wired = [] := by simpa using hok
  have hscheduled := (Caller.scheduled_of_mapM hfired hok.1).1
  refine (Caller.succeeds_checkDelays hcr fun f hf =>
    Caller.logs_history hcr hfits hb.invocations hscheduled hf).bind fun found _ => ?_
  split <;> exact succeeds_pure _

namespace Design

variable {d : Design} {t : Table} {refused : List (String × List Diagnostic)}
  {primitives : List Signature} {search : Hierarchy.Search} {report : Report}

/-- Only for a component that is accepted, has a body and is on no cycle is the check of it asked for. -/
theorem succeeds_outcome {checked : Component → Except Fault Outcome} {cycles : List (List String)}
    {c : Component} (h : refused.lookup c.name = none → c.body.isSome →
      Hierarchy.Spared cycles c.name → Succeeds (checked c)) :
    Succeeds (outcome checked refused cycles c) := by
  unfold outcome
  split
  · exact succeeds_pure _
  next hfree =>
    split
    · exact succeeds_pure _
    · exact succeeds_pure _
    next hb hnone => exact h hfree (by rw [hb]; rfl) (by simpa [Hierarchy.Spared] using hnone)

theorem succeeds_recorded {outcomes : List (String × Outcome)} {c : Component} {o : Outcome}
    (h : (c.name, o) ∈ outcomes) : Succeeds (recorded outcomes c) := by
  obtain ⟨o', ho'⟩ := Association.exists_lookup (List.mem_map_of_mem h)
  exact ⟨o', by rw [recorded, ho']⟩

theorem succeeds_check (hd : d.Plain) (hp : Primitives.Usable primitives) (hs : search.Finds) :
    Succeeds (d.check primitives search) := by
  obtain ⟨t, refused, htable⟩ := exists_table hp d
  unfold check
  rw [filled_eq, htable]
  refine Succeeds.bind (succeeds_pure (t, refused)) ?_
  rintro _ ⟨⟩
  refine (Succeeds.mapM fun c hc => ?_).bind fun outcomes houtcomes =>
    (Succeeds.mapM fun c hc => ?_).bind fun _ _ => succeeds_pure _
  · obtain ⟨hc, hfree⟩ := List.mem_filter.1 (mem_of_mem_agenda hc)
    have hcheck := Component.succeeds_check (sound_table hd hp.plain htable)
      (registered_of_table htable hc (Option.isNone_iff_eq_none.1 hfree)) (hd.components c hc)
    exact hcheck.mapError.bind fun _ _ => succeeds_pure _
  · refine (succeeds_outcome fun hfree hb hspared => ?_).mapError.bind fun _ _ => succeeds_pure _
    -- whatever the report asks for was on the agenda
    have hagenda := (mem_agenda hs (nodup_accepted htable)).2
      ⟨List.mem_filter.2 ⟨mem_of_mem_distinctComponents hc, by simp [hfree]⟩, hb, hspared⟩
    obtain ⟨r, hr, hmade⟩ := exists_right_of_forall₂ (mapM_eq_ok.1 houtcomes) hagenda
    obtain ⟨o, -, hrecord⟩ := bind_eq_ok.1 hmade
    exact succeeds_recorded (pure_eq_ok.1 hrecord ▸ hr)

theorem components_of_check (h : d.check primitives search = .ok report) :
    report.results.map (·.component) = (d.components.map (·.name)).eraseDups := by
  obtain ⟨t, refused, cycles, -, -, hresults⟩ := check_eq_ok h
  rw [← names_distinctComponents, ← List.forall₂_eq_eq_eq, List.forall₂_map_left_iff,
    List.forall₂_map_right_iff]
  exact hresults.flip.imp fun _ _ hr => hr.1

theorem exists_result (h : d.check primitives search = .ok report) {c : Component} (hc : c ∈ d.components) :
    ∃ r, report.get? c.name = some r := by
  have hname : c.name ∈ report.results.map (·.component) := by
    rw [components_of_check h, List.mem_eraseDups]
    exact List.mem_map_of_mem hc
  obtain ⟨r, hr, heq⟩ := List.mem_map.1 hname
  exact Option.isSome_iff_exists.1 (List.find?_isSome.2 ⟨r, hr, by simp [heq]⟩)

/-- A design that can be read gets a report, which has one result for each name of a component. On the
way nothing is missing: validation finds the facts and the delays of every signature whose names are
in order, and a component that is not refused is in the table together with its facts. The library may
be any that can be registered. -/
theorem report_of_readable {d : Design} (hd : d.Readable) (hp : Primitives.Usable primitives)
    (hs : search.Finds) :
    (∀ s : Signature, s.checkNames ++ s.checkReferences = [] →
      Succeeds s.facts ∧ ∀ e ∈ s.events, Succeeds e.delay.linearize) ∧
    ∃ t refused report, d.table primitives = .ok (t, refused) ∧
      (∀ c ∈ d.components, refused.lookup c.name = none → t.get? c.name = some c.signature ∧
        ∃ facts, t.facts? c.name = some facts ∧ c.signature.facts = .ok facts) ∧
      d.check primitives search = .ok report ∧
      report.results.map (·.component) = (d.components.map (·.name)).eraseDups ∧
      ∀ c ∈ d.components, ∃ r, report.get? c.name = some r := by
  constructor
  · intro s hs
    obtain ⟨hnames, hreferences⟩ := List.append_eq_nil_iff.1 hs
    have hdeclared := Signature.declared_of_checks hnames hreferences
    exact ⟨hdeclared.exists_facts, fun e he => (hdeclared.delay e he).linear⟩
  · obtain ⟨t, refused, htable⟩ := exists_table hp d
    obtain ⟨report, hreport⟩ := succeeds_check hd.plain hp hs
    refine ⟨t, refused, report, htable, ?_, hreport, components_of_check hreport,
      fun c hc => exists_result hreport hc⟩
    intro c hc hfree
    have hreg := registered_of_table htable hc hfree
    have hsound := sound_table hd.plain hp.plain htable
    obtain ⟨-, -, facts, hfacts, hstates⟩ := hsound.built.consistent.stored _ _ hreg
    exact ⟨hreg, facts, hfacts, Signature.facts_eq_ok.2 hstates⟩

/-- A design in which nothing is in order: a delay is not positive, a component is its own part, and
an invocation triggers what is not there. -/
def faultyText : String := "components:
- name: A
  events: [\"'G: 0\"]
- name: B
  events: [\"'G: 1\"]
  body: [b := new B]
- name: C
  events: [\"'G: 1\"]
  body: [\"i := a<'G>\"]
"

/-- The faulty design gets a report, in which each of its components is rejected. -/
theorem report_of_readable_faulty :
    ∃ d : Design, d.Readable ∧ d.components.map (·.name) = ["A", "B", "C"] ∧
      ∃ report, d.check Primitives.core = .ok report ∧
        report.rejected.map (·.component) = ["A", "B", "C"] := by
  have h : (Files.parseFile none faultyText).toOption.any (fun file => file.imports.isEmpty &&
      file.components.map (·.name) == ["A", "B", "C"] &&
      ((Files.assemble file [] none).check Primitives.core).toOption.all
        (·.results.all (!·.isOk))) = true := by
    decide +kernel
  simp only [Option.any_eq_true, Option.all_eq_true, Bool.and_eq_true, List.isEmpty_iff, beq_iff_eq,
    toOption_eq_some, and_assoc] at h
  obtain ⟨file, hfile, himports, hnames, hrejected⟩ := h
  have hd := readable_of_parseFile hfile himports
  obtain ⟨-, t, refused, report, -, -, hreport, hresults, -⟩ :=
    report_of_readable hd (Primitives.usable_core _) Hierarchy.finds_cycle?
  refine ⟨_, hd, hnames, report, hreport, ?_⟩
  rw [Report.rejected, List.filter_eq_self.2 (List.all_eq_true.1 (hrejected report hreport)), hresults]
  exact congrArg List.eraseDups hnames

end Design

end Chronogram
