import Chronogram.Proofs.Kinds
import Chronogram.Proofs.Registration

/-! Components that contain themselves, and what a report says about them. The components that count are
those with a body and a registered signature; they contain each other as their bodies instantiate
them. Each one that is reported as recursive contains itself, and no way back to a component misses
all that are reported. Components whose cycles branch may be passed over, though: when one cycle is
taken out, others lose the members that they share with it. -/

section

open Relation (TransGen ReflTransGen)

namespace Chronogram

open Fallible

def Report.Recursive (report : Report) (name : String) : Prop :=
  ∃ r ∈ report.results, r.component = name ∧ ∃ d ∈ r.diagnostics, d.kind = .recursiveInstantiation

namespace Design

variable {d : Design} {t : Table} {refused : List (String × List Diagnostic)} {cs : List Component}
  {c : Component} {b : Body} {primitives : List Signature} {search : Hierarchy.Search} {n m name : String}

structure HasBody (d : Design) (t : Table) (c : Component) (b : Body) : Prop where
  mem : c ∈ d.components
  body : c.body = some b
  registered : t.get? c.name = some c.signature

/-- A component contains another one: both have a body and a registered signature, and the body of the
first instantiates the second. -/
def Contains (d : Design) (t : Table) (n m : String) : Prop :=
  ∃ c b c' b', d.HasBody t c b ∧ c.name = n ∧ d.HasBody t c' b' ∧ c'.name = m ∧
    ∃ i ∈ b.instances, i.component = m

def acceptedHierarchy (d : Design) (refused : List (String × List Diagnostic)) : Hierarchy :=
  hierarchy (d.components.filter fun c => (refused.lookup c.name).isNone)

theorem exists_component_of_uses (h : (hierarchy cs).Uses n m) :
    ∃ c ∈ cs, ∃ b, c.body = some b ∧ c.name = n ∧ m ∈ b.dependencies := by
  obtain ⟨parts, hparts, hm⟩ := h
  simp only [hierarchy, List.mem_map, List.mem_filterMap, Option.map_eq_some_iff] at hparts
  obtain ⟨_, ⟨c, hc, b, hb, rfl⟩, heq⟩ := hparts
  cases heq
  exact ⟨c, hc, b, hb, rfl, (List.mem_filter.1 hm).1⟩

theorem hasBody_iff (h : d.table primitives = .ok (t, refused)) : d.HasBody t c b ↔
    c ∈ d.components.filter (fun c => (refused.lookup c.name).isNone) ∧ c.body = some b := by
  rw [List.mem_filter, Option.isNone_iff_eq_none]
  constructor
  · intro hc
    exact ⟨⟨hc.mem, (refused_eq_none_iff h hc.mem).2 hc.registered⟩, hc.body⟩
  · rintro ⟨⟨hc, hfree⟩, hb⟩
    exact ⟨hc, hb, (refused_eq_none_iff h hc).1 hfree⟩

theorem contains_eq_uses (h : d.table primitives = .ok (t, refused)) :
    d.Contains t = (d.acceptedHierarchy refused).Uses := by
  funext n m
  apply propext
  constructor
  · rintro ⟨c, b, c', b', hc, rfl, hc', rfl, i, hi, hcomponent⟩
    obtain ⟨hmem, hb⟩ := (hasBody_iff h).1 hc
    obtain ⟨hmem', hb'⟩ := (hasBody_iff h).1 hc'
    refine uses_hierarchy hmem hb hmem' hb' ?_
    rw [Body.dependencies, List.mem_eraseDups, ← hcomponent]
    exact List.mem_map_of_mem hi
  · intro huses
    obtain ⟨c, hc, b, hb, rfl, hdep⟩ := exists_component_of_uses huses
    obtain ⟨c', hc', rfl, b', hb'⟩ := mem_nodes_hierarchy (Hierarchy.mem_nodes_of_uses huses).2
    rw [Body.dependencies, List.mem_eraseDups] at hdep
    obtain ⟨i, hi, hcomponent⟩ := List.mem_map.1 hdep
    exact ⟨c, b, c', b', (hasBody_iff h).2 ⟨hc, hb⟩, rfl, (hasBody_iff h).2 ⟨hc', hb'⟩, rfl, i, hi,
      hcomponent⟩

theorem outcome_of_mem_cycle {checked : Component → Except Fault Outcome}
    {cycles : List (List String)} {cycle : List String}
    (hfree : refused.lookup c.name = none) (hb : c.body = some b) (hcycle : cycle ∈ cycles)
    (hmem : c.name ∈ cycle) :
    ∃ cycle', outcome checked refused cycles c = .ok (.rejected [recursionDiagnostic c cycle']) := by
  have hsome : (cycles.find? (·.contains c.name)).isSome = true :=
    List.find?_isSome.2 ⟨cycle, hcycle, by simpa using hmem⟩
  obtain ⟨cycle', hcycle'⟩ := Option.isSome_iff_exists.1 hsome
  exact ⟨cycle', by rw [outcome, hfree, hb, hcycle']; rfl⟩

theorem mem_cycle_of_outcome {cycles : List (List String)} {found : List Diagnostic}
    (hrefused : ∀ r ∈ refused, Unrelated r.2)
    (h : outcome (·.check t) refused cycles c = .ok (.rejected found))
    {x : Diagnostic} (hx : x ∈ found) (hkind : x.kind = .recursiveInstantiation) :
    ∃ cycle ∈ cycles, c.name ∈ cycle := by
  unfold outcome at h
  split at h
  next hsome =>
    cases h
    exact absurd hkind (hrefused _ (Association.mem_of_lookup hsome) x hx)
  · split at h
    · cases h
    next hcycle =>
      exact ⟨_, List.mem_of_find?_eq_some hcycle, by simpa using List.find?_some hcycle⟩
    · exact absurd hkind (Component.unrelated_check h x hx)

/-- A report names as recursive exactly the members of the cycles that are found. -/
theorem recursive_iff {report : Report} (hs : search.Finds) (h : d.check primitives search = .ok report)
    (htable : d.table primitives = .ok (t, refused)) :
    report.Recursive n ↔ ∃ cycle ∈ (d.acceptedHierarchy refused).cycles search, n ∈ cycle := by
  obtain ⟨t', refused', cycles, htable', rfl, hresults⟩ := check_eq_ok h
  obtain ⟨rfl, rfl⟩ : t' = t ∧ refused' = refused := by simpa [htable] using htable'.symm
  constructor
  · rintro ⟨r, hr, rfl, x, hx, hkind⟩
    obtain ⟨c, -, hname, hout⟩ := exists_left_of_forall₂ hresults hr
    rw [hname]
    have hrefused : ∀ r ∈ refused', Unrelated r.2 := by
      intro r hr
      obtain ⟨c, -, u, e, he, rfl⟩ := refused_of_table htable hr
      exact Table.unrelated_of_register he
    unfold CheckResult.diagnostics at hx
    split at hx
    · simp at hx
    next found hfound =>
      rw [hfound] at hout
      exact mem_cycle_of_outcome hrefused hout hx hkind
  · rintro ⟨cycle, hcycle, hn⟩
    obtain ⟨m, -, huses⟩ := (Hierarchy.isCycle_of_mem_cycles hs hcycle).uses n hn
    rw [← contains_eq_uses htable] at huses
    obtain ⟨c, b, -, -, hc, rfl, -⟩ := huses
    have hfree := (refused_eq_none_iff htable hc.mem).2 hc.registered
    obtain ⟨c', hc', hname⟩ := exists_distinct hc.mem
    obtain rfl := eq_of_accepted htable hc.mem (mem_of_mem_distinctComponents hc') hname hfree
    obtain ⟨r, hr, hcomponent, hout⟩ := exists_right_of_forall₂ hresults hc'
    obtain ⟨cycle', hrejected⟩ := outcome_of_mem_cycle hfree hc.body hcycle hn
    have houtcome : r.outcome = .rejected [recursionDiagnostic c' cycle'] :=
      Except.ok.inj (hout.symm.trans hrejected)
    refine ⟨r, hr, hcomponent, recursionDiagnostic c' cycle', ?_, rfl⟩
    simp [CheckResult.diagnostics, houtcome]

/-- Whichever way cycles are searched for, every component that is reported as recursive contains itself,
and on every way from a component back to itself some component is reported. A component whose cycles
do not branch is reported exactly when it contains itself. -/
theorem recursion_on_every_cycle {report : Report} (hs : search.Finds)
    (h : d.check primitives search = .ok report) :
    ∃ t refused, d.table primitives = .ok (t, refused) ∧
      (∀ n, report.Recursive n → TransGen (d.Contains t) n n) ∧
      (∀ n mid, List.IsChain (d.Contains t) (n :: (mid ++ [n])) →
        ∃ m ∈ mid ++ [n], report.Recursive m) ∧
      ∀ n, Hierarchy.Unbranched (d.Contains t) n →
        (report.Recursive n ↔ TransGen (d.Contains t) n n) := by
  obtain ⟨t, refused, -, htable, -⟩ := check_eq_ok h
  have hsound : ∀ n, report.Recursive n → TransGen (d.Contains t) n n := by
    intro n hn
    obtain ⟨cycle, hcycle, hmem⟩ := (recursive_iff hs h htable).1 hn
    rw [contains_eq_uses htable]
    exact (Hierarchy.isCycle_of_mem_cycles hs hcycle).reaches n hmem n hmem
  refine ⟨t, refused, htable, hsound, fun n mid hring => ?_, fun n hn => ⟨hsound n, fun hcycle => ?_⟩⟩
  · rw [contains_eq_uses htable] at hring
    obtain ⟨m, hm, hfound⟩ := Hierarchy.exists_found_of_ring hs hring
    exact ⟨m, hm, (recursive_iff hs h htable).2 hfound⟩
  · rw [contains_eq_uses htable] at hn hcycle
    exact (recursive_iff hs h htable).2 (Hierarchy.exists_found_of_unbranched hs hn hcycle)

/-- Three components on two cycles that share one of them, and a component that contains only itself. -/
def overlapText : String := "components:
- name: A
  events: [\"'G: 1\"]
  body: [b := new B]
- name: B
  events: [\"'G: 1\"]
  body: [a := new A, c := new C]
- name: C
  events: [\"'G: 1\"]
  body: [b := new B]
- name: S
  events: [\"'G: 1\"]
  body: [s := new S]
"

def overlap : Hierarchy := [("A", ["B"]), ("B", ["A", "C"]), ("C", ["B"]), ("S", ["S"])]

/-- The text is read as this hierarchy, and the report does not name `C`. -/
theorem exists_overlap : ∃ (d : Design) (report : Report) (t : Table)
    (refused : List (String × List Diagnostic)), d.Readable ∧ d.check Primitives.core = .ok report ∧
      d.table Primitives.core = .ok (t, refused) ∧ d.acceptedHierarchy refused = overlap ∧
      ¬ report.Recursive "C" := by
  have h : (Files.parseFile none overlapText).toOption.any (fun file => file.imports.isEmpty &&
      ((Files.assemble file [] none).table Primitives.core).toOption.any (fun made =>
        (Files.assemble file [] none).acceptedHierarchy made.2 == overlap) &&
      ((Files.assemble file [] none).check Primitives.core).toOption.any (fun report =>
        report.results.all fun r => r.component != "C" ||
          r.diagnostics.all (·.kind != .recursiveInstantiation))) = true := by
    decide +kernel
  simp only [Option.any_eq_true, Bool.and_eq_true, List.isEmpty_iff, beq_iff_eq, toOption_eq_some,
    and_assoc] at h
  obtain ⟨file, hfile, himports, ⟨made, hmade, hhierarchy⟩, report, hreport, hspared⟩ := h
  refine ⟨_, report, made.1, made.2, readable_of_parseFile hfile himports, hreport, hmade, hhierarchy, ?_⟩
  rintro ⟨r, hr, hname, x, hx, hkind⟩
  have hr := List.all_eq_true.1 hspared r hr
  simp only [hname, bne_self_eq_false, Bool.false_or, List.all_eq_true] at hr
  simpa [hkind] using hr x hx

theorem unbranched_overlap : Hierarchy.Unbranched overlap.Uses "S" := by
  have huses : ∀ m, overlap.Uses "S" m ↔ m = "S" := by
    intro m
    simp [Hierarchy.Uses, overlap]
  have hself : ∀ a, ReflTransGen overlap.Uses "S" a → a = "S" := by
    intro a ha
    induction ha with
    | refl => rfl
    | tail _ hstep ih =>
      rw [ih] at hstep
      exact (huses _).1 hstep
  intro a b c ha hab hac _ _
  rw [hself a ha, huses] at hab hac
  rw [hab, hac]

/-- In the sample `S` is reported, and so is a component on the way from `A` through `B` back to `A`. -/
theorem recursion_on_every_cycle_overlap : ∃ (d : Design) (report : Report),
    d.check Primitives.core = .ok report ∧ report.Recursive "S" ∧
      ∃ m ∈ ["B", "A"], report.Recursive m := by
  obtain ⟨d, report, t, refused, -, hreport, htable, hhierarchy, -⟩ := exists_overlap
  obtain ⟨t', refused', htable', -, hring, hexact⟩ := recursion_on_every_cycle Hierarchy.finds_cycle? hreport
  obtain ⟨rfl, rfl⟩ : t' = t ∧ refused' = refused := by simpa [htable] using htable'.symm
  rw [contains_eq_uses htable, hhierarchy] at hring hexact
  refine ⟨d, report, hreport, (hexact "S" unbranched_overlap).2 (.single ?_), hring "A" ["B"] ?_⟩
  · simp [Hierarchy.Uses, overlap]
  · simp [Hierarchy.Uses, overlap]

/-- The component `C` of the sample contains itself through `B` and is not reported, because the cycle
of `A` and `B` is found first and takes `B` out of the search. -/
theorem unreported_recursion : ∃ (d : Design) (report : Report) (t : Table)
    (refused : List (String × List Diagnostic)), d.Readable ∧ d.check Primitives.core = .ok report ∧
      d.table Primitives.core = .ok (t, refused) ∧ TransGen (d.Contains t) "C" "C" ∧
      ¬ report.Recursive "C" := by
  obtain ⟨d, report, t, refused, hd, hreport, htable, hhierarchy, hspared⟩ := exists_overlap
  refine ⟨d, report, t, refused, hd, hreport, htable, ?_, hspared⟩
  rw [contains_eq_uses htable, hhierarchy]
  exact .tail (.single (show overlap.Uses "C" "B" by simp [Hierarchy.Uses, overlap]))
    (show overlap.Uses "B" "C" by simp [Hierarchy.Uses, overlap])

end Design

end Chronogram

end
