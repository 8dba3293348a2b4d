import Chronogram.Proofs.Reporting
import Chronogram.Proofs.SelfContainment
import Chronogram.Proofs.TableHistory

/-! What a check looks at. Registering a component concerns its own name only, and the check of a body
asks the table for the name of the component and for those that it instantiates, and for nothing
else. So it does not matter in which order the components of a design stand: their names are looked
up with the same result in the end, and each one gets the same outcome. -/

section

open Relation (TransGen)

namespace Chronogram

open Fallible

namespace Table

variable {t u w : Table} {s : Signature} {name other : String}

structure Agree (t u : Table) (name : String) : Prop where
  get? : t.get? name = u.get? name
  facts? : t.facts? name = u.facts? name
  rejection? : t.rejection? name = u.rejection? name

namespace Agree

theorem refl (t : Table) (name : String) : Agree t t name := ⟨rfl, rfl, rfl⟩

theorem symm (h : Agree t u name) : Agree u t name := ⟨h.get?.symm, h.facts?.symm, h.rejection?.symm⟩

theorem trans (h : Agree t u name) (h' : Agree u w name) : Agree t w name :=
  ⟨h.get?.trans h'.get?, h.facts?.trans h'.facts?, h.rejection?.trans h'.rejection?⟩

end Agree

/-- Registering changes what is held under the name of the signature only. -/
theorem agree_register (h : t.register s = .ok u) (hne : name ≠ s.name) : Agree u t name := by
  obtain ⟨-, -, -, facts, -, rfl⟩ := register_eq_ok h
  refine ⟨?_, ?_, rfl⟩
  · rw [get?_add, if_neg hne]
  · rw [facts?_add, if_neg hne]

theorem agree_reject (hne : name ≠ other) (diagnostics : List Diagnostic) :
    Agree (t.reject other diagnostics) t name := by
  refine ⟨?_, ?_, ?_⟩
  · rw [get?_reject, if_neg hne]
  · rw [facts?_reject, if_neg hne]
  · rw [rejection?_reject, if_neg hne]

theorem Agree.reject (h : Agree t u name) (diagnostics : List Diagnostic) :
    Agree (t.reject name diagnostics) (u.reject name diagnostics) name := by
  refine ⟨?_, ?_, ?_⟩
  · rw [get?_reject, get?_reject, h.get?]
  · rw [facts?_reject, facts?_reject, h.facts?]
  · rw [rejection?_reject, rejection?_reject, h.rejection?]

theorem Agree.add (h : Agree t u name) (facts : Facts) : Agree (t.add s facts) (u.add s facts) name := by
  refine ⟨?_, ?_, h.rejection?⟩
  · rw [get?_add, get?_add, h.get?]
  · rw [facts?_add, facts?_add, h.facts?]

theorem Agree.taken (h : Agree t u name) : t.taken name = u.taken name := by
  rw [Bool.eq_iff_iff, ← not_iff_not, Bool.not_eq_true, Bool.not_eq_true, taken_eq_false, taken_eq_false,
    h.get?, h.rejection?]

/-- Whether a signature can be registered, and what is said if not, depends on its own name only. -/
theorem Agree.register (h : Agree t u s.name) :
    (∃ t' u', t.register s = .ok t' ∧ u.register s = .ok u' ∧ Agree t' u' s.name) ∨
      ∃ e, t.register s = .error e ∧ u.register s = .error e := by
  unfold Table.register
  rw [h.taken]
  split
  · exact .inr ⟨_, rfl, rfl⟩
  · split
    next facts _ _ => exact .inl ⟨_, _, rfl, rfl, h.add facts⟩
    · exact .inr ⟨_, rfl, rfl⟩

end Table

namespace Caller

variable {t u : Table}

theorem resolve_congr {inst : Instantiation} (h : Table.Agree t u inst.component) (c : Caller) :
    c.resolve t inst = c.resolve u inst := by
  rw [resolve, h.get?, h.rejection?]
  rfl

theorem of_congr {s : Signature} (h : Table.Agree t u s.name) : of t s = of u s := by
  rw [of, h.facts?]
  rfl

end Caller

/-- The names that the check of a component asks the table for. -/
def Component.Asks (c : Component) (name : String) : Prop :=
  name = c.name ∨ ∃ i ∈ (c.body.getD .empty).instances, i.component = name

/-- The check of a component depends on what the table holds under these names. -/
theorem Component.check_congr {c : Component} {t u : Table} (hu : u.Consistent)
    (h : ∀ n, c.Asks n → Table.Agree t u n) : c.check t = c.check u := by
  have hown := h c.name (.inl rfl)
  have hname : ((u.get? c.name).getD c.signature).name = c.name := by
    cases hget : u.get? c.name with
    | none => rfl
    | some s => exact (hu.stored _ s hget).1
  have hcaller := Caller.of_congr (hname.symm ▸ hown)
  have hresolve : ∀ caller : Caller, (c.body.getD .empty).instances.mapM (caller.resolve t) =
      (c.body.getD .empty).instances.mapM (caller.resolve u) := by
    intro caller
    exact mapM_congr fun i hi => Caller.resolve_congr (h _ (.inr ⟨i, hi, rfl⟩)) caller
  unfold check
  simp only [hown.get?, hcaller, hresolve]

namespace Design

variable {d : Design} {t u : Table} {refused : List (String × List Diagnostic)}
  {cs cs' : List Component} {c : Component} {name : String} {primitives : List Signature}
  {search : Hierarchy.Search} {report : Report}

theorem registerComponents_cons (t : Table) (c : Component) (cs : List Component) :
    registerComponents t (c :: cs) =
      ((registerComponents (registerComponents t [c]).1 cs).1,
        (registerComponents (registerComponents t [c]).1 cs).2 ++ (registerComponents t [c]).2) := by
  simp only [registerComponents]
  split
  · simp
  · rfl

/-- Components of other names leave a name as it is. -/
theorem agree_registerComponents (hn : name ∉ cs.map (·.name)) :
    Table.Agree (registerComponents t cs).1 t name ∧ (registerComponents t cs).2.lookup name = none := by
  induction cs generalizing t with
  | nil => exact ⟨.refl t name, rfl⟩
  | cons first rest ih =>
    rw [List.map_cons, List.mem_cons, not_or] at hn
    rw [registerComponents]
    split
    next u hu =>
      obtain ⟨hagree, hlookup⟩ := ih (t := u) hn.2
      exact ⟨hagree.trans (Table.agree_register hu hn.1), hlookup⟩
    next e he =>
      obtain ⟨hagree, hlookup⟩ := ih (t := t.reject first.name e.diagnostics) hn.2
      refine ⟨hagree.trans (Table.agree_reject hn.1 _), ?_⟩
      rw [List.lookup_append, hlookup, Option.none_or, Association.lookup_eq_none]
      simpa using hn.1

theorem registerComponents_congr (h : Table.Agree t u c.name) :
    Table.Agree (registerComponents t [c]).1 (registerComponents u [c]).1 c.name ∧
      (registerComponents t [c]).2 = (registerComponents u [c]).2 := by
  rcases h.register with ⟨t', u', ht, hu, hagree⟩ | ⟨e, ht, hu⟩
  · simp only [registerComponents, ht, hu, and_true]
    exact hagree
  · simp only [registerComponents, ht, hu, and_true]
    exact h.reject _

/-- Among components of different names, each one is registered or refused as if it were alone. -/
theorem agree_registerComponents_of_mem (hcs : (cs.map (·.name)).Nodup) (hc : c ∈ cs) :
    Table.Agree (registerComponents t cs).1 (registerComponents t [c]).1 c.name ∧
      (registerComponents t cs).2.lookup c.name = (registerComponents t [c]).2.lookup c.name := by
  induction cs generalizing t with
  | nil => simp at hc
  | cons first rest ih =>
    rw [List.map_cons, List.nodup_cons] at hcs
    rw [registerComponents_cons]
    rcases List.mem_cons.1 hc with rfl | hc
    · obtain ⟨hagree, hlookup⟩ := agree_registerComponents (t := (registerComponents t [c]).1) hcs.1
      exact ⟨hagree, by rw [List.lookup_append, hlookup, Option.none_or]⟩
    · have hother : c.name ∉ [first].map (·.name) := by
        intro hname
        have heq : c.name = first.name := by simpa using hname
        exact hcs.1 (heq ▸ List.mem_map_of_mem hc)
      obtain ⟨hfirst, hnone⟩ := agree_registerComponents (t := t) hother
      obtain ⟨hagree, hlookup⟩ := ih (t := (registerComponents t [first]).1) hcs.2 hc
      obtain ⟨halone, hrefused⟩ := registerComponents_congr hfirst
      refine ⟨hagree.trans halone, ?_⟩
      rw [List.lookup_append, hlookup, hnone, Option.or_none, hrefused]

/-- In whichever order components of different names are registered, every name is looked up with the
same result. -/
theorem agree_of_perm (t : Table) (hcs : (cs.map (·.name)).Nodup) (hperm : cs'.Perm cs) (name : String) :
    Table.Agree (registerComponents t cs').1 (registerComponents t cs).1 name ∧
      (registerComponents t cs').2.lookup name = (registerComponents t cs).2.lookup name := by
  have hcs' : (cs'.map (·.name)).Nodup := ((hperm.map _).nodup_iff).2 hcs
  by_cases hname : name ∈ cs.map (·.name)
  · obtain ⟨c, hc, rfl⟩ := List.mem_map.1 hname
    obtain ⟨hagree, hlookup⟩ := agree_registerComponents_of_mem (t := t) hcs hc
    obtain ⟨hagree', hlookup'⟩ := agree_registerComponents_of_mem (t := t) hcs' (hperm.mem_iff.2 hc)
    exact ⟨hagree'.trans hagree.symm, hlookup'.trans hlookup.symm⟩
  · have hname' : name ∉ cs'.map (·.name) := fun h => hname ((hperm.map _).mem_iff.1 h)
    obtain ⟨hagree, hlookup⟩ := agree_registerComponents (t := t) hname
    obtain ⟨hagree', hlookup'⟩ := agree_registerComponents (t := t) hname'
    exact ⟨hagree'.trans hagree.symm, hlookup'.trans hlookup.symm⟩

theorem agree_table (hcs : (d.components.map (·.name)).Nodup) (hperm : cs.Perm d.components)
    (h : d.table primitives = .ok (t, refused)) :
    ∃ t' refused', ({ d with components := cs } : Design).table primitives = .ok (t', refused') ∧
      ∀ name, Table.Agree t' t name ∧ refused'.lookup name = refused.lookup name := by
  unfold table at h ⊢
  split at h
  next start failure hstart =>
  split at h
  · cases h
  next =>
    dsimp only
    rw [hstart]
    have heq := Except.ok.inj h
    refine ⟨_, _, rfl, fun name => ?_⟩
    have hagree := agree_of_perm (d.imported.foldl Table.importSignature start) hcs hperm name
    rwa [heq] at hagree

theorem contains_congr {d' : Design} {t' : Table} (hmem : ∀ c, c ∈ d'.components ↔ c ∈ d.components)
    (hagree : ∀ name, Table.Agree t' t name) : d'.Contains t' = d.Contains t := by
  have hbody : ∀ c b, d'.HasBody t' c b ↔ d.HasBody t c b := by
    intro c b
    constructor
    · intro h
      exact ⟨(hmem c).1 h.mem, h.body, (hagree c.name).get? ▸ h.registered⟩
    · intro h
      exact ⟨(hmem c).2 h.mem, h.body, (hagree c.name).get? ▸ h.registered⟩
  funext n m
  simp only [Contains, hbody]

theorem cycles_eq_nil (hs : search.Finds) (h : d.table primitives = .ok (t, refused))
    (hacyclic : ∀ n, ¬ TransGen (d.Contains t) n n) : (d.acceptedHierarchy refused).cycles search = [] := by
  refine List.eq_nil_iff_forall_not_mem.2 fun cycle hcycle => ?_
  have hc := Hierarchy.isCycle_of_mem_cycles hs hcycle
  obtain ⟨n, hn⟩ := List.exists_mem_of_ne_nil _ hc.nonempty
  apply hacyclic n
  rw [contains_eq_uses h]
  exact hc.reaches n hn n hn

/-- The result under the name of a component, where components have different names and none contains
itself. -/
theorem result_of_check (hs : search.Finds) (h : d.check primitives search = .ok report)
    (htable : d.table primitives = .ok (t, refused)) (hcs : (d.components.map (·.name)).Nodup)
    (hacyclic : ∀ n, ¬ TransGen (d.Contains t) n n) (hc : c ∈ d.components) :
    ∃ o, report.get? c.name = some ⟨c.name, o⟩ ∧ outcome (·.check t) refused [] c = .ok o := by
  obtain ⟨t', refused', cycles, htable', hcycles, hresults⟩ := check_eq_ok h
  obtain ⟨rfl, rfl⟩ : t' = t ∧ refused' = refused := by simpa [htable] using htable'.symm
  obtain rfl : cycles = [] := hcycles.trans (cycles_eq_nil hs htable hacyclic)
  obtain ⟨r, hr⟩ := exists_result h hc
  have hname : r.component = c.name := by simpa using List.find?_some hr
  obtain ⟨c', hc', hcomponent, hout⟩ := exists_left_of_forall₂ hresults (List.mem_of_find?_eq_some hr)
  obtain rfl := List.inj_on_of_nodup_map hcs (mem_of_mem_distinctComponents hc') hc
    (hcomponent.symm.trans hname)
  exact ⟨r.outcome, hr.trans (congrArg some (by rw [← hname])), hout⟩

theorem names_of_check (h : d.check primitives search = .ok report)
    (hcs : (d.components.map (·.name)).Nodup) :
    report.results.map (·.component) = d.components.map (·.name) := by
  have hdistinct : d.distinctComponents = d.components := foldl_addDistinct (by simpa using hcs)
  rw [components_of_check h, ← names_distinctComponents, hdistinct]

theorem get?_eq_none (h : d.check primitives search = .ok report)
    (hn : name ∉ d.components.map (·.name)) : report.get? name = none := by
  rw [← List.mem_eraseDups, ← components_of_check h] at hn
  refine List.find?_eq_none.2 fun r hr hname => hn ?_
  exact beq_iff_eq.1 hname ▸ List.mem_map_of_mem hr

theorem outcome_congr {t' : Table} {refused' : List (String × List Diagnostic)}
    {cycles : List (List String)} (hlookup : refused'.lookup c.name = refused.lookup c.name)
    (hcheck : c.check t' = c.check t) :
    outcome (·.check t') refused' cycles c = outcome (·.check t) refused cycles c := by
  rw [outcome, outcome, hlookup, hcheck]

/-- The order of the components of a design does not matter, if they have different names and none of
those that are checked contains itself: each name gets the same result in whichever order they stand,
be it an export or complaints. Both times the same library is there to be instantiated. -/
theorem same_results_in_any_order {d : Design} (hd : d.Readable)
    {primitives : List Signature} (hp : Primitives.Usable primitives)
    {search : Hierarchy.Search} (hs : search.Finds) (hnames : (d.components.map (·.name)).Nodup)
    (hacyclic : ∀ t refused, d.table primitives = .ok (t, refused) → ∀ n, ¬ TransGen (d.Contains t) n n)
    {cs : List Component} (hperm : cs.Perm d.components) :
    ∃ report report', d.check primitives search = .ok report ∧
      ({ d with components := cs } : Design).check primitives search = .ok report' ∧
      report.results.map (·.component) = d.components.map (·.name) ∧
      report'.results.map (·.component) = cs.map (·.name) ∧
      ∀ name, report'.get? name = report.get? name := by
  have hnames' : (cs.map (·.name)).Nodup := ((hperm.map _).nodup_iff).2 hnames
  have hplain : ({ d with components := cs } : Design).Plain :=
    ⟨fun c hc => hd.plain.components c (hperm.mem_iff.1 hc), hd.plain.imported⟩
  obtain ⟨report, hreport⟩ := succeeds_check hd.plain hp hs
  obtain ⟨report', hreport'⟩ := succeeds_check hplain hp hs
  obtain ⟨t, refused, htable⟩ := exists_table hp d
  have ht := (sound_table hd.plain hp.plain htable).built.consistent
  obtain ⟨t', refused', htable', hagree⟩ := agree_table hnames hperm htable
  have hcontains : ({ d with components := cs } : Design).Contains t' = d.Contains t :=
    contains_congr (fun _ => hperm.mem_iff) fun name => (hagree name).1
  refine ⟨report, report', hreport, hreport', names_of_check hreport hnames,
    names_of_check hreport' hnames', fun name => ?_⟩
  by_cases hname : name ∈ d.components.map (·.name)
  · obtain ⟨c, hc, rfl⟩ := List.mem_map.1 hname
    obtain ⟨o, hget, hout⟩ := result_of_check hs hreport htable hnames (hacyclic t refused htable) hc
    obtain ⟨o', hget', hout'⟩ := result_of_check hs hreport' htable' hnames'
      (hcontains ▸ hacyclic t refused htable) (hperm.mem_iff.2 hc)
    rw [outcome_congr (hagree c.name).2 (Component.check_congr ht fun n _ => (hagree n).1)] at hout'
    rw [hget, hget', Except.ok.inj (hout'.symm.trans hout)]
  · have hname' : name ∉ cs.map (·.name) := fun h => hname ((hperm.map _).mem_iff.1 h)
    rw [get?_eq_none hreport hname, get?_eq_none hreport' hname']

/-- A component whose parts cannot be registered, one for its delay and one because a primitive has its
name, and a third part that can be. -/
def clashText : String := "components:
- name: Top
  events: [\"'G: 1\"]
  body: [b := new Bad, a := new Add, l := new Leaf]
- name: Bad
  events: [\"'G: 0\"]
- name: Add
  events: [\"'G: 1\"]
- name: Leaf
  events: [\"'G: 1\"]
"

/-- In the sample only `Leaf` is verified, and the complaints are the same when it stands first and `Top`
last. -/
theorem same_results_in_any_order_clash : ∃ (d : Design) (report report' : Report), d.Readable ∧
    d.check Primitives.core = .ok report ∧
    ({ d with components := d.components.reverse } : Design).check Primitives.core = .ok report' ∧
    report.results.map (fun r => (r.component, r.state, r.diagnostics.length)) =
      [("Top", "Rejected", 2), ("Bad", "Rejected", 1), ("Add", "Rejected", 1),
        ("Leaf", "Verified", 0)] ∧
    report'.results.map (·.component) = ["Leaf", "Add", "Bad", "Top"] ∧
    ∀ name, report'.get? name = report.get? name := by
  have h : (Files.parseFile none clashText).toOption.any (fun file => file.imports.isEmpty &&
      file.components.map (·.name) == ["Top", "Bad", "Add", "Leaf"] &&
      ((Files.assemble file [] none).table Primitives.core).toOption.all (fun made =>
        (((Files.assemble file [] none).acceptedHierarchy made.2).cycles Hierarchy.cycle?).isEmpty) &&
      ((Files.assemble file [] none).check Primitives.core).toOption.all (fun report =>
        report.results.map (fun r => (r.component, r.state, r.diagnostics.length)) ==
          [("Top", "Rejected", 2), ("Bad", "Rejected", 1), ("Add", "Rejected", 1),
            ("Leaf", "Verified", 0)])) = true := by
    decide +kernel
  simp only [Option.any_eq_true, Option.all_eq_true, Bool.and_eq_true, List.isEmpty_iff, beq_iff_eq,
    toOption_eq_some, and_assoc] at h
  obtain ⟨file, hfile, himports, hnames, hcycles, hstates⟩ := h
  have hd := readable_of_parseFile hfile himports
  have hnames : (Files.assemble file [] none).components.map (·.name) =
    ["Top", "Bad", "Add", "Leaf"] := hnames
  have hacyclic : ∀ t refused, (Files.assemble file [] none).table Primitives.core = .ok (t, refused) →
      ∀ n, ¬ TransGen ((Files.assemble file [] none).Contains t) n n := by
    intro t refused htable
    rw [contains_eq_uses htable]
    exact Hierarchy.acyclic_of_cycles Hierarchy.finds_cycle? (by simp [hcycles _ htable])
  obtain ⟨report, report', hreport, hreport', -, hcomponents, hsame⟩ :=
    same_results_in_any_order hd (Primitives.usable_core _) Hierarchy.finds_cycle?
      (by rw [hnames]; decide) hacyclic (List.reverse_perm _)
  refine ⟨_, report, report', hd, hreport, hreport', hstates _ hreport, ?_, hsame⟩
  rw [hcomponents, List.map_reverse, hnames]
  rfl

end Design

end Chronogram

end
