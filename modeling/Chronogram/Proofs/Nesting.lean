import Chronogram.Proofs.Registration
import Mathlib.Data.List.Chain

/-! Nested calls in a design whose report is in order. A component that is triggered with an admitted
valuation triggers its callees with admitted ones, so this holds along every chain of calls. No chain
comes back to a component that it has been to, and therefore none is longer than the design. -/

section

open Relation (TransGen)

namespace Chronogram

open Fallible

namespace Call

variable {table : Table} {s : Signature} {b : Body}

/-- The call gives a value to each parameter and a time to each event of its callee. -/
structure Total (k : Call table s b) : Prop where
  params : ∀ p ∈ k.callee.paramNames, ∃ e, k.bindings.lookup p = some e
  events : ∀ e ∈ k.callee.eventNames, ∃ time, k.times.lookup e = some time

end Call

theorem Body.Passes.total {b : Body} {table : Table} {c : Caller} {instances : List Instance}
    {schedule : Schedule} (h : b.Passes table c instances schedule) (hc : c.Registered)
    (ht : table.Built) (hb : b.Plain) (k : Call table c.signature b) : k.Total := by
  obtain ⟨f, -, hserves, hcallee, -⟩ := h.exists_firing hc ht hb k
  constructor
  · intro p hp
    exact Association.exists_lookup ((k.binds ht hb).total p hp)
  · intro e he
    refine Association.exists_lookup ?_
    have harity : k.callee.eventNames.length ≤ k.inv.times.length := by
      rw [← hcallee, hserves.arity, Signature.eventNames, List.length_map]
    rwa [Call.times, List.map_fst_zip harity]

namespace Design

variable {d : Design} {t : Table} {c : Component} {b : Body} {v : Valuation}
  {x y : Signature × Valuation}

/-- A component that is triggered with a valuation triggers the callees in its body with the valuations
that come from it. -/
inductive Triggers (d : Design) (t : Table) : Signature × Valuation → Signature × Valuation → Prop
  | call {c : Component} {b : Body} (hc : c ∈ d.components) (hb : c.body = some b)
      (k : Call t c.signature b) (v : Valuation) : Triggers d t (c.signature, v) (k.callee, k.induced v)

theorem Accepted.passes (ha : d.Accepted t) (hc : c ∈ d.components) (hb : c.body = some b) :
    ∃ (facts : Facts) (instances : List Instance) (schedule : Schedule),
      Caller.Registered ⟨c.signature, facts⟩ ∧
      b.Passes t ⟨c.signature, facts⟩ instances schedule := by
  obtain ⟨v, hv⟩ := ha.verified c hc b hb
  exact Component.passes_of_check ha.sound.built (ha.registered c hc) hb hv

theorem Accepted.bodyPlain (ha : d.Accepted t) (hc : c ∈ d.components) (hb : c.body = some b) :
    b.Plain := (ha.plain.components c hc).body b hb

theorem Accepted.exists_call (ha : d.Accepted t) (hc : c ∈ d.components) (hb : c.body = some b)
    {inv : Invocation} (hinv : inv ∈ b.invocations) : ∃ k : Call t c.signature b, k.inv = inv := by
  obtain ⟨facts, instances, schedule, -, hpass⟩ := ha.passes hc hb
  exact hpass.exists_call hinv

theorem Accepted.total (ha : d.Accepted t) (hc : c ∈ d.components) (hb : c.body = some b)
    (k : Call t c.signature b) : k.Total := by
  obtain ⟨facts, instances, schedule, hcaller, hpass⟩ := ha.passes hc hb
  exact hpass.total hcaller ha.sound.built (ha.bodyPlain hc hb) k

theorem Accepted.admits_step (ha : d.Accepted t) (h : d.Triggers t x y) (hx : x.1.Admits x.2.symbol) :
    y.1.Admits y.2.symbol := by
  cases h with
  | call hc hb k v =>
    obtain ⟨facts, instances, schedule, hcaller, hpass⟩ := ha.passes hc hb
    exact hpass.admits hcaller ha.sound.built (ha.bodyPlain hc hb) k hx

/-- Along a chain of calls all valuations are admitted. -/
theorem Accepted.admits_chain (ha : d.Accepted t) {chain : List (Signature × Valuation)}
    (h : List.IsChain (d.Triggers t) (x :: chain)) (hx : x.1.Admits x.2.symbol) :
    ∀ y ∈ chain, y.1.Admits y.2.symbol := by
  induction chain generalizing x with
  | nil => simp
  | cons y chain ih =>
    obtain ⟨hxy, hrest⟩ := List.isChain_cons_cons.1 h
    have hy := ha.admits_step hxy hx
    exact List.forall_mem_cons.2 ⟨hy, ih hrest hy⟩

theorem Triggers.exists_component (h : d.Triggers t x y) :
    ∃ c ∈ d.components, c.signature = x.1 ∧ ∃ b, c.body = some b := by
  cases h with
  | call hc hb k v => exact ⟨_, hc, rfl, _, hb⟩

theorem Accepted.uses (ha : d.Accepted t) (h : d.Triggers t x y) {part : Component} {b' : Body}
    (hpart : part ∈ d.components) (hb' : part.body = some b') (hname : part.name = y.1.name) :
    (hierarchy d.components).Uses x.1.name y.1.name := by
  cases h with
  | call hc hb k v =>
    obtain ⟨hcallee, -⟩ := ha.sound.built.registered k.registered
    rw [← hname]
    refine uses_hierarchy hc hb hpart hb' ?_
    rw [hname, hcallee, Body.dependencies, List.mem_eraseDups]
    exact List.mem_map_of_mem k.inst_mem

theorem Accepted.name_ne (ha : d.Accepted t) (h : TransGen (d.Triggers t) x y) :
    x.1.name ≠ y.1.name := by
  -- all components on the way have bodies: each but the last one calls the next
  have huses : ∀ {z}, TransGen (d.Triggers t) x z → ∀ {part : Component} {b' : Body},
      part ∈ d.components → part.body = some b' → part.name = z.1.name →
      TransGen (hierarchy d.components).Uses x.1.name z.1.name := by
    intro z hz
    induction hz with
    | single hstep => exact fun hpart hb' hname => .single (ha.uses hstep hpart hb' hname)
    | tail _ hstep ih =>
      intro part b' hpart hb' hname
      obtain ⟨c, hc, hsig, b, hb⟩ := hstep.exists_component
      exact .tail (ih hc hb (by rw [← hsig]; rfl)) (ha.uses hstep hpart hb' hname)
  intro hname
  obtain ⟨z, hfirst, -⟩ := TransGen.head'_iff.1 h
  obtain ⟨c, hc, hsig, b, hb⟩ := hfirst.exists_component
  have hcycle := huses h hc hb (by rw [← hname, ← hsig]; rfl)
  rw [← hname] at hcycle
  exact ha.acyclic _ hcycle

theorem Accepted.nodup_chain (ha : d.Accepted t) {chain : List (Signature × Valuation)}
    (h : List.IsChain (d.Triggers t) chain) : (chain.map (·.1.name)).Nodup := by
  have hpath : chain.IsChain (TransGen (d.Triggers t)) := h.imp fun _ _ hstep => .single hstep
  rw [List.Nodup, List.pairwise_map]
  exact hpath.pairwise.imp fun hxy => ha.name_ne hxy

theorem exists_component_of_chain {chain : List (Signature × Valuation)}
    (h : List.IsChain (d.Triggers t) (x :: chain)) :
    ∀ y ∈ (x :: chain).dropLast, ∃ c ∈ d.components, c.signature = y.1 := by
  induction chain generalizing x with
  | nil => simp
  | cons y chain ih =>
    obtain ⟨hxy, hrest⟩ := List.isChain_cons_cons.1 h
    obtain ⟨c, hc, hsig, -⟩ := hxy.exists_component
    rw [List.dropLast_cons_cons]
    exact List.forall_mem_cons.2 ⟨⟨c, hc, hsig⟩, ih hrest⟩

theorem Accepted.length_chain_le (ha : d.Accepted t) {chain : List (Signature × Valuation)}
    (h : List.IsChain (d.Triggers t) (x :: chain)) : chain.length ≤ d.components.length := by
  have hnodup : ((x :: chain).dropLast.map (·.1.name)).Nodup :=
    (ha.nodup_chain h).sublist ((List.dropLast_sublist _).map _)
  have hsub : (x :: chain).dropLast.map (·.1.name) ⊆ d.components.map (·.name) := by
    intro n hn
    obtain ⟨y, hy, rfl⟩ := List.mem_map.1 hn
    obtain ⟨c, hc, hsig⟩ := exists_component_of_chain h y hy
    exact List.mem_map.2 ⟨c, hc, by rw [← hsig]; rfl⟩
  have hle := (List.subperm_of_subset hnodup hsub).length_le
  simpa using hle

/-- In a design whose report is in order, every chain of nested calls that starts at an admitted
valuation stays with admitted valuations, never comes to one component twice and is no longer than
the design. Every invocation of a body is such a call. This is so for every library of plain
signatures and every search that finds a cycle where there is one. -/
theorem admits_nested_calls {primitives : List Signature} {search : Hierarchy.Search} {report : Report}
    (hp : ∀ s ∈ primitives, s.Plain) (hs : search.Finds) (hd : d.Readable)
    (h : d.check primitives search = .ok report) (hok : report.isOk = true) :
    ∃ t, d.table primitives = .ok (t, []) ∧
      ∀ c ∈ d.components, ∀ b, c.body = some b →
        (∀ inv ∈ b.invocations, ∃ k : Call t c.signature b, k.inv = inv) ∧
        (∀ k : Call t c.signature b, k.Total) ∧
        ∀ v : Valuation, c.signature.Admits v.symbol →
          ∀ chain, List.IsChain (d.Triggers t) ((c.signature, v) :: chain) →
            (∀ y ∈ chain, y.1.Admits y.2.symbol) ∧
            (((c.signature, v) :: chain).map (·.1.name)).Nodup ∧
            chain.length ≤ d.components.length := by
  obtain ⟨t, htable, ha⟩ := accepted_of_check hd.plain hp hs h hok
  refine ⟨t, htable, fun c hc b hb => ⟨?_, ha.total hc hb, ?_⟩⟩
  · intro inv hinv
    exact ha.exists_call hc hb hinv
  · intro v hv chain hchain
    exact ⟨ha.admits_chain hchain hv, ha.nodup_chain hchain, ha.length_chain_le hchain⟩

/-- A design of two components, one of which calls the other twice. -/
def sampleText : String := "components:
- name: Flip
  params: [W]
  events: [\"'G: 1\"]
  inputs: [\"x: ['G, 'G+1) W\"]
  body: [\"n := new Not[W]\", \"i := n<'G>(x)\"]
- name: Twice
  events: [\"'G: 2\"]
  inputs: [\"x: ['G, 'G+2) 8\"]
  body: [\"f := new Flip[8]\", \"i := f<'G>(x)\", \"j := f<'G+1>(x)\"]
"

/-- What the sample text says: `Twice` takes any valuation and triggers one instance of `Flip` by two
invocations. -/
structure Sample where
  design : Design
  report : Report
  flip : Component
  twice : Component
  inner : Body
  outer : Body
  readable : design.Readable
  checked : design.check Primitives.core = .ok report
  isOk : report.isOk = true
  flip_mem : flip ∈ design.components
  flip_body : flip.body = some inner
  twice_mem : twice ∈ design.components
  twice_body : twice.body = some outer
  inner_calls : ∃ inst ∈ inner.instances, ∃ i ∈ inner.invocations, i.target = inst.name
  outer_uses : ∀ inst ∈ outer.instances, inst.component = flip.name
  outer_calls : ∃ inst ∈ outer.instances, ∃ i ∈ outer.invocations, ∃ j ∈ outer.invocations,
    i.target = inst.name ∧ j.target = inst.name ∧ i.name ≠ j.name
  clauses : twice.signature.clauses = []
  widths : twice.signature.ports.map (·.width) = [.const 8]
  delays : twice.signature.events.map (·.delay) = [.const 2]

theorem nonempty_sample : Nonempty Sample := by
  have h : (Files.parseFile none sampleText).toOption.any (fun file => file.imports.isEmpty &&
      ((Files.assemble file [] none).check Primitives.core).toOption.any (·.isOk) &&
      file.components.any fun flip => file.components.any fun twice =>
        flip.body.any (fun inner => inner.instances.any fun inst =>
          inner.invocations.any fun i => i.target == inst.name) &&
        twice.body.any (fun outer => outer.instances.all (·.component == flip.name) &&
          outer.instances.any fun inst => outer.invocations.any fun i => outer.invocations.any fun j =>
            i.target == inst.name && j.target == inst.name && i.name != j.name) &&
        twice.signature.clauses.isEmpty && twice.signature.ports.map (·.width) == [.const 8] &&
        twice.signature.events.map (·.delay) == [.const 2]) = true := by
    decide +kernel
  simp only [Bool.and_eq_true, List.any_eq_true, List.all_eq_true, Option.any_eq_true,
    List.isEmpty_iff, beq_iff_eq, bne_iff_ne, toOption_eq_some, and_assoc] at h
  obtain ⟨file, hfile, himports, ⟨report, hreport, hok⟩, flip, hflip, twice, htwice,
    ⟨inner, hinner, hinner_calls⟩, ⟨outer, houter, huses, hcalls⟩, hclauses, hwidths, hdelays⟩ := h
  exact ⟨⟨Files.assemble file [] none, report, flip, twice, inner, outer,
    readable_of_parseFile hfile himports, hreport, hok, hflip, hinner, htwice, houter, hinner_calls,
    huses, hcalls, hclauses, hwidths, hdelays⟩⟩

namespace Sample

variable (s : Sample)

theorem admits (v : Valuation) : s.twice.signature.Admits v.symbol := by
  refine ⟨by simp [s.clauses], ?_⟩
  intro p hp
  have hwidth := List.mem_map_of_mem (f := (·.width)) hp
  rw [s.widths, List.mem_singleton] at hwidth
  rw [hwidth]
  simp [Expr.eval]

theorem exists_accepted : ∃ t, s.design.table Primitives.core = .ok (t, []) ∧ s.design.Accepted t :=
  accepted_of_check s.readable.plain (Primitives.usable_core _).plain Hierarchy.finds_cycle? s.checked s.isOk

end Sample

/-- In the sample a chain of two calls leads from `Twice` through `Flip` to a primitive. -/
theorem admits_nested_calls_sample :
    ∃ (s : Sample) (t : Table) (v : Valuation) (chain : List (Signature × Valuation)),
      s.design.table Primitives.core = .ok (t, []) ∧
      List.IsChain (s.design.Triggers t) ((s.twice.signature, v) :: chain) ∧ chain.length = 2 ∧
      (∀ y ∈ chain, y.1.Admits y.2.symbol) ∧
      (((s.twice.signature, v) :: chain).map (·.1.name)).Nodup := by
  obtain ⟨s⟩ := nonempty_sample
  obtain ⟨t, htable, hnested⟩ := admits_nested_calls (Primitives.usable_core _).plain Hierarchy.finds_cycle?
    s.readable s.checked s.isOk
  obtain ⟨u, hu, ha⟩ := s.exists_accepted
  obtain rfl : u = t := by simpa [hu] using htable
  obtain ⟨hcalls, -, hchain⟩ := hnested s.twice s.twice_mem s.outer s.twice_body
  obtain ⟨hcalls', -⟩ := hnested s.flip s.flip_mem s.inner s.flip_body
  obtain ⟨-, -, inv, hinv, -⟩ := s.outer_calls
  obtain ⟨-, -, inv', hinv', -⟩ := s.inner_calls
  obtain ⟨k, -⟩ := hcalls inv hinv
  obtain ⟨l, -⟩ := hcalls' inv' hinv'
  have hcallee : k.callee = s.flip.signature := by
    simpa [s.outer_uses _ k.inst_mem, ha.registered _ s.flip_mem] using k.registered.symm
  let v : Valuation := ⟨fun _ => 1, fun _ => 0⟩
  have hfirst : s.design.Triggers u (s.twice.signature, v) (s.flip.signature, k.induced v) :=
    hcallee ▸ .call s.twice_mem s.twice_body k v
  have hpath : List.IsChain (s.design.Triggers u) [(s.twice.signature, v),
      (s.flip.signature, k.induced v), (l.callee, l.induced (k.induced v))] :=
    .cons_cons hfirst (.cons_cons (.call s.flip_mem s.flip_body l _) (.singleton _))
  obtain ⟨hadmits, hnodup, -⟩ := hchain v (s.admits v) _ hpath
  exact ⟨s, u, v, _, hu, hpath, rfl, hadmits, hnodup⟩

end Design

end Chronogram

end
