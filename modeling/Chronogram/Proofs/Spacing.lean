import Chronogram.Proofs.Delays
import Chronogram.Proofs.Nesting

/-! Pipelined runs. A component may run again while it is still busy, as long as any two runs are apart by
its delays. All triggerings of an instance in its body, over all of these runs, are then apart by the
delays of the callee, so that the callee is pipelined in turn, and so on through all levels. -/

namespace Chronogram

open Fallible

/-- Any two runs are at least the delay of the event apart, as it is in the one that is earlier on this
event. -/
def Event.Spaced {ι : Type} (e : Event) (runs : ι → Valuation) : Prop :=
  ∀ i j, i ≠ j → (runs i).event e.name ≤ (runs j).event e.name →
    e.delay.eval (runs i).symbol ≤ (runs j).event e.name - (runs i).event e.name

/-- Runs of one component that is built for fixed parameters. -/
structure Signature.Pipelined {ι : Type} (s : Signature) (runs : ι → Valuation) : Prop where
  admits : ∀ i, s.Admits (runs i).symbol
  params : ∀ i j, ∀ p ∈ s.paramNames, (runs i).param p = (runs j).param p
  spaced : ∀ e ∈ s.events, e.Spaced runs

/-- The slots that calls have on an event `e` of their callee: each lies at an offset from an event `own`
of the caller. Within one run the slots are apart, and all are over when `own` may occur again. -/
structure Slots {κ : Type} (s : Signature) (e : Event) (calls : κ → Valuation → Valuation) (own : Event)
    (start : Int) (offset : κ → Int) : Prop where
  event : ∀ k v, (calls k v).event e.name = v.event own.name + offset k
  start_le : ∀ k, start ≤ offset k
  pos : ∀ v, s.Admits v.symbol → ∀ k, 0 < e.delay.eval (calls k v).symbol
  finished : ∀ v, s.Admits v.symbol → ∀ k,
    e.delay.eval (calls k v).symbol + (offset k - start) ≤ own.delay.eval v.symbol
  apart : ∀ v, s.Admits v.symbol → ∀ k l, k ≠ l →
    e.delay.eval (calls k v).symbol ≤ offset l - offset k ∨
      e.delay.eval (calls l v).symbol ≤ offset k - offset l

/-- Slots of different runs do not come too close either. -/
theorem Slots.spaced {ι κ : Type} {s : Signature} {e own : Event} {calls : κ → Valuation → Valuation}
    {start : Int} {offset : κ → Int} {runs : ι → Valuation} (h : Slots s e calls own start offset)
    (hown : own ∈ s.events) (hruns : s.Pipelined runs) :
    e.Spaced fun x : ι × κ => calls x.2 (runs x.1) := by
  rintro ⟨i, k⟩ ⟨j, l⟩ hne hle
  simp only [h.event] at hle ⊢
  have hk := h.finished _ (hruns.admits i) k
  have hl := h.finished _ (hruns.admits j) l
  have hposl := h.pos _ (hruns.admits j) l
  have hstartk := h.start_le k
  have hstartl := h.start_le l
  by_cases hij : i = j
  · subst hij
    have hkl : k ≠ l := fun hkl => hne (by rw [hkl])
    rcases h.apart _ (hruns.admits i) k l hkl with happ | happ <;> omega
  · -- the run that is earlier on `own` is over before the other one gets to its slots
    rcases le_total ((runs i).event own.name) ((runs j).event own.name) with hrun | hrun
    · have := hruns.spaced own hown i j hij hrun
      omega
    · have := hruns.spaced own hown j i (Ne.symm hij) hrun
      omega

namespace Call

variable {table : Table} {s : Signature} {b : Body} {inst : Instantiation} {callee : Signature}

abbrev On (table : Table) (s : Signature) (b : Body) (inst : Instantiation) : Type :=
  { k : Call table s b // k.inst = inst }

/-- The triggerings of an instance, one for each run of the caller and each call. -/
def triggerings {ι : Type} (runs : ι → Valuation) (x : ι × On table s b inst) : Valuation :=
  x.2.1.induced (runs x.1)

theorem On.callee_eq (hreg : table.get? inst.component = some callee) (k : On table s b inst) :
    k.1.callee = callee := by
  obtain ⟨k, rfl⟩ := k
  simpa [hreg] using k.registered.symm

theorem On.bindings_eq (k l : On table s b inst) : k.1.bindings = l.1.bindings := by
  obtain ⟨k, hk⟩ := k
  obtain ⟨l, rfl⟩ := l
  have hcallee : k.callee = l.callee := On.callee_eq l.registered ⟨k, hk⟩
  obtain ⟨facts, hbound⟩ := k.bound
  obtain ⟨facts', hbound'⟩ := l.bound
  rw [hk, hcallee] at hbound
  exact Call.bindings_eq hbound hbound'

end Call

namespace Body

variable {b : Body} {table : Table} {c : Caller} {instances : List Instance} {schedule : Schedule}
  {inst : Instantiation} {callee : Signature}

theorem Passes.exists_slots (h : b.Passes table c instances schedule) (hc : c.Registered)
    (ht : table.Built) (hb : b.Plain) (hreg : table.get? inst.component = some callee)
    (k₀ : Call.On table c.signature b inst) {e : Event} (he : e ∈ callee.events) :
    ∃ own ∈ c.signature.events, ∃ start offset, Slots c.signature e
      (fun (k : Call.On table c.signature b inst) v => k.1.induced v) own start offset := by
  choose firing hmem hserves hcallee hbindings htimes using
    fun k : Call.On table c.signature b inst => h.exists_firing hc ht hb k.1
  have htarget : ∀ k, (firing k).inst.name = inst.name := by
    intro k
    rw [(hserves k).target, ← k.1.target, k.2]
  have hlogs := Caller.logs_history hc (h.fits hc ht) hb.invocations h.scheduled (hmem k₀)
  have he₀ : e ∈ (firing k₀).inst.signature.events := by rwa [hcallee, k₀.callee_eq hreg]
  have hlog : ∀ k, firing k ∈ schedule.history (firing k₀).inst.name := by
    intro k
    rw [htarget k₀, ← htarget k]
    exact Caller.mem_history (hmem k)
  obtain ⟨own, hown, start, hsep⟩ := Caller.separates_of_checkDelays hc (hmem k₀) hlogs h.spaced he₀
  choose time htime _ _ using fun k => hlogs.exists_time he₀ (hlog k)
  have hdelay : ∀ (k : Call.On table c.signature b inst) v,
      (firing k).delayAt e v = e.delay.eval (k.1.induced v).symbol := by
    intro k v
    rw [Firing.delayAt, hbindings, htimes, Call.induced]
  obtain ⟨ρ, hρ⟩ := hc.valid.admitted
  obtain ⟨v₀, rfl⟩ := Valuation.exists_symbol_eq ρ
  refine ⟨own, hown, start, fun k => (time k).offset, ?_, ?_, ?_, ?_, ?_⟩
  · intro k v
    have hlookup : k.1.times.lookup e.name = some (time k) := by
      rw [← htimes k]
      exact htime k
    rw [Call.induced, Valuation.event_bound hlookup, ((hsep v₀ hρ).finished _ (hlog k) _ (htime k)).1]
  · exact fun k => ((hsep v₀ hρ).finished _ (hlog k) _ (htime k)).2.1
  · intro v hv k
    rw [← hdelay]
    exact hlogs.delay_pos he₀ (hlog k) hv
  · intro v hv k
    rw [← hdelay]
    exact ((hsep v hv).finished _ (hlog k) _ (htime k)).2.2
  · intro v hv k l hkl
    rw [← hdelay, ← hdelay]
    refine (hsep v hv).apart _ (hlog k) _ (hlog l) ?_ _ _ (htime k) (htime l)
    intro hfirings
    exact hkl (Subtype.ext (h.call_eq_of_serves (hfirings ▸ hserves k) (hserves l)))

/-- The callee of an instance is pipelined whenever the caller is. -/
theorem Passes.pipelined (h : b.Passes table c instances schedule) (hc : c.Registered)
    (ht : table.Built) (hb : b.Plain) (hreg : table.get? inst.component = some callee) {ι : Type}
    {runs : ι → Valuation} (hruns : c.signature.Pipelined runs) :
    callee.Pipelined fun x : ι × Call.On table c.signature b inst => Call.triggerings runs x := by
  constructor
  · rintro ⟨i, k⟩
    rw [← k.callee_eq hreg]
    exact h.admits hc ht hb k.1 (hruns.admits i)
  · rintro ⟨i, k⟩ ⟨j, l⟩ p hp
    have hbinds := k.1.binds ht hb
    rw [k.callee_eq hreg] at hbinds
    obtain ⟨arg, harg⟩ := Association.exists_lookup (hbinds.total p hp)
    have hmem := Association.mem_of_lookup harg
    have hover := hbinds.values _ hmem
    rw [Call.triggerings, Call.triggerings, Call.induced, Call.induced, Valuation.param_bound harg,
      Valuation.param_bound (k.bindings_eq l ▸ harg)]
    refine Expr.eval_congr_of_plain (hbinds.plain _ hmem) (fun q hq => ?_) ?_
    · exact hruns.params i j q (hover.params q hq)
    · simp [hover.events_eq_nil]
  · intro e he x y hne hle
    obtain ⟨own, hown, start, offset, hslots⟩ := h.exists_slots hc ht hb hreg x.2 he
    exact hslots.spaced hown hruns x y hne hle

theorem Passes.exists_callee (h : b.Passes table c instances schedule) (hi : inst ∈ b.instances) :
    ∃ callee, table.get? inst.component = some callee := by
  obtain ⟨i, -, hresolve⟩ := exists_right_of_forall₂ h.resolved hi
  obtain ⟨-, -, hget, -⟩ := Caller.resolve_eq_some hresolve
  exact ⟨i.signature, hget⟩

theorem Passes.existsUnique_call (h : b.Passes table c instances schedule) (hi : inst ∈ b.instances)
    {inv : Invocation} (hinv : inv ∈ b.invocations) (htarget : inv.target = inst.name) :
    ∃! k : Call.On table c.signature b inst, k.1.inv = inv := by
  obtain ⟨k, rfl⟩ := h.exists_call hinv
  obtain rfl := inst_eq_of_name h.labels k.inst_mem hi (k.target.trans htarget)
  refine ⟨⟨k, rfl⟩, rfl, ?_⟩
  rintro ⟨l, hl⟩ hlk
  exact Subtype.ext (h.call_eq hlk)

end Body

namespace Design

variable {d : Design} {t : Table}

/-- The instances inside a component that runs with `runs`, at every depth: the signature of each one and
all of its triggerings. -/
inductive Nested (d : Design) (t : Table) {ι : Type} (s : Signature) (runs : ι → Valuation) :
    {κ : Type} → Signature → (κ → Valuation) → Prop
  | self : Nested d t s runs s runs
  | part {κ : Type} {c : Component} {b : Body} {inst : Instantiation} {callee : Signature}
      {outer : κ → Valuation} (h : Nested d t s runs c.signature outer) (hc : c ∈ d.components)
      (hb : c.body = some b) (hi : inst ∈ b.instances)
      (hreg : t.get? inst.component = some callee) :
      Nested d t s runs callee fun x : κ × Call.On t c.signature b inst => Call.triggerings outer x

theorem Accepted.pipelined (ha : d.Accepted t) {ι κ : Type} {s callee : Signature}
    {runs : ι → Valuation} {inner : κ → Valuation} (hruns : s.Pipelined runs)
    (h : d.Nested t s runs callee inner) : callee.Pipelined inner := by
  induction h with
  | self => exact hruns
  | part _ hc hb _ hreg ih =>
    obtain ⟨facts, instances, schedule, hcaller, hpass⟩ := ha.passes hc hb
    exact hpass.pipelined hcaller ha.sound.built (ha.bodyPlain hc hb) hreg ih

end Design

/-- Pipelined runs of a verified component make pipelined runs of every instance in its body, where the
runs of an instance are all pairs of a run of the component and an invocation of the instance. In a
design whose report is in order this holds for the instances at every depth, whichever plain library
it was checked with. -/
theorem pipelined_instances :
    (∀ (t : Table) (c : Component) (b : Body) (out : Verified), t.Built → c.Plain →
      t.get? c.name = some c.signature → c.body = some b → c.check t = .ok (.verified out) →
      ∀ (ι : Type) (runs : ι → Valuation), c.signature.Pipelined runs → ∀ inst ∈ b.instances,
        (∀ inv ∈ b.invocations, inv.target = inst.name →
          ∃! k : Call.On t c.signature b inst, k.1.inv = inv) ∧
        ∃ callee, t.get? inst.component = some callee ∧
          callee.Pipelined fun x : ι × Call.On t c.signature b inst => Call.triggerings runs x) ∧
    ∀ (d : Design) (primitives : List Signature) (search : Hierarchy.Search) (report : Report),
      d.Readable → (∀ s ∈ primitives, s.Plain) → search.Finds →
      d.check primitives search = .ok report → report.isOk = true →
      ∃ t, d.table primitives = .ok (t, []) ∧
        ∀ (ι κ : Type) (s callee : Signature) (runs : ι → Valuation) (inner : κ → Valuation),
          s.Pipelined runs → d.Nested t s runs callee inner → callee.Pipelined inner := by
  constructor
  · intro t c b out ht hc hreg hb hcheck ι runs hruns inst hinst
    obtain ⟨facts, instances, schedule, hcaller, hpass⟩ :=
      Component.passes_of_check ht hreg hb hcheck
    obtain ⟨callee, hcallee⟩ := hpass.exists_callee hinst
    refine ⟨fun inv hinv htarget => hpass.existsUnique_call hinst hinv htarget, callee, hcallee, ?_⟩
    exact hpass.pipelined hcaller ht (hc.body b hb) hcallee hruns
  · intro d primitives search report hd hp hs hcheck hok
    obtain ⟨t, htable, ha⟩ := Design.accepted_of_check hd.plain hp hs hcheck hok
    exact ⟨t, htable, fun _ _ _ _ _ _ hruns h => ha.pipelined hruns h⟩

def Design.Sample.runs (n : ℕ) : Valuation := ⟨fun _ => 1, fun _ => 2 * n⟩

theorem Design.Sample.pipelined (s : Design.Sample) :
    s.twice.signature.Pipelined Design.Sample.runs := by
  refine ⟨fun n => s.admits _, fun _ _ _ _ => rfl, fun e he i j hij hle => ?_⟩
  have hdelay := List.mem_map_of_mem (f := (·.delay)) he
  rw [s.delays, List.mem_singleton] at hdelay
  simp only [hdelay, Expr.eval, Design.Sample.runs] at hle ⊢
  omega

/-- In the sample, two calls in each of the overlapping runs keep the instance of `Flip` pipelined, and
the primitive inside it. -/
theorem pipelined_instances_sample :
    ∃ (s : Design.Sample) (t : Table) (inst inst' : Instantiation) (deep : Signature),
      s.design.table Primitives.core = .ok (t, []) ∧
      (∃ k l : Call.On t s.twice.signature s.outer inst, k ≠ l) ∧
      (s.flip.signature.Pipelined fun x : ℕ × Call.On t s.twice.signature s.outer inst =>
        Call.triggerings Design.Sample.runs x) ∧
      t.get? inst'.component = some deep ∧
      deep.Pipelined fun x : (ℕ × Call.On t s.twice.signature s.outer inst) ×
        Call.On t s.flip.signature s.inner inst' =>
          Call.triggerings (Call.triggerings Design.Sample.runs) x := by
  obtain ⟨s⟩ := Design.nonempty_sample
  obtain ⟨t, htable, ha⟩ := s.exists_accepted
  obtain ⟨inst, hinst, i, hi, j, hj, hti, htj, hij⟩ := s.outer_calls
  obtain ⟨inst', hinst', -⟩ := s.inner_calls
  obtain ⟨out, hout⟩ := ha.verified _ s.twice_mem _ s.twice_body
  obtain ⟨hcalls, callee, hcallee, hflip⟩ := pipelined_instances.1 t s.twice s.outer out ha.sound.built
    (ha.plain.components _ s.twice_mem) (ha.registered _ s.twice_mem) s.twice_body hout ℕ
    Design.Sample.runs s.pipelined inst hinst
  obtain ⟨k, hk, -⟩ := hcalls i hi hti
  obtain ⟨l, hl, -⟩ := hcalls j hj htj
  have hkl : k ≠ l := by
    rintro rfl
    exact hij (by rw [← hk, ← hl])
  have hreg : t.get? inst.component = some s.flip.signature := by
    rw [s.outer_uses _ hinst]
    exact ha.registered _ s.flip_mem
  obtain rfl : callee = s.flip.signature := by simpa [hreg] using hcallee.symm
  obtain ⟨u, hu, hdeep⟩ := pipelined_instances.2 s.design _ _ s.report s.readable
    (Primitives.usable_core _).plain Hierarchy.finds_cycle? s.checked s.isOk
  obtain rfl : u = t := by simpa [hu] using htable
  obtain ⟨facts, instances, schedule, -, hpass⟩ := ha.passes s.flip_mem s.flip_body
  obtain ⟨deep, hdeepreg⟩ := hpass.exists_callee hinst'
  refine ⟨s, u, inst, inst', deep, htable, ⟨k, l, hkl⟩, hflip, hdeepreg, ?_⟩
  have hself : s.design.Nested u s.twice.signature Design.Sample.runs s.twice.signature
      Design.Sample.runs := .self
  have houter := hself.part s.twice_mem s.twice_body hinst hreg
  exact hdeep _ _ _ _ _ _ s.pipelined (houter.part s.flip_mem s.flip_body hinst' hdeepreg)

end Chronogram
