import Chronogram.Proofs.Spacing
import Chronogram.Proofs.Wiring

/-! Windows on a shared instance. The calls of an instance in one run of the caller are apart by the delays
of the callee, and so are the windows in which they need their sources on one of its inputs. Two of
these windows meet exactly if the earlier one is longer than the gap between them, hence not if it is
no longer than the delay. A signature may ask for more, though: nothing ties its windows to its
delays, and then two calls need different sources on one input in the same cycle. -/

namespace Chronogram

open Fallible

namespace Call

variable {table : Table} {s : Signature} {b : Body}

/-- The first cycle in which a call needs its source on an input. -/
def opens (k : Call table s b) (p : Port) (v : Valuation) : Int :=
  p.interval.start.cycle (k.induced v).symbol

/-- The first cycle in which it does not need the source any more. -/
def closes (k : Call table s b) (p : Port) (v : Valuation) : Int :=
  p.interval.stop.cycle (k.induced v).symbol

/-- Two calls need their sources on an input in the same cycle. -/
def Clash (k l : Call table s b) (p : Port) (v : Valuation) : Prop :=
  ∃ cycle, (Terminal.called k p).Covers v cycle ∧ (Terminal.called l p).Covers v cycle

theorem clash_iff {k l : Call table s b} {p : Port} {v : Valuation} (hle : k.opens p v ≤ l.opens p v)
    (hl : l.opens p v < l.closes p v) : k.Clash l p v ↔ l.opens p v < k.closes p v := by
  constructor
  · rintro ⟨cycle, ⟨-, hk⟩, hl, -⟩
    exact hl.trans_lt hk
  · intro hlt
    exact ⟨l.opens p v, ⟨hle, hlt⟩, le_refl _, hl⟩

end Call

namespace Body

variable {b : Body} {table : Table} {c : Caller} {instances : List Instance} {schedule : Schedule}
  {inst : Instantiation} {callee : Signature} {p : Port}

/-- The windows of two calls on a port begin at least the delay of the event apart on which they begin. -/
theorem Passes.opens_apart (h : b.Passes table c instances schedule) (hc : c.Registered)
    (ht : table.Built) (hb : b.Plain) (hreg : table.get? inst.component = some callee) {e : Event}
    (he : e ∈ callee.events) (hname : e.name = p.interval.start.event) {v : Valuation}
    (hv : c.signature.Admits v.symbol) {k l : Call.On table c.signature b inst} (hkl : k ≠ l)
    (hle : k.1.opens p v ≤ l.1.opens p v) :
    e.delay.eval (k.1.induced v).symbol ≤ l.1.opens p v - k.1.opens p v := by
  obtain ⟨own, -, start, offset, hslots⟩ := h.exists_slots hc ht hb hreg k he
  have hopens : ∀ m : Call.On table c.signature b inst,
      m.1.opens p v = v.event own.name + offset m + p.interval.start.offset := by
    intro m
    rw [Call.opens, Time.cycle_symbol, ← hname, hslots.event]
  rw [hopens, hopens] at hle ⊢
  have hpos := hslots.pos v hv l
  rcases hslots.apart v hv k l hkl with happ | happ <;> omega

theorem Passes.opens_lt_closes (h : b.Passes table c instances schedule) (hc : c.Registered)
    (ht : table.Built) (hb : b.Plain) (k : Call table c.signature b) (hp : p ∈ k.callee.ports)
    {v : Valuation} (hv : c.signature.Admits v.symbol) : k.opens p v < k.closes p v := by
  obtain ⟨-, -, hvalid⟩ := ht.registered k.registered
  exact hvalid.nonempty _ (h.admits hc ht hb k hv) p hp

end Body

/-- Any two calls of one instance in a verified component need their sources on an input of the callee at
distances of at least the delay of the event on which the window of the input begins. They need them
in a common cycle exactly if the earlier window is longer than this distance, and so never if it is
no longer than the delay. -/
theorem windows_on_shared_instance {t : Table} {c : Component} {b : Body} {out : Verified} (ht : t.Built)
    (hc : c.Plain) (hreg : t.get? c.name = some c.signature) (hb : c.body = some b)
    (h : c.check t = .ok (.verified out)) :
    ∀ inst ∈ b.instances,
      (∀ inv ∈ b.invocations, inv.target = inst.name →
        ∃! k : Call.On t c.signature b inst, k.1.inv = inv) ∧
      ∃ callee, t.get? inst.component = some callee ∧ ∀ p ∈ callee.inputs,
        ∃ e ∈ callee.events, e.name = p.interval.start.event ∧
          ∀ v : Valuation, c.signature.Admits v.symbol → ∀ k l : Call.On t c.signature b inst, k ≠ l →
            k.1.opens p v ≤ l.1.opens p v →
              e.delay.eval (k.1.induced v).symbol ≤ l.1.opens p v - k.1.opens p v ∧
              (k.1.Clash l.1 p v ↔ l.1.opens p v - k.1.opens p v < k.1.closes p v - k.1.opens p v) ∧
              (k.1.closes p v - k.1.opens p v ≤ e.delay.eval (k.1.induced v).symbol →
                ¬ k.1.Clash l.1 p v) := by
  obtain ⟨facts, instances, schedule, hcaller, hpass⟩ := Component.passes_of_check ht hreg hb h
  have hplain := hc.body b hb
  intro inst hinst
  obtain ⟨callee, hcallee⟩ := hpass.exists_callee hinst
  refine ⟨fun inv hinv htarget => hpass.existsUnique_call hinst hinv htarget, callee, hcallee, ?_⟩
  intro p hp
  have hport : p ∈ callee.ports := (List.mem_filter.1 hp).1
  obtain ⟨-, -, hvalid⟩ := ht.registered hcallee
  obtain ⟨e, he, hname⟩ := List.mem_map.1 (hvalid.window p hport).1
  refine ⟨e, he, hname, fun v hv k l hkl hle => ?_⟩
  have hgap := hpass.opens_apart hcaller ht hplain hcallee he hname hv hkl hle
  have hl : l.1.opens p v < l.1.closes p v :=
    hpass.opens_lt_closes hcaller ht hplain l.1 (by rwa [l.callee_eq hcallee]) hv
  rw [Call.clash_iff hle hl]
  refine ⟨hgap, ?_, ?_⟩ <;> omega

namespace Hold

def window (n : Nat) : Interval := ⟨⟨"G", 0⟩, ⟨"G", n + 1⟩, fun _ => Int.lt_add_one_of_le n.cast_nonneg⟩

def input (name : String) (n : Nat) : Port :=
  { name, direction := .input, width := .const 8, interval := window n }

/-- A component that may be triggered in every cycle and wants its first input for three cycles. -/
def callee : Signature := Primitives.element "Hold" "" [] 1 [input "x" 2, input "y" 0]

def inst : Instantiation := { name := "h", component := "Hold", args := [], named := [] }

def first : Invocation :=
  { name := "i", target := "h", times := [⟨"G", 0⟩], inputs := some [⟨none, "a"⟩, ⟨none, "a"⟩] }

def second : Invocation :=
  { name := "j", target := "h", times := [⟨"G", 1⟩], inputs := some [⟨none, "b"⟩, ⟨none, "b"⟩] }

def body : Body where
  instances := [inst]
  invocations := [first, second]
  connections := []

/-- A component that triggers the other one in two successive cycles, with a source for each. -/
def main : Component where
  signature := Primitives.element "Main" "" [] 2 [input "a" 3, input "b" 3]
  body := some body

def table : Table := (Table.empty.registerAll [callee, main.signature]).1

theorem built : table.Built := (Table.sound_empty.registerAll (by decide +kernel)).built

theorem plain : main.Plain := by
  refine ⟨by decide +kernel, fun b hb => ?_⟩
  obtain rfl : body = b := Option.some.inj hb
  refine ⟨by simp [body, inst, Instantiation.Plain], ?_⟩
  simp only [body, first, second, List.forall_mem_cons, Invocation.Plain]
  decide

theorem registered : table.get? main.name = some main.signature ∧ table.get? "Hold" = some callee := by
  decide +kernel

theorem exists_verified : ∃ out, main.check table = .ok (.verified out) :=
  Component.exists_verified_of_isOk (by decide +kernel)

def origin : Valuation := ⟨fun _ => 0, fun _ => 0⟩

theorem admitted : main.signature.Admits origin.symbol := by decide +kernel

abbrev Calls : Type := Call.On table main.signature body inst

theorem window_of_call {k : Calls} {cycle : Int} (hk : k.1.inv.times = [⟨"G", cycle⟩]) (name : String)
    (n : Nat) : k.1.opens (input name n) origin = cycle ∧
      k.1.closes (input name n) origin = cycle + (n + 1) := by
  have htimes : k.1.times.lookup "G" = some ⟨"G", cycle⟩ := by
    rw [Call.times, k.callee_eq registered.2, hk]
    rfl
  simp only [Call.opens, Call.closes, Call.induced, Time.cycle_symbol, input, window,
    Valuation.event_bound htimes]
  simp [origin]

theorem exists_calls : ∃ k l : Calls, k.1.inv = first ∧ l.1.inv = second := by
  obtain ⟨out, hout⟩ := exists_verified
  obtain ⟨facts, instances, schedule, -, hpass⟩ :=
    Component.passes_of_check built registered.1 rfl hout
  have hinst : inst ∈ body.instances := by simp [body]
  obtain ⟨k, hk, -⟩ := hpass.existsUnique_call hinst (show first ∈ body.invocations by simp [body]) rfl
  obtain ⟨l, hl, -⟩ := hpass.existsUnique_call hinst (show second ∈ body.invocations by simp [body]) rfl
  exact ⟨k, l, hk, hl⟩

end Hold

/-- In the sample the windows on the second input are apart. -/
theorem windows_on_shared_instance_hold : ∃ k l : Hold.Calls, k.1.inv = Hold.first ∧
    l.1.inv = Hold.second ∧ Hold.input "y" 0 ∈ Hold.callee.inputs ∧
    ¬ k.1.Clash l.1 (Hold.input "y" 0) Hold.origin := by
  obtain ⟨out, hout⟩ := Hold.exists_verified
  obtain ⟨k, l, hk, hl⟩ := Hold.exists_calls
  have hkl : k ≠ l := by
    rintro rfl
    exact absurd (hk.symm.trans hl) (by decide)
  obtain ⟨hopen, hclose⟩ := Hold.window_of_call (k := k) (by rw [hk]; rfl) "y" 0
  obtain ⟨hopen', -⟩ := Hold.window_of_call (k := l) (by rw [hl]; rfl) "y" 0
  have hmem : Hold.input "y" 0 ∈ Hold.callee.inputs := by decide
  obtain ⟨-, callee, hcallee, hwindows⟩ := windows_on_shared_instance Hold.built Hold.plain
    Hold.registered.1 rfl hout Hold.inst (List.mem_singleton.2 rfl)
  obtain rfl : callee = Hold.callee := Option.some.inj (hcallee.symm.trans Hold.registered.2)
  obtain ⟨e, he, -, hapart⟩ := hwindows _ hmem
  obtain rfl : e = Hold.callee.primary := List.mem_singleton.1 he
  obtain ⟨-, -, hnone⟩ := hapart _ Hold.admitted k l hkl (by omega)
  refine ⟨k, l, hk, hl, hmem, hnone ?_⟩
  rw [hopen, hclose]
  exact le_refl 1

/-- In the sample, where the component is verified, one call needs `a` and another call needs `b` on the
first input in the same cycle. -/
theorem clash_on_shared_instance : ∃ (out : Verified) (k l : Hold.Calls),
    Hold.main.check Hold.table = .ok (.verified out) ∧ Hold.main.signature.Admits Hold.origin.symbol ∧
    k.1.inv = Hold.first ∧ l.1.inv = Hold.second ∧ Hold.first ≠ Hold.second ∧
    Hold.input "x" 2 ∈ Hold.callee.inputs ∧ k.1.Clash l.1 (Hold.input "x" 2) Hold.origin := by
  obtain ⟨out, hout⟩ := Hold.exists_verified
  obtain ⟨k, l, hk, hl⟩ := Hold.exists_calls
  obtain ⟨hopen, hclose⟩ := Hold.window_of_call (k := k) (by rw [hk]; rfl) "x" 2
  obtain ⟨hopen', hclose'⟩ := Hold.window_of_call (k := l) (by rw [hl]; rfl) "x" 2
  refine ⟨out, k, l, hout, Hold.admitted, hk, hl, by decide, by decide, ?_⟩
  rw [Call.clash_iff] <;> omega

end Chronogram
