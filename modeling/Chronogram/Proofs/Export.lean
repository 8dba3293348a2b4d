import Chronogram.Proofs.FormText
import Chronogram.Proofs.Substitution
import Chronogram.Proofs.Wiring

/-! The export of a verified component. It has one entry for each invocation, with the times of the callee's
events and the callee's ports on the caller's time axis. Widths and intervals are exported as texts, so what they
say is what is read from them: under every valuation of the caller the values that the callee declares, under the
valuation that the call induces. -/

namespace Chronogram

open Fallible

/-- What an exported width stands for: a number for itself, and a text for the value of the expression in it. -/
inductive Datum.Denotes (ρ : Symbol → Int) : Datum → Int → Prop
  | int (n : Int) : Denotes ρ (.int n) n
  | text {s : String} {e : Expr} (h : Expr.parse s = .ok e) : Denotes ρ (.str s) (e.eval ρ)

theorem Expr.Plain.spelled {e : Expr} (he : e.Plain) {f : LinearForm} (h : e.linearize = .ok f) :
    ∀ x ∈ f.symbols, x.Spelled := by
  intro x hx
  by_contra hspelled
  obtain ⟨ρ, σ, hsame, hne⟩ := (mem_symbols_iff_dependsOn h).1 hx
  refine hne (eval_congr (fun p hp => hsame p ?_) fun y hy => hsame _ ?_)
  · rintro rfl
    exact hspelled (.inl (he.1 p hp))
  · rintro rfl
    exact hspelled (.inr ⟨y, he.2 y hy, rfl⟩)

theorem LinearForm.denotes_datum {f : LinearForm} (h : ∀ x ∈ f.symbols, x.Spelled) {ρ : Symbol → Int}
    {w : Int} : f.datum.Denotes ρ w ↔ w = f.eval ρ := by
  unfold datum
  split
  next hconstant =>
    rw [eval_of_isConstant hconstant]
    constructor
    · rintro ⟨⟩
      rfl
    · rintro rfl
      exact .int _
  next =>
    obtain ⟨e, g, hparse, hform, hsame⟩ := exists_parse_text h
    have heval : e.eval ρ = f.eval ρ := by rw [← Expr.eval_linearize hform, eval_eq_of_same hsame]
    constructor
    · intro hw
      cases hw with
      | text hparse' =>
        rw [hparse] at hparse'
        rw [← Except.ok.inj hparse', heval]
    · rintro rfl
      rw [← heval]
      exact .text hparse

/-- A time on an event that has a time is moved to the event of that time. -/
theorem Time.isName_of_subst? {times : List (String × Time)} (hn : Named times) {t u : Time}
    (hmem : t.event ∈ times.map (·.1)) (h : t.subst? times = some u) : Token.isName u.event = true := by
  obtain ⟨target, htarget⟩ := Association.exists_lookup hmem
  have hname := hn _ (Association.mem_of_lookup htarget)
  rw [subst?, htarget] at h
  rw [Option.some.inj ((shift?_of_isName hname t.offset).symm.trans h).symm]
  exact hname

theorem Time.cycle_of_subst? {times : List (String × Time)} (hn : Named times) {t u : Time}
    (h : t.subst? times = some u) (v : Valuation) (params : List (String × Expr)) :
    u.cycle v.symbol = t.cycle (v.bound params times).symbol := by
  obtain ⟨u', hu', hcycle⟩ := exists_subst? hn t
  rw [← hcycle v params, Option.some.inj (hu'.symm.trans h)]

/-- An interval that times are put into has a text that is read as the interval. -/
theorem Interval.parse_text_of_subst {times : List (String × Time)} (hn : Time.Named times) {i j : Interval}
    (hstart : i.start.event ∈ times.map (·.1)) (hstop : i.stop.event ∈ times.map (·.1))
    (h : i.subst times = .ok j) : Interval.parse j.text = .ok j := by
  obtain ⟨hs, ht⟩ := bounds_of_subst h
  exact Interval.parse_text ⟨Time.isName_of_subst? hn hstart hs, Time.isName_of_subst? hn hstop ht⟩

namespace Call

variable {table : Table} {s : Signature} {b : Body}

/-- An exported width and an exported interval are those of a port of the callee. -/
structure Matches (k : Call table s b) (p : Port) (width : Datum) (interval : Interval) : Prop where
  value : ∀ (v : Valuation) (w : Int), width.Denotes v.symbol w ↔ w = p.width.eval (k.induced v).symbol
  start : ∀ v : Valuation, interval.start.cycle v.symbol = p.interval.start.cycle (k.induced v).symbol
  stop : ∀ v : Valuation, interval.stop.cycle v.symbol = p.interval.stop.cycle (k.induced v).symbol
  wide : ∀ v : Valuation, s.Admits v.symbol → ∀ w, width.Denotes v.symbol w → 1 ≤ w
  nonempty : ∀ v : Valuation, s.Admits v.symbol → interval.start.cycle v.symbol < interval.stop.cycle v.symbol

def PortEntry (k : Call table s b) (p : Port) (entry : Datum) : Prop :=
  ∃ (width : Datum) (text : String) (interval : Interval),
    entry = .object [("name", .str p.name), ("direction", .str p.direction.text), ("width", width),
      ("interval", .str text)] ∧
    Interval.parse text = .ok interval ∧ k.Matches p width interval

/-- The entry of a call: its statements, a time for each event of the callee and all ports of the callee. -/
def Entry (k : Call table s b) (entry : Datum) : Prop :=
  ∃ (events : List (String × Datum)) (ports : List Datum),
    entry = .object [("name", .str k.inv.name), ("instance", .str k.inst.name),
      ("component", .str k.inst.component), ("events", .object events), ("ports", .list ports)] ∧
    events.map (·.1) = k.callee.eventNames ∧
    List.Forall₂ (fun t event => ∃ text, event.2 = .str text ∧ Time.parse text = .ok t) k.inv.times events ∧
    List.Forall₂ k.PortEntry k.callee.ports ports

theorem names_times (k : Call table s b) (h : k.inv.times.length = k.callee.events.length) :
    k.times.map (·.1) = k.callee.eventNames := by
  rw [times, Association.names_zip, h, Signature.eventNames, ← List.length_map (f := Event.name), List.take_length]

theorem times_read (k : Call table s b) (hb : b.Plain) (h : k.inv.times.length = k.callee.events.length) :
    List.Forall₂ (fun t event => ∃ text, event.2 = Datum.str text ∧ Time.parse text = .ok t) k.inv.times
      (k.times.map fun x => (x.1, .str x.2.text)) := by
  have htimes : k.times.map (·.2) = k.inv.times := by
    refine List.map_snd_zip ?_
    rw [h, Signature.eventNames, List.length_map]
  have hread : ∀ x ∈ k.times, Time.parse x.2.text = .ok x.2 := fun x hx =>
    Time.parse_text (hb.invocations _ k.inv_mem _ (List.of_mem_zip hx).2)
  rw [← htimes, List.forall₂_map_left_iff, List.forall₂_map_right_iff, List.forall₂_same]
  exact fun x hx => ⟨_, rfl, hread x hx⟩

theorem plain_width (k : Call table s b) (ht : table.Built) (hb : b.Plain) {p : Port} (hp : p ∈ k.callee.ports) :
    (p.width.subst k.bindings []).Plain := by
  obtain ⟨-, -, hvalid⟩ := ht.registered k.registered
  have hbinds := k.binds ht hb
  have hover := hvalid.width p hp
  have hbound : ∀ q ∈ p.width.params, ∃ e, k.bindings.lookup q = some e ∧ e.Plain := by
    intro q hq
    obtain ⟨e, he⟩ := Association.exists_lookup (hbinds.total q (hover.params q hq))
    exact ⟨e, he, hbinds.plain _ (Association.mem_of_lookup he)⟩
  constructor
  · refine Expr.params_subst fun q hq => ?_
    obtain ⟨e, he, hplain⟩ := hbound q hq
    exact ⟨e, he, hplain.1⟩
  · refine Expr.events_subst (by simp [hover.events_eq_nil]) fun q hq => ?_
    obtain ⟨e, he, hplain⟩ := hbound q hq
    exact ⟨e, he, hplain.2⟩

theorem portEntry_of_bind (k : Call table s b) (ht : table.Built) (hb : b.Plain)
    (harity : k.inv.times.length = k.callee.events.length)
    (hadmits : ∀ v : Valuation, s.Admits v.symbol → k.callee.Admits (k.induced v).symbol)
    {p : Port} (hp : p ∈ k.callee.ports) {bound : BoundPort} (h : p.bind k.times k.bindings = .ok bound) :
    k.PortEntry p (portDatum bound.name bound.direction bound.width.datum bound.interval) := by
  obtain ⟨-, hplain, hvalid⟩ := ht.registered k.registered
  have hnamed : Time.Named k.times := Caller.named_zip (hb.invocations _ k.inv_mem) _
  have hmeans := Port.means_of_bind hnamed (hplain.width p hp) (hvalid.width p hp).events_eq_nil h
  simp only [Port.bind, bind_eq_ok, pure_eq_ok, Expr.toForm_eq_ok] at h
  obtain ⟨width, hwidth, interval, hinterval, rfl⟩ := h
  obtain ⟨hstart, hstop⟩ := Interval.bounds_of_subst hinterval
  -- the interval is on events of the callee, and all of these have a time
  obtain ⟨hstart', hstop'⟩ := hvalid.window p hp
  rw [← k.names_times harity] at hstart' hstop'
  have hvalue : ∀ (v : Valuation) (w : Int),
      width.datum.Denotes v.symbol w ↔ w = p.width.eval (k.induced v).symbol := by
    intro v w
    rw [LinearForm.denotes_datum ((k.plain_width ht hb hp).spelled hwidth), hmeans.width v]
    rfl
  have hbegin := fun v => Time.cycle_of_subst? hnamed hstart v k.bindings
  have hend := fun v => Time.cycle_of_subst? hnamed hstop v k.bindings
  refine ⟨_, _, interval, rfl, Interval.parse_text_of_subst hnamed hstart' hstop' hinterval, hvalue, hbegin, hend,
    fun v hv w hw => ?_, fun v hv => ?_⟩
  · rw [(hvalue v w).1 hw]
    exact (hadmits v hv).2 p hp
  · rw [hbegin, hend]
    exact hvalid.nonempty _ (hadmits v hv) p hp

/-- The triggering that an invocation makes is exported as the entry of its call. -/
theorem entry_of_schedule {c : Caller} {instances : List Instance} {schedule : Schedule}
    (hpass : b.Passes table c instances schedule) (hc : c.Registered) (ht : table.Built) (hb : b.Plain)
    {inv : Invocation} (hinv : inv ∈ b.invocations) {f : Firing}
    (h : c.schedule instances inv = .ok (some f, [])) :
    ∃ k : Call table c.signature b, (∀ l : Call table c.signature b, l.inv = inv ↔ l = k) ∧
      k.Entry f.datum := by
  obtain ⟨k, rfl, hcallee, hbindings, htimes⟩ := hpass.exists_call_of_schedule hinv h
  have hserves := Caller.serves_of_schedule hc (hpass.fits hc ht) (hb.invocations _ hinv) h
  obtain ⟨-, -, -, -, -, -, hports⟩ := Caller.schedule_eq_some h
  rw [hcallee, hbindings, htimes] at hports
  have harity : k.inv.times.length = k.callee.events.length := by rw [hserves.arity, hcallee]
  have hcomponent := (ht.registered k.registered).1
  have hinst : f.inst.name = k.inst.name := hserves.target.trans k.target.symm
  refine ⟨k, fun l => ⟨fun hl => hpass.call_eq hl, fun hl => by rw [hl]⟩,
    k.times.map fun x => (x.1, .str x.2.text),
    f.ports.map fun p => portDatum p.name p.direction p.width.datum p.interval, ?_, ?_, ?_, ?_⟩
  · rw [Firing.datum, hserves.name, hinst, hcallee, hcomponent, htimes]
  · rw [List.map_map]
    exact k.names_times harity
  · exact k.times_read hb harity
  · refine List.forall₂_map_right_iff.2 ((forall₂_mem (mapM_eq_ok.1 hports)).imp ?_)
    rintro p bound ⟨hp, -, hbind⟩
    exact k.portEntry_of_bind ht hb harity (fun v hv => hpass.admits hc ht hb k hv) hp hbind

end Call

/-- The export of a verified component lists the invocations of the body, in their order and each once. The
entry of an invocation has a time for each event of the callee and the ports of the callee in their order, with
the widths and intervals that the callee declares under the valuation that the call induces. Under what the
component admits, all widths are at least one and no interval is empty. -/
theorem faithful_export {t : Table} {c : Component} {b : Body} {out : Verified} (ht : t.Built) (hc : c.Plain)
    (hreg : t.get? c.name = some c.signature) (hb : c.body = some b) (h : c.check t = .ok (.verified out)) :
    ∃ entries : List Datum,
      out.datum = .object [("name", .str c.name),
        ("ports", .list (c.signature.ports.map fun p =>
          portDatum p.name p.direction (.str p.width.text) p.interval)),
        ("invocations", .list entries)] ∧
      (b.invocations.map (·.name)).Nodup ∧
      List.Forall₂ (fun inv entry => ∃ k : Call t c.signature b,
        (∀ l : Call t c.signature b, l.inv = inv ↔ l = k) ∧ k.callee.eventNames.Nodup ∧ k.callee.portNames.Nodup ∧
        k.Entry entry) b.invocations entries := by
  obtain ⟨facts, instances, schedule, hcaller, hpass, rfl⟩ := Component.passes_of_verified ht hreg hb h
  refine ⟨schedule.map (·.datum), rfl, Body.nodup_invocations hpass.labels, List.forall₂_map_right_iff.2 ?_⟩
  refine (forall₂_mem hpass.scheduled).imp ?_
  rintro inv f ⟨hinv, -, hf⟩
  obtain ⟨k, hk, hentry⟩ := Call.entry_of_schedule hpass hcaller ht (hc.body b hb) hinv hf
  obtain ⟨-, -, hvalid⟩ := ht.registered k.registered
  exact ⟨k, hk, hvalid.events_nodup, hvalid.ports_nodup, hentry⟩

namespace Keep

/-- One bit is less than the parameter says. -/
def width : Expr := .sub (.param "N") (.const 1)

def inst : Instantiation := { name := "r", component := "Register", args := [width], named := [] }

def first : Invocation :=
  { name := "i", target := "r", times := [⟨"G", 1⟩, ⟨"G", 4⟩], inputs := some [⟨none, "x"⟩] }

def second : Invocation :=
  { name := "j", target := "r", times := [⟨"G", 4⟩, ⟨"G", 7⟩], inputs := some [⟨none, "x"⟩] }

def body : Body where
  instances := [inst]
  invocations := [first, second]
  connections := [{ dest := ⟨none, "out"⟩, src := ⟨some "j", "out"⟩ }]

/-- A component that keeps two values in one register, each for two cycles. -/
def main : Component where
  signature := Primitives.element "Keep" "" ["N"] 6
    [{ name := "x", direction := .input, width, interval := Primitives.span 1 5 },
      Primitives.result width (Primitives.span 5 7)]
    [Primitives.clause (.param "N") .ge (.const 2)]
  body := some body

def table : Table := (Table.empty.registerAll [Primitives.register, main.signature]).1

theorem built : table.Built := (Table.sound_empty.registerAll (by decide +kernel)).built

theorem plain : main.Plain := by
  refine ⟨by decide +kernel, fun b hb => ?_⟩
  obtain rfl : body = b := Option.some.inj hb
  constructor
  · simp only [body, List.forall_mem_singleton, Instantiation.Plain, inst]
    decide
  · simp only [body, first, second, List.forall_mem_cons, Invocation.Plain]
    decide

theorem exists_verified : ∃ out, main.check table = .ok (.verified out) :=
  Component.exists_verified_of_isOk (by decide +kernel)

end Keep

theorem faithful_export_keep :
    ∃ (out : Verified) (i j : Datum) (k l : Call Keep.table Keep.main.signature Keep.body),
      Keep.main.check Keep.table = .ok (.verified out) ∧
      (∃ ports, out.datum = .object [("name", .str "Keep"), ("ports", ports), ("invocations", .list [i, j])]) ∧
      k.inv = Keep.first ∧ k.Entry i ∧ l.inv = Keep.second ∧ l.Entry j := by
  obtain ⟨out, hout⟩ := Keep.exists_verified
  obtain ⟨entries, hdatum, -, hentries⟩ :=
    faithful_export Keep.built Keep.plain (by decide +kernel) rfl hout
  cases hentries with
  | cons hi hrest =>
    cases hrest with
    | cons hj hnone =>
      cases hnone
      obtain ⟨k, hk, -, -, hfirst⟩ := hi
      obtain ⟨l, hl, -, -, hsecond⟩ := hj
      exact ⟨out, _, _, k, l, hout, ⟨_, hdatum⟩, (hk k).2 rfl, hfirst, (hl l).2 rfl, hsecond⟩

end Chronogram
