import Chronogram.Check.Wiring
import Chronogram.Proofs.Spacing

/-! Wires of a body that passes its check. Both ends of a wire exist, one is a source and the other a
sink, their widths agree, and the value is there in each cycle in which it is needed. A port of an
invocation is what the callee declares, read under the valuation that the call induces. -/

namespace Chronogram

open Fallible

namespace Time

theorem compare_eq_ok {r : Relation} {t s : Time} {holds : Bool} :
    t.compare r s = .ok holds ↔ t.event = s.event ∧ holds = decide (r.Holds t.offset s.offset) := by
  unfold compare
  split
  next h => simp [h, eq_comm]
  next h => simp [h]

end Time

theorem Interval.covers_of_contains {required available : Interval}
    (h : contains required available = .ok true) {v : Valuation} {cycle : Int}
    (hc : required.Covers v.symbol cycle) : available.Covers v.symbol cycle := by
  simp only [contains, bind_eq_ok, pure_eq_ok, Time.compare_eq_ok] at h
  obtain ⟨_, ⟨hstart, rfl⟩, _, ⟨hstop, rfl⟩, h⟩ := h
  rw [Bool.and_eq_true, decide_eq_true_eq, decide_eq_true_eq] at h
  simp only [Relation.Holds] at h
  simp only [Covers, Time.cycle_symbol, hstart, ← hstop] at hc ⊢
  omega

/-- What an end of a wire can be: a port of the component itself, or one of an invocation in its body. -/
inductive Terminal (table : Table) (s : Signature) (b : Body) where
  | own (p : Port)
  | called (k : Call table s b) (p : Port)

namespace Terminal

variable {table : Table} {s : Signature} {b : Body}

def port : Terminal table s b → Port
  | own p => p
  | called _ p => p

/-- The valuation under which the declaration of the port is read, where the component runs with `v`. -/
def valuation (v : Valuation) : Terminal table s b → Valuation
  | own _ => v
  | called k _ => k.induced v

def width (x : Terminal table s b) (v : Valuation) : Int := x.port.width.eval (x.valuation v).symbol

def Covers (x : Terminal table s b) (v : Valuation) (cycle : Int) : Prop :=
  x.port.interval.Covers (x.valuation v).symbol cycle

/-- Sources are the inputs of the component and the outputs of invocations, sinks the other ports. -/
def Plays : Role → Terminal table s b → Prop
  | .source, own p => p.direction = .input
  | .source, called _ p => p.direction = .output
  | .sink, own p => p.direction = .output
  | .sink, called _ p => p.direction = .input

theorem plays_own {role : Role} {p : Port} :
    (own p : Terminal table s b).Plays role ↔ p.direction = role.ofCaller := by
  cases role <;> exact Iff.rfl

theorem plays_called {role : Role} {k : Call table s b} {p : Port} :
    (called k p).Plays role ↔ p.direction = role.ofFiring := by
  cases role <;> exact Iff.rfl

/-- What a reference stands for: a port is named alone, or behind the name of its invocation. -/
def Named (ref : PortRef) : Terminal table s b → Prop
  | own p => p ∈ s.ports ∧ ref = ⟨none, p.name⟩
  | called k p => p ∈ k.callee.ports ∧ ref = ⟨some k.inv.name, p.name⟩

end Terminal

/-- The end that the check works with shows what the terminal is. -/
structure Endpoint.Shows {table : Table} {s : Signature} {b : Body} (e : Endpoint)
    (x : Terminal table s b) : Prop where
  width : ∀ v : Valuation, e.width.eval v.symbol = x.width v
  covers : ∀ (v : Valuation) (cycle : Int), e.interval.Covers v.symbol cycle ↔ x.Covers v cycle

/-- The wires of a body, from a source to a destination: the positional inputs of its invocations and
its connections. -/
inductive Body.Wired (table : Table) (s : Signature) (b : Body) : (dest src : PortRef) → Prop
  | input (k : Call table s b) {sources : List PortRef} {p : Port} {src : PortRef}
      (hs : k.inv.inputs = some sources) (hp : (p, src) ∈ k.callee.inputs.zip sources) :
      Wired table s b ⟨some k.inv.name, p.name⟩ src
  | connection {c : Connection} (hc : c ∈ b.connections) : Wired table s b c.dest c.src

namespace Bench

variable {bench : Bench} {ref : PortRef} {role : Role} {loc : Option Loc}

theorem exists_step_of_walk {ws : Wires} {steps : List Step}
    (h : (bench.walk ws steps).2 = .ok []) {s : Step} (hs : s ∈ steps) :
    ∃ ws₁ ws₂, bench.step ws₁ s = .ok (ws₂, []) := by
  induction steps generalizing ws with
  | nil => simp at hs
  | cons first rest ih =>
    rw [walk] at h
    split at h
    · cases h
    next ws' found hstep =>
      obtain ⟨later, hlater, hnil⟩ := map_eq_ok.1 h
      obtain ⟨rfl, rfl⟩ := List.append_eq_nil_iff.1 hnil
      rcases List.mem_cons.1 hs with rfl | hs
      · exact ⟨ws, ws', hstep⟩
      · exact ih hlater hs

theorem walk_of_check {ws : Wires} {body : Body} (h : (bench.check ws body).2 = .ok []) :
    (bench.walk ws (bench.steps body)).2 = .ok [] := by
  obtain ⟨found, hfound, hnil⟩ := map_eq_ok.1 h
  rw [(List.append_eq_nil_iff.1 hnil).1] at hfound
  exact hfound

/-- An end that cannot be resolved is complained about, unless its invocation was before. -/
theorem found_of_endpoint (hf : bench.failed = []) {found : List Diagnostic}
    (h : bench.endpoint ref role loc = .ok (none, found)) : found ≠ [] := by
  unfold endpoint at h
  split at h
  · unfold callerEnd at h
    split at h
    · cases h
      simp
    · split at h
      · obtain ⟨width, -, h⟩ := bind_eq_ok.1 h
        cases h
      · cases h
        simp
  · unfold firingEnd at h
    rw [hf] at h
    split at h
    next hmem => simp at hmem
    · split at h
      · cases h
        simp
      · split at h
        · cases h
          simp
        · split at h
          · simp at h
          · cases h
            simp

theorem succeeds_endpoint (hc : bench.caller.Registered) :
    Succeeds (bench.endpoint ref role loc) := by
  unfold endpoint
  split
  · unfold callerEnd
    split
    · exact succeeds_pure _
    next p hp =>
      refine .ite (fun _ => ?_) fun _ => succeeds_pure _
      have hlinear := (hc.valid.width p (List.mem_of_find?_eq_some hp)).linear
      exact (Expr.succeeds_toForm hlinear).bind fun _ _ => succeeds_pure _
  · exact succeeds_pure _

theorem succeeds_step (hc : bench.caller.Registered) (ws : Wires) (s : Step) :
    Succeeds (bench.step ws s) := by
  cases s with
  | misfit invocation complaint => exact succeeds_pure _
  | wire w =>
    refine (succeeds_endpoint hc).bind fun (dest?, _) _ => ?_
    refine (succeeds_endpoint hc).bind fun (src?, _) _ => ?_
    cases dest? with
    | none => exact succeeds_pure _
    | some dest =>
      dsimp only
      split
      · exact succeeds_pure _
      · cases src? <;> exact succeeds_pure _

theorem succeeds_walk (hc : bench.caller.Registered) (ws : Wires) (steps : List Step) :
    Succeeds (bench.walk ws steps).2 := by
  induction steps generalizing ws with
  | nil => exact succeeds_pure []
  | cons s rest ih =>
    obtain ⟨⟨ws', found⟩, hstep⟩ := succeeds_step hc ws s
    obtain ⟨later, hlater⟩ := ih ws'
    rw [walk, hstep]
    exact ⟨found ++ later, map_eq_ok.2 ⟨later, hlater, rfl⟩⟩

theorem succeeds_check (hc : bench.caller.Registered) (ws : Wires) (body : Body) :
    Succeeds (bench.check ws body).2 := by
  obtain ⟨found, hfound⟩ := succeeds_walk hc ws (bench.steps body)
  exact ⟨_, map_eq_ok.2 ⟨found, hfound, rfl⟩⟩

theorem checkWidths_eq_nil {dest src : Endpoint} (h : bench.checkWidths dest src loc = [])
    (ρ : Symbol → Int) : src.width.eval ρ = dest.width.eval ρ := by
  unfold checkWidths at h
  split at h
  next hsame => exact (LinearForm.eval_eq_of_same hsame).symm
  · cases h

theorem checkIntervals_eq_nil {dest src : Endpoint} (h : bench.checkIntervals dest src loc = []) :
    Interval.contains dest.interval src.interval = .ok true := by
  unfold checkIntervals at h
  dsimp only at h
  split at h
  next hverdict =>
    obtain ⟨holds, hholds, hrest⟩ := bind_eq_ok.1 hverdict
    cases holds with
    | true => exact hholds
    | false =>
      obtain ⟨gap, -, hgap⟩ := bind_eq_ok.1 hrest
      cases hgap
  · cases h
  · cases h

/-- A wire without a complaint: both ends were resolved, and they fit. -/
theorem connect_eq_nil (hf : bench.failed = []) {ws ws' : Wires} {wire : Wire}
    (h : bench.connect ws wire = .ok (ws', [])) :
    ∃ dest src, bench.endpoint wire.dest .sink wire.loc = .ok (some dest, []) ∧
      bench.endpoint wire.src .source wire.loc = .ok (some src, []) ∧
      bench.checkWidths dest src wire.loc = [] ∧ bench.checkIntervals dest src wire.loc = [] := by
  simp only [connect, bind_eq_ok] at h
  obtain ⟨⟨dest, destFound⟩, hdest, ⟨src, srcFound⟩, hsrc, h⟩ := h
  cases dest with
  | none =>
    simp only [pure_eq_ok, Prod.mk.injEq, List.append_eq_nil_iff] at h
    exact absurd h.2.1 (found_of_endpoint hf hdest)
  | some dest =>
    dsimp only at h
    split at h
    · simp at h
    · cases src with
      | none =>
        simp only [pure_eq_ok, Prod.mk.injEq, List.append_eq_nil_iff] at h
        exact absurd h.2.2 (found_of_endpoint hf hsrc)
      | some src =>
        simp only [pure_eq_ok, Prod.mk.injEq, List.append_eq_nil_iff] at h
        obtain ⟨-, ⟨⟨rfl, rfl⟩, hwidths⟩, hintervals⟩ := h
        exact ⟨dest, src, hdest, hsrc, hwidths, hintervals⟩

end Bench

namespace Body

variable {b : Body} {table : Table} {c : Caller} {instances : List Instance} {schedule : Schedule}
  {ref : PortRef} {role : Role} {loc : Option Loc} {e : Endpoint} {found : List Diagnostic}

theorem Passes.shows (h : b.Passes table c instances schedule) (hc : c.Registered) (ht : table.Built)
    (hb : b.Plain) (he : Bench.endpoint ⟨c, schedule, []⟩ ref role loc = .ok (some e, found)) :
    ∃ x : Terminal table c.signature b, x.Named ref ∧ x.Plays role ∧ e.Shows x := by
  obtain ⟨invocation, port⟩ := ref
  cases invocation with
  | none =>
    simp only [Bench.endpoint, Bench.callerEnd] at he
    split at he
    · cases he
    next p hp =>
      split at he
      next hdirection =>
        simp only [bind_eq_ok, pure_eq_ok, Prod.mk.injEq, Option.some.injEq, Expr.toForm_eq_ok] at he
        obtain ⟨width, hwidth, rfl, -⟩ := he
        obtain rfl : p.name = port := by simpa using List.find?_some hp
        exact ⟨.own p, ⟨List.mem_of_find?_eq_some hp, rfl⟩, Terminal.plays_own.2 hdirection,
          fun v => Expr.eval_linearize hwidth _, fun v cycle => Iff.rfl⟩
      · cases he
  | some invocation =>
    simp only [Bench.endpoint, Bench.firingEnd, List.not_mem_nil, if_false, pure_eq_ok] at he
    split at he
    · cases he
    next f hf =>
      split at he
      · cases he
      next q hq =>
        split at he
        next hdirection =>
          cases he
          obtain rfl : f.name = invocation := by simpa using List.find?_some hf
          obtain rfl : q.name = port := by simpa using List.find?_some hq
          have hmem : f ∈ schedule := List.mem_reverse.1 (List.mem_of_find?_eq_some hf)
          obtain ⟨k, hserves, hcallee, hbindings, htimes⟩ := h.exists_call_of_firing hc ht hb hmem
          obtain ⟨p, hp, hmeans⟩ := exists_left_of_forall₂ hserves.ports (List.mem_of_find?_eq_some hq)
          rw [hserves.name, hmeans.name]
          rw [hbindings, htimes] at hmeans
          exact ⟨.called k p, ⟨hcallee ▸ hp, rfl⟩,
            Terminal.plays_called.2 (hmeans.direction.symm.trans hdirection), hmeans.width,
            hmeans.covers⟩
        · cases he

theorem Passes.exists_firing? (h : b.Passes table c instances schedule) (hc : c.Registered)
    (ht : table.Built) (hb : b.Plain) (k : Call table c.signature b) :
    ∃ f, Schedule.firing? schedule k.inv.name = some f ∧ f.inst.signature = k.callee := by
  obtain ⟨f₀, hf₀, hserves₀, -⟩ := h.exists_firing hc ht hb k
  have hsome : (Schedule.firing? schedule k.inv.name).isSome = true := by
    rw [Schedule.firing?, List.find?_isSome]
    exact ⟨f₀, List.mem_reverse.2 hf₀, by simp [hserves₀.name]⟩
  obtain ⟨f, hf⟩ := Option.isSome_iff_exists.1 hsome
  refine ⟨f, hf, ?_⟩
  have hmem : f ∈ schedule := List.mem_reverse.1 (List.mem_of_find?_eq_some hf)
  have hname : f.name = k.inv.name := by simpa using List.find?_some hf
  obtain ⟨l, hserves, hcallee, -⟩ := h.exists_call_of_firing hc ht hb hmem
  have hinv := inv_eq_of_name h.labels l.inv_mem k.inv_mem (hserves.name.symm.trans hname)
  rw [hcallee, h.call_eq hinv]

theorem Passes.exists_step (h : b.Passes table c instances schedule) {s : Bench.Step}
    (hs : s ∈ Bench.steps ⟨c, schedule, []⟩ b) :
    ∃ ws₁ ws₂, Bench.step ⟨c, schedule, []⟩ ws₁ s = .ok (ws₂, []) :=
  Bench.exists_step_of_walk (Bench.walk_of_check h.wired) hs

theorem Passes.inputs_length (h : b.Passes table c instances schedule) (hc : c.Registered)
    (ht : table.Built) (hb : b.Plain) (k : Call table c.signature b) {sources : List PortRef}
    (hs : k.inv.inputs = some sources) : sources.length = k.callee.inputs.length := by
  obtain ⟨f, hf, hcallee⟩ := h.exists_firing? hc ht hb k
  by_contra hne
  have hmisfit : ∃ d, Bench.Step.misfit k.inv.name d ∈ Bench.inputSteps ⟨c, schedule, []⟩ k.inv := by
    simp [Bench.inputSteps, hf, hs, hcallee, hne]
  obtain ⟨d, hd⟩ := hmisfit
  obtain ⟨ws₁, ws₂, hstep⟩ :=
    h.exists_step (List.mem_append_left _ (List.mem_flatMap.2 ⟨k.inv, k.inv_mem, hd⟩))
  simp [Bench.step] at hstep

theorem Passes.wire_mem (h : b.Passes table c instances schedule) (hc : c.Registered)
    (ht : table.Built) (hb : b.Plain) {dest src : PortRef} (hw : b.Wired table c.signature dest src) :
    ∃ loc, .wire ⟨dest, src, loc⟩ ∈ Bench.steps ⟨c, schedule, []⟩ b := by
  cases hw with
  | @connection w hw =>
    exact ⟨w.loc, List.mem_append_right _ (List.mem_map.2 ⟨w, hw, rfl⟩)⟩
  | @input k sources p src hs hp =>
    obtain ⟨f, hf, hcallee⟩ := h.exists_firing? hc ht hb k
    have hlength := h.inputs_length hc ht hb k hs
    refine ⟨k.inv.loc, List.mem_append_left _ (List.mem_flatMap.2 ⟨k.inv, k.inv_mem, ?_⟩)⟩
    simp only [Bench.inputSteps, hf, hs, hcallee, hlength, if_true, List.mem_map]
    exact ⟨(p, src), hp, rfl⟩

theorem Passes.named_unique (h : b.Passes table c instances schedule) (hc : c.Registered)
    (ht : table.Built) {x y : Terminal table c.signature b} (hx : x.Named ref) (hy : y.Named ref) :
    x = y := by
  cases x with
  | own p =>
    obtain ⟨hp, rfl⟩ := hx
    cases y with
    | own q =>
      obtain ⟨hq, hname⟩ := hy
      simp only [PortRef.mk.injEq, true_and] at hname
      rw [List.inj_on_of_nodup_map hc.valid.ports_nodup hp hq hname]
    | called l q => simp [Terminal.Named] at hy
  | called k p =>
    obtain ⟨hp, rfl⟩ := hx
    cases y with
    | own q => simp [Terminal.Named] at hy
    | called l q =>
      obtain ⟨hq, hname⟩ := hy
      simp only [PortRef.mk.injEq, Option.some.injEq] at hname
      obtain rfl := h.call_eq (inv_eq_of_name h.labels k.inv_mem l.inv_mem hname.1)
      obtain ⟨-, -, hvalid⟩ := ht.registered k.registered
      rw [List.inj_on_of_nodup_map hvalid.ports_nodup hp hq hname.2]

theorem Passes.ends_of_wired (h : b.Passes table c instances schedule) (hc : c.Registered)
    (ht : table.Built) (hb : b.Plain) {dest src : PortRef} (hw : b.Wired table c.signature dest src) :
    ∃ sink source : Terminal table c.signature b,
      sink.Named dest ∧ sink.Plays .sink ∧ source.Named src ∧ source.Plays .source ∧
      ∀ v : Valuation, source.width v = sink.width v ∧
        ∀ cycle, sink.Covers v cycle → source.Covers v cycle := by
  obtain ⟨loc, hstep⟩ := h.wire_mem hc ht hb hw
  obtain ⟨ws₁, ws₂, hconnect⟩ := h.exists_step hstep
  obtain ⟨e, e', he, he', hwidths, hintervals⟩ := Bench.connect_eq_nil rfl hconnect
  obtain ⟨sink, hsink, hplays, hshows⟩ := h.shows hc ht hb he
  obtain ⟨source, hsource, hplays', hshows'⟩ := h.shows hc ht hb he'
  refine ⟨sink, source, hsink, hplays, hsource, hplays', fun v => ⟨?_, fun cycle hcycle => ?_⟩⟩
  · rw [← hshows.width, ← hshows'.width]
    exact Bench.checkWidths_eq_nil hwidths _
  · rw [← hshows'.covers]
    exact Interval.covers_of_contains (Bench.checkIntervals_eq_nil hintervals)
      ((hshows.covers v cycle).2 hcycle)

end Body

/-- In a verified component every wire leads from an input of the component or an output of an
invocation to an output of the component or an input of an invocation. Under every admitted valuation
both ends have one width, and the source is there in every cycle of the sink. -/
theorem available_along_wires {t : Table} {c : Component} {b : Body} {out : Verified} (ht : t.Built)
    (hc : c.Plain) (hreg : t.get? c.name = some c.signature) (hb : c.body = some b)
    (h : c.check t = .ok (.verified out)) :
    (∀ inv ∈ b.invocations, ∃ k : Call t c.signature b, k.inv = inv ∧ k.Total ∧
      ∀ sources, inv.inputs = some sources → sources.length = k.callee.inputs.length) ∧
    ∀ dest src, b.Wired t c.signature dest src →
      ∃ sink source : Terminal t c.signature b,
        (∀ x : Terminal t c.signature b, x.Named dest ↔ x = sink) ∧ sink.Plays .sink ∧
        (∀ x : Terminal t c.signature b, x.Named src ↔ x = source) ∧ source.Plays .source ∧
        ∀ v : Valuation, c.signature.Admits v.symbol → source.width v = sink.width v ∧
          ∀ cycle, sink.Covers v cycle → source.Covers v cycle := by
  obtain ⟨facts, instances, schedule, hcaller, hpass⟩ := Component.passes_of_check ht hreg hb h
  have hplain := hc.body b hb
  constructor
  · intro inv hinv
    obtain ⟨k, rfl⟩ := hpass.exists_call hinv
    exact ⟨k, rfl, hpass.total hcaller ht hplain k,
      fun sources hs => hpass.inputs_length hcaller ht hplain k hs⟩
  · intro dest src hw
    obtain ⟨sink, source, hsink, hplays, hsource, hplays', hfit⟩ :=
      hpass.ends_of_wired hcaller ht hplain hw
    refine ⟨sink, source, fun x => ⟨fun hx => ?_, fun hx => hx ▸ hsink⟩, hplays,
      fun x => ⟨fun hx => ?_, fun hx => hx ▸ hsource⟩, hplays', fun v _ => hfit v⟩
    · exact hpass.named_unique hcaller ht hx hsink
    · exact hpass.named_unique hcaller ht hx hsource

namespace Primitives

/-- One cycle of delay, wired through a primitive. -/
def latchBody : Body where
  instances := [{ name := "d", component := "Delay", args := [.const 8], named := [] }]
  invocations := [{ name := "i", target := "d", times := [⟨"G", 0⟩], inputs := some [⟨none, "in"⟩] }]
  connections := [{ dest := ⟨none, "out"⟩, src := ⟨some "i", "out"⟩ }]

def latch : Component where
  signature :=
    { delay with
      name := "Latch"
      params := []
      ports := delay.ports.map fun p => { p with width := .const 8 } }
  body := some latchBody

def latchTable : Table := (Table.empty.registerAll [delay, latch.signature]).1

theorem sound_latchTable : latchTable.Sound := Table.sound_empty.registerAll (by decide +kernel)

theorem plain_latch : latch.Plain := by
  refine ⟨by decide +kernel, fun b hb => ?_⟩
  obtain rfl : latchBody = b := Option.some.inj hb
  constructor
  · simp [latchBody, Instantiation.Plain, Expr.plain_const]
  · simp only [latchBody, List.forall_mem_singleton, Invocation.Plain]
    decide

theorem exists_verified_latch : ∃ out, latch.check latchTable = .ok (.verified out) :=
  Component.exists_verified_of_isOk (by decide +kernel)

/-- Both wires of the latch, the positional input and the connection. -/
theorem available_along_wires_latch :
    ∃ (out : Verified) (k : Call latchTable latch.signature latchBody)
      (x y i o : Terminal latchTable latch.signature latchBody),
      latch.check latchTable = .ok (.verified out) ∧ k.inv.name = "i" ∧
      x.Named ⟨none, "in"⟩ ∧ i.Named ⟨some "i", "in"⟩ ∧ o.Named ⟨some "i", "out"⟩ ∧
      y.Named ⟨none, "out"⟩ ∧ i.Plays .sink ∧ o.Plays .source ∧
      ∀ v : Valuation, latch.signature.Admits v.symbol → x.width v = i.width v ∧ o.width v = y.width v ∧
        ∀ cycle, (i.Covers v cycle → x.Covers v cycle) ∧ (y.Covers v cycle → o.Covers v cycle) := by
  have hreg : latchTable.get? latch.name = some latch.signature := by decide +kernel
  have hdelay : latchTable.get? "Delay" = some delay := by decide +kernel
  obtain ⟨out, hverified⟩ := exists_verified_latch
  obtain ⟨hcalls, hwires⟩ :=
    available_along_wires sound_latchTable.built plain_latch hreg rfl hverified
  obtain ⟨k, hk, -⟩ := hcalls _ (List.mem_singleton.2 rfl)
  have hcallee : k.callee = delay := by
    have hinst : k.inst.component = "Delay" := by
      rw [List.mem_singleton.1 k.inst_mem]
    simpa [hinst, hdelay] using k.registered.symm
  have hinput : latchBody.Wired latchTable latch.signature ⟨some "i", "in"⟩ ⟨none, "in"⟩ := by
    have hpair : (source "in" "W", ⟨none, "in"⟩) ∈ k.callee.inputs.zip [(⟨none, "in"⟩ : PortRef)] := by
      rw [hcallee]
      decide
    have hw := Body.Wired.input k (by rw [hk]) hpair
    rwa [hk] at hw
  have houtput : latchBody.Wired latchTable latch.signature ⟨none, "out"⟩ ⟨some "i", "out"⟩ := by
    have hmem : (⟨⟨none, "out"⟩, ⟨some "i", "out"⟩, none⟩ : Connection) ∈ latchBody.connections :=
      List.mem_singleton.2 rfl
    exact .connection hmem
  obtain ⟨i, x, hi, hplays, hx, -, hin⟩ := hwires _ _ hinput
  obtain ⟨y, o, hy, -, ho, hplays', hout⟩ := hwires _ _ houtput
  refine ⟨out, k, x, y, i, o, hverified, by rw [hk], (hx x).2 rfl, (hi i).2 rfl, (ho o).2 rfl,
    (hy y).2 rfl, hplays, hplays', fun v hv => ⟨(hin v hv).1, (hout v hv).1, fun cycle => ?_⟩⟩
  exact ⟨(hin v hv).2 cycle, (hout v hv).2 cycle⟩

end Primitives

end Chronogram
