import Chronogram.Proofs.Wiring

/-! Drivers of a verified body. Every input of an invocation is the destination of exactly one wire, and
so is every output of the component whose name has no dot. Drivers are kept under the text of their
destination, and an output whose name has a dot can be taken for the input of an invocation that is
written in the same way: it counts as driven although no wire leads to it. -/

namespace Chronogram

open Fallible

namespace PortRef

/-- The first dot in the text of the reference, if there is one, stands between the name of an
invocation and the name of its port. -/
structure Dotless (r : PortRef) : Prop where
  invocation : ∀ i, r.invocation = some i → i ≠ "" ∧ '.' ∉ i.toList
  port : r.invocation = none → '.' ∉ r.port.toList

theorem not_mem_dot_of_isName {s : String} (h : Token.isName s = true) : '.' ∉ s.toList := by
  intro hdot
  exact absurd (Token.isNameChar_of_isName h '.' hdot) (by decide)

theorem ne_empty_of_isName {s : String} (h : Token.isName s = true) : s ≠ "" := by
  rintro rfl
  exact absurd h (by decide)

theorem dotless_called {i p : String} (h : Token.isName i = true) : Dotless ⟨some i, p⟩ := by
  refine ⟨?_, by simp⟩
  rintro _ ⟨⟩
  exact ⟨ne_empty_of_isName h, not_mem_dot_of_isName h⟩

theorem dotless_own {p : String} (h : '.' ∉ p.toList) : Dotless ⟨none, p⟩ := ⟨by simp, fun _ => h⟩

theorem Spelled.dotless {r : PortRef} (h : r.Spelled) : r.Dotless :=
  ⟨fun i hi => ⟨ne_empty_of_isName (h.invocation i hi), not_mem_dot_of_isName (h.invocation i hi)⟩,
    fun _ => not_mem_dot_of_isName h.port⟩

theorem text_called {i p : String} (h : i ≠ "") : (⟨some i, p⟩ : PortRef).text = i ++ "." ++ p := by
  simp [text, h]

theorem toList_dotted (i p : String) : (i ++ "." ++ p).toList = i.toList ++ '.' :: p.toList := by
  simp

theorem append_dot_inj {a b x y : List Char} (ha : '.' ∉ a) (hb : '.' ∉ b)
    (h : a ++ '.' :: x = b ++ '.' :: y) : a = b ∧ x = y := by
  induction a generalizing b with
  | nil =>
    cases b with
    | nil => exact ⟨rfl, (List.cons.inj h).2⟩
    | cons c b => exact absurd (List.cons.inj h).1 fun hc => hb (by rw [hc]; simp)
  | cons d a ih =>
    cases b with
    | nil => exact absurd (List.cons.inj h).1 fun hd => ha (by simp [hd])
    | cons c b =>
      obtain ⟨rfl, hrest⟩ := List.cons.inj h
      obtain ⟨rfl, rfl⟩ := ih (fun hd => ha (List.mem_cons_of_mem _ hd))
        (fun hd => hb (List.mem_cons_of_mem _ hd)) hrest
      exact ⟨rfl, rfl⟩

/-- References that can be split at their first dot have different texts. -/
theorem Dotless.text_inj {x y : PortRef} (hx : x.Dotless) (hy : y.Dotless) (h : x.text = y.text) :
    x = y := by
  obtain ⟨i, p⟩ := x
  obtain ⟨j, q⟩ := y
  cases i with
  | none =>
    cases j with
    | none => exact congrArg _ h
    | some j =>
      rw [text_called (hy.invocation j rfl).1] at h
      have hdot := hx.port rfl
      rw [show p = j ++ "." ++ q from h, toList_dotted] at hdot
      simp at hdot
  | some i =>
    rw [text_called (hx.invocation i rfl).1] at h
    cases j with
    | none =>
      have hdot := hy.port rfl
      rw [show q = i ++ "." ++ p from h.symm, toList_dotted] at hdot
      simp at hdot
    | some j =>
      rw [text_called (hy.invocation j rfl).1] at h
      have hlists := congrArg String.toList h
      rw [toList_dotted, toList_dotted] at hlists
      obtain ⟨hi, hp⟩ := append_dot_inj (hx.invocation i rfl).2 (hy.invocation j rfl).2 hlists
      rw [String.toList_inj.1 hi, String.toList_inj.1 hp]

end PortRef

namespace Bench

variable {bench : Bench} {ws : Wires}

def driven (ws : Wires) : List String := ws.drivers.map (·.1)

/-- A wire without a complaint: its destination had no driver and has one from then on. -/
theorem drivers_of_connect (hf : bench.failed = []) {ws' : Wires} {wire : Wire}
    (h : bench.connect ws wire = .ok (ws', [])) :
    wire.dest.text ∉ driven ws ∧ driven ws' = driven ws ++ [wire.dest.text] ∧
      ws'.misfits = ws.misfits := by
  simp only [connect, bind_eq_ok] at h
  obtain ⟨⟨dest, destFound⟩, hdest, ⟨src, srcFound⟩, hsrc, h⟩ := h
  cases dest with
  | none =>
    simp only [pure_eq_ok, Prod.mk.injEq, List.append_eq_nil_iff] at h
    exact absurd h.2.1 (found_of_endpoint hf hdest)
  | some dest =>
    dsimp only at h
    split at h
    · simp at h
    next hfree =>
      have hfree : wire.dest.text ∉ driven ws := Association.lookup_eq_none.1 hfree
      split at h
      · obtain ⟨rfl, -⟩ := Prod.mk.inj (pure_eq_ok.1 h)
        exact ⟨hfree, by simp [driven], rfl⟩
      · obtain ⟨rfl, -⟩ := Prod.mk.inj (pure_eq_ok.1 h)
        exact ⟨hfree, by simp [driven], rfl⟩

/-- Wires that are taken one after the other without a complaint all have different destinations, as
far as the texts tell, and these are driven in the end. -/
theorem drivers_of_walk (hf : bench.failed = []) {wires : List Wire}
    (h : (bench.walk ws (wires.map .wire)).2 = .ok []) (hn : (driven ws).Nodup) :
    driven (bench.walk ws (wires.map .wire)).1 = driven ws ++ wires.map (·.dest.text) ∧
      (driven ws ++ wires.map (·.dest.text)).Nodup ∧
      (bench.walk ws (wires.map .wire)).1.misfits = ws.misfits := by
  induction wires generalizing ws with
  | nil => simp [walk, hn]
  | cons first rest ih =>
    simp only [List.map_cons, walk, step] at h ⊢
    split at h
    · cases h
    next ws' found hconnect =>
      obtain ⟨later, hlater, hnil⟩ := map_eq_ok.1 h
      obtain ⟨rfl, rfl⟩ := List.append_eq_nil_iff.1 hnil
      obtain ⟨hnew, hdriven, hmisfits⟩ := drivers_of_connect hf hconnect
      have hn' : (driven ws').Nodup := by
        rw [hdriven, List.nodup_append]
        refine ⟨hn, by simp, fun a ha b hb hab => ?_⟩
        rw [List.mem_singleton.1 hb] at hab
        exact hnew (hab ▸ ha)
      obtain ⟨hkeys, hnodup, hsame⟩ := ih hlater hn'
      rw [hdriven] at hkeys hnodup
      simp only [List.append_assoc, List.singleton_append] at hkeys hnodup
      exact ⟨hkeys, hnodup, hsame.trans hmisfits⟩

/-- Where nothing is found to be undriven, outputs are driven and so are the inputs of triggerings. -/
theorem driven_of_undriven {body : Body} (h : bench.undriven ws body = []) :
    (∀ p ∈ bench.caller.signature.outputs, p.name ∈ driven ws) ∧
      ∀ inv ∈ body.invocations, ∀ f, bench.schedule.firing? inv.name = some f →
        inv.name ∉ ws.misfits → ∀ p ∈ f.inst.signature.inputs, inv.name ++ "." ++ p.name ∈ driven ws := by
  have hdriven : ∀ key, ws.drivers.any (·.1 == key) = true → key ∈ driven ws := by
    intro key hkey
    simpa [driven] using hkey
  simp only [undriven, List.append_eq_nil_iff, List.map_eq_nil_iff, List.filter_eq_nil_iff,
    List.flatMap_eq_nil_iff, Bool.not_eq_true', Bool.not_eq_false] at h
  obtain ⟨houtputs, hinputs⟩ := h
  refine ⟨fun p hp => hdriven _ (houtputs p hp), fun inv hinv f hf hfits p hp => hdriven _ ?_⟩
  have hinv := hinputs inv hinv
  rw [hf] at hinv
  simp only [if_neg hfits, List.map_eq_nil_iff, List.filter_eq_nil_iff, Bool.not_eq_true',
    Bool.not_eq_false] at hinv
  exact hinv _ (List.mem_map_of_mem hp)

end Bench

namespace Body

def callee? (table : Table) (b : Body) (inv : Invocation) : Option Signature :=
  (b.instances.find? (·.name == inv.target)).bind fun i => table.get? i.component

def inputWires (table : Table) (b : Body) (inv : Invocation) : List Wire :=
  (b.callee? table inv).toList.flatMap fun callee =>
    (callee.inputs.zip (inv.inputs.getD [])).map fun x => ⟨⟨some inv.name, x.1.name⟩, x.2, inv.loc⟩

/-- All wires of a body: the positional inputs of its invocations and its connections. -/
def wires (table : Table) (b : Body) : List Wire :=
  b.invocations.flatMap (b.inputWires table) ++ b.connections.map fun c => ⟨c.dest, c.src, c.loc⟩

def drivers (table : Table) (b : Body) (dest : PortRef) : List Wire :=
  (b.wires table).filter (·.dest = dest)

/-- The names that the statements of a body define or drive are identifiers. -/
structure Spelled (b : Body) : Prop where
  invocations : ∀ i ∈ b.invocations, Token.isName i.name = true
  connections : ∀ c ∈ b.connections, c.dest.Spelled

theorem spelled_ofStatements {statements : List Statement} (h : ∀ t ∈ statements, t.Spelled) :
    (ofStatements statements).Spelled := by
  constructor
  · intro i hi
    obtain ⟨t, ht, hti⟩ := List.mem_filterMap.1 hi
    cases t <;> simp at hti
    exact hti ▸ h _ ht
  · intro c hc
    obtain ⟨t, ht, htc⟩ := List.mem_filterMap.1 hc
    cases t <;> simp at htc
    exact htc ▸ h _ ht

variable {b : Body} {table : Table} {c : Caller} {instances : List Instance} {schedule : Schedule}

theorem cases_of_mem_wires {w : Wire} (hw : w ∈ b.wires table) :
    (∃ inv ∈ b.invocations, ∃ callee, b.callee? table inv = some callee ∧
      ∃ x ∈ callee.inputs.zip (inv.inputs.getD []), w = ⟨⟨some inv.name, x.1.name⟩, x.2, inv.loc⟩) ∨
    ∃ conn ∈ b.connections, w = ⟨conn.dest, conn.src, conn.loc⟩ := by
  rcases List.mem_append.1 hw with hw | hw
  · obtain ⟨inv, hinv, hw⟩ := List.mem_flatMap.1 hw
    obtain ⟨callee, hcallee, hw⟩ := List.mem_flatMap.1 hw
    obtain ⟨x, hx, rfl⟩ := List.mem_map.1 hw
    exact .inl ⟨inv, hinv, callee, Option.mem_toList.1 hcallee, x, hx, rfl⟩
  · obtain ⟨conn, hconn, rfl⟩ := List.mem_map.1 hw
    exact .inr ⟨conn, hconn, rfl⟩

theorem dotless_of_mem_wires (hb : b.Spelled) {w : Wire} (hw : w ∈ b.wires table) : w.dest.Dotless := by
  rcases cases_of_mem_wires hw with ⟨inv, hinv, callee, -, x, -, rfl⟩ | ⟨conn, hconn, rfl⟩
  · exact PortRef.dotless_called (hb.invocations inv hinv)
  · exact (hb.connections conn hconn).dotless

theorem Passes.callee?_eq (h : b.Passes table c instances schedule) (k : Call table c.signature b) :
    b.callee? table k.inv = some k.callee := by
  have hfind : b.instances.find? (·.name == k.inv.target) = some k.inst := by
    cases hfound : b.instances.find? (·.name == k.inv.target) with
    | none => exact absurd k.target (by simpa using List.find?_eq_none.1 hfound k.inst k.inst_mem)
    | some i =>
      have hname : i.name = k.inv.target := by simpa using List.find?_some hfound
      rw [inst_eq_of_name h.labels (List.mem_of_find?_eq_some hfound) k.inst_mem
        (hname.trans k.target.symm)]
  rw [callee?, hfind]
  exact k.registered

theorem Passes.inputWires_eq (h : b.Passes table c instances schedule) (hc : c.Registered)
    (ht : table.Built) (hb : b.Plain) {inv : Invocation} (hinv : inv ∈ b.invocations) :
    Bench.inputSteps ⟨c, schedule, []⟩ inv = (b.inputWires table inv).map .wire := by
  obtain ⟨k, rfl⟩ := h.exists_call hinv
  obtain ⟨f, hf, hcallee⟩ := h.exists_firing? hc ht hb k
  simp only [Bench.inputSteps, inputWires, h.callee?_eq k, hf, Option.toList_some, List.flatMap_cons,
    List.flatMap_nil, List.append_nil]
  cases hs : k.inv.inputs with
  | none => simp
  | some sources =>
    have hlength := h.inputs_length hc ht hb k hs
    simp only [hcallee, if_pos hlength, Option.getD_some, List.map_map]
    rfl

/-- The check walks through the wires of the body. -/
theorem Passes.steps_eq (h : b.Passes table c instances schedule) (hc : c.Registered)
    (ht : table.Built) (hb : b.Plain) :
    Bench.steps ⟨c, schedule, []⟩ b = (b.wires table).map .wire := by
  rw [Bench.steps, wires, List.map_append, List.map_flatMap, List.map_map]
  congr 1
  exact List.flatMap_congr fun inv hinv => h.inputWires_eq hc ht hb hinv

theorem Passes.wired_of_mem_wires (h : b.Passes table c instances schedule) {w : Wire}
    (hw : w ∈ b.wires table) : b.Wired table c.signature w.dest w.src := by
  rcases cases_of_mem_wires hw with ⟨inv, hinv, callee, hcallee, x, hx, rfl⟩ | ⟨conn, hconn, rfl⟩
  · obtain ⟨k, rfl⟩ := h.exists_call hinv
    obtain rfl : k.callee = callee := Option.some.inj ((h.callee?_eq k).symm.trans hcallee)
    cases hs : k.inv.inputs with
    | none => simp [hs] at hx
    | some sources =>
      rw [hs] at hx
      exact .input k hs hx
  · exact .connection hconn

/-- What the texts of the destinations tell: they are all different, and all outputs of the component
and all inputs of its invocations are among them. -/
structure Driven (table : Table) (s : Signature) (b : Body) : Prop where
  nodup : ((b.wires table).map (·.dest.text)).Nodup
  outputs : ∀ p ∈ s.outputs, p.name ∈ (b.wires table).map (·.dest.text)
  inputs : ∀ k : Call table s b, ∀ p ∈ k.callee.inputs,
    k.inv.name ++ "." ++ p.name ∈ (b.wires table).map (·.dest.text)

theorem Passes.driven (h : b.Passes table c instances schedule) (hc : c.Registered)
    (ht : table.Built) (hb : b.Plain) : b.Driven table c.signature := by
  obtain ⟨found, hfound, hnil⟩ := map_eq_ok.1 h.wired
  obtain ⟨rfl, hundriven⟩ := List.append_eq_nil_iff.1 hnil
  rw [h.steps_eq hc ht hb] at hfound hundriven
  obtain ⟨hkeys, hnodup, hmisfits⟩ := Bench.drivers_of_walk rfl hfound (by simp [Bench.driven])
  obtain ⟨houtputs, hinputs⟩ := Bench.driven_of_undriven hundriven
  simp only [hkeys, hmisfits] at houtputs hinputs
  simp only [Bench.driven, List.map_nil, List.nil_append] at hnodup houtputs hinputs
  refine ⟨hnodup, houtputs, fun k p hp => ?_⟩
  obtain ⟨f, hf, hcallee⟩ := h.exists_firing? hc ht hb k
  exact hinputs k.inv k.inv_mem f hf (by simp) p (hcallee ▸ hp)

/-- A destination that is split at its first dot has one driver if its text is among those driven. -/
theorem Driven.existsUnique_driver {s : Signature} (h : b.Driven table s) (hb : b.Spelled)
    {dest : PortRef} (hdest : dest.Dotless) (hmem : dest.text ∈ (b.wires table).map (·.dest.text)) :
    ∃ w, b.drivers table dest = [w] := by
  obtain ⟨w, hw, htext⟩ := List.mem_map.1 hmem
  obtain rfl : w.dest = dest := (dotless_of_mem_wires hb hw).text_inj hdest htext
  have hnodup : ((b.wires table).map (·.dest)).Nodup := by
    apply List.Nodup.of_map PortRef.text
    rw [List.map_map]
    exact h.nodup
  refine ⟨w, ?_⟩
  have hone : (b.drivers table w.dest).length ≤ 1 := by
    have hcount := List.nodup_iff_count_le_one.1 hnodup w.dest
    rw [List.count, List.countP_map, List.countP_eq_length_filter] at hcount
    have hsame : ((· == w.dest) ∘ fun x : Wire => x.dest) = fun x => decide (x.dest = w.dest) := by
      funext x
      exact Bool.beq_eq_decide_eq _ _
    rwa [hsame] at hcount
  have hin : w ∈ b.drivers table w.dest := List.mem_filter.2 ⟨hw, by simp⟩
  obtain ⟨v, hv⟩ := List.length_eq_one_iff.1 (le_antisymm hone (List.length_pos_of_mem hin))
  rw [hv] at hin ⊢
  rw [List.mem_singleton.1 hin]

/-- No wire leads to an output whose name has a dot. -/
theorem drivers_of_dot (hb : b.Spelled) {name : String} (h : '.' ∈ name.toList) :
    b.drivers table ⟨none, name⟩ = [] := by
  rw [drivers, List.filter_eq_nil_iff]
  intro w hw hdest
  have hdotless := dotless_of_mem_wires hb hw
  rw [of_decide_eq_true hdest] at hdotless
  exact hdotless.port rfl h

/-- An output that counts as driven although its name has a dot is called like an input of an
invocation. -/
theorem Passes.exists_input_of_dot (h : b.Passes table c instances schedule) (hc : c.Registered)
    (ht : table.Built) (hb : b.Plain) (hs : b.Spelled) {name : String} (hdot : '.' ∈ name.toList)
    (hmem : name ∈ (b.wires table).map (·.dest.text)) :
    ∃ k : Call table c.signature b, ∃ q ∈ k.callee.inputs, name = k.inv.name ++ "." ++ q.name := by
  obtain ⟨w, hw, htext⟩ := List.mem_map.1 hmem
  have hdotless := dotless_of_mem_wires hs hw
  obtain ⟨sink, -, hnamed, hplays, -⟩ := h.ends_of_wired hc ht hb (h.wired_of_mem_wires hw)
  cases sink with
  | own p =>
    rw [hnamed.2] at hdotless htext
    obtain rfl : p.name = name := htext
    exact absurd hdot (hdotless.port rfl)
  | called k p =>
    rw [hnamed.2] at hdotless htext
    rw [PortRef.text_called (hdotless.invocation _ rfl).1] at htext
    refine ⟨k, p, List.mem_filter.2 ⟨hnamed.1, ?_⟩, htext.symm⟩
    have hinput : p.direction = .input := Terminal.plays_called.1 hplays
    simp [Port.isInput, hinput]

end Body

theorem Design.Readable.bodySpelled {d : Design} (hd : d.Readable) {c : Component}
    (hc : c ∈ d.components) {b : Body} (hb : c.body = some b) : b.Spelled := by
  obtain ⟨statements, rfl, hread⟩ := hd.exists_statements hc hb
  apply Body.spelled_ofStatements
  intro t ht
  obtain ⟨s, loc, hs⟩ := hread t ht
  exact Statement.spelled_of_parse hs

/-- In a component that is verified each input of an invocation is the destination of exactly one wire,
and so is each output whose name has no dot. An output whose name has one is driven by no wire at
all; it is passed over because an input of an invocation is written in the same way. -/
theorem driven_once {d : Design} {primitives : List Signature} {search : Hierarchy.Search}
    {report : Report} (hp : ∀ s ∈ primitives, s.Plain) (hd : d.Readable)
    (h : d.check primitives search = .ok report) :
    ∃ t refused, d.table primitives = .ok (t, refused) ∧
      ∀ c ∈ d.components, ∀ b, c.body = some b →
        ∀ r ∈ report.results, r.component = c.name → r.isOk = true →
          (∀ inv ∈ b.invocations, ∃ callee, b.callee? t inv = some callee ∧
            (∀ sources, inv.inputs = some sources → sources.length = callee.inputs.length) ∧
            ∀ p ∈ callee.inputs, ∃ w, b.drivers t ⟨some inv.name, p.name⟩ = [w]) ∧
          ∀ p ∈ c.signature.outputs,
            ('.' ∉ p.name.toList → ∃ w, b.drivers t ⟨none, p.name⟩ = [w]) ∧
            ('.' ∈ p.name.toList → b.drivers t ⟨none, p.name⟩ = [] ∧
              ∃ inv ∈ b.invocations, ∃ callee, b.callee? t inv = some callee ∧
                ∃ q ∈ callee.inputs, p.name = inv.name ++ "." ++ q.name) := by
  obtain ⟨t, refused, -, htable, -⟩ := Design.check_eq_ok h
  refine ⟨t, refused, htable, fun c hc b hb r hr hname hok => ?_⟩
  obtain ⟨hreg, v, hv⟩ := Design.verified_of_result h htable hc hb hr hname hok
  have ht := (Design.sound_table hd.plain hp htable).built
  obtain ⟨facts, instances, schedule, hcaller, hpass⟩ := Component.passes_of_check ht hreg hb hv
  have hplain := (hd.plain.components c hc).body b hb
  have hspelled := hd.bodySpelled hc hb
  have hdriven := hpass.driven hcaller ht hplain
  constructor
  · intro inv hinv
    obtain ⟨k, rfl⟩ := hpass.exists_call hinv
    refine ⟨k.callee, hpass.callee?_eq k, fun sources hs => hpass.inputs_length hcaller ht hplain k hs,
      fun p hp => ?_⟩
    have hdotless : PortRef.Dotless ⟨some k.inv.name, p.name⟩ :=
      PortRef.dotless_called (hspelled.invocations _ hinv)
    refine hdriven.existsUnique_driver hspelled hdotless ?_
    rw [PortRef.text_called (hdotless.invocation _ rfl).1]
    exact hdriven.inputs k p hp
  · intro p hp
    refine ⟨fun hdot => ?_, fun hdot => ⟨Body.drivers_of_dot hspelled hdot, ?_⟩⟩
    · exact hdriven.existsUnique_driver hspelled (PortRef.dotless_own hdot) (hdriven.outputs p hp)
    · obtain ⟨k, q, hq, heq⟩ :=
        hpass.exists_input_of_dot hcaller ht hplain hspelled hdot (hdriven.outputs p hp)
      exact ⟨k.inv, k.inv_mem, k.callee, hpass.callee?_eq k, q, hq, heq⟩

/-- The second output of `Main` is called like the input of its invocation. -/
def aliasText : String := "components:
- name: Sink
  events: [\"'G: 1\"]
  inputs: [\"left: ['G, 'G+1) 8\"]
- name: Main
  events: [\"'G: 1\"]
  inputs: [\"x: ['G, 'G+1) 8\"]
  outputs:
  - \"y: ['G, 'G+1) 8\"
  - name: a0.left
    width: 8
    interval: \"['G, 'G+1)\"
  body:
  - S := new Sink
  - \"a0 := S<'G>(x)\"
  - y = x
"

/-- A checked design with a verified component that has two outputs and triggers one instance. -/
structure AliasSample where
  design : Design
  report : Report
  table : Table
  refused : List (String × List Diagnostic)
  main : Component
  body : Body
  result : CheckResult
  call : Invocation
  callee : Signature
  readable : design.Readable
  checked : design.check Primitives.core = .ok report
  registered : design.table Primitives.core = .ok (table, refused)
  main_mem : main ∈ design.components
  main_body : main.body = some body
  result_mem : result ∈ report.results
  result_name : result.component = main.name
  verified : result.isOk = true
  outputs : main.signature.outputs.map (·.name) = ["y", "a0.left"]
  call_mem : call ∈ body.invocations
  call_name : call.name = "a0"
  call_callee : body.callee? table call = some callee
  inputs : callee.inputs.map (·.name) = ["left"]

theorem nonempty_aliasSample : Nonempty AliasSample := by
  have h : (Files.parseFile none aliasText).toOption.any (fun file => file.imports.isEmpty &&
      ((Files.assemble file [] none).check Primitives.core).toOption.any fun report =>
        ((Files.assemble file [] none).table Primitives.core).toOption.any fun made =>
          file.components.any fun main => main.body.any fun body =>
            report.results.any (fun result => result.component == main.name && result.isOk) &&
            main.signature.outputs.map (·.name) == ["y", "a0.left"] &&
            body.invocations.any fun call => call.name == "a0" &&
              (body.callee? made.1 call).any fun callee =>
                callee.inputs.map (·.name) == ["left"]) = true := by
    decide +kernel
  simp only [Bool.and_eq_true, List.any_eq_true, Option.any_eq_true, List.isEmpty_iff, beq_iff_eq,
    toOption_eq_some, and_assoc] at h
  obtain ⟨file, hfile, himports, report, hreport, made, hmade, main, hmain, body, hbody,
    ⟨result, hresult, hname, hok⟩, houtputs, call, hcall, hcalled, callee, hcallee, hinputs⟩ := h
  exact ⟨⟨Files.assemble file [] none, report, made.1, made.2, main, body, result, call, callee,
    Design.readable_of_parseFile hfile himports, hreport, hmade, hmain, hbody, hresult, hname, hok,
    houtputs, hcall, hcalled, hcallee, hinputs⟩⟩

/-- In the sample one wire leads to the input of the invocation and one to the output `y`. -/
theorem driven_once_alias : ∃ (s : AliasSample) (w v : Wire),
    s.body.drivers s.table ⟨some "a0", "left"⟩ = [w] ∧ s.body.drivers s.table ⟨none, "y"⟩ = [v] := by
  obtain ⟨s⟩ := nonempty_aliasSample
  obtain ⟨t, refused, htable, hdriven⟩ := driven_once (Primitives.usable_core _).plain s.readable s.checked
  obtain ⟨rfl, rfl⟩ : s.table = t ∧ s.refused = refused := by simpa [s.registered] using htable
  obtain ⟨hinputs, houtputs⟩ := hdriven s.main s.main_mem s.body s.main_body s.result s.result_mem
    s.result_name s.verified
  obtain ⟨callee, hcallee, -, hinputs⟩ := hinputs s.call s.call_mem
  obtain rfl : s.callee = callee := by simpa [s.call_callee] using hcallee
  obtain ⟨p, hp, hleft⟩ := List.mem_map.1 (s.inputs ▸ List.mem_singleton_self "left")
  obtain ⟨q, hq, hy⟩ := List.mem_map.1 (s.outputs ▸ List.mem_cons_self : "y" ∈ _)
  obtain ⟨w, hw⟩ := hinputs p hp
  obtain ⟨v, hv⟩ := (houtputs q hq).1 (by rw [hy]; decide)
  rw [s.call_name, hleft] at hw
  rw [hy] at hv
  exact ⟨s, w, v, hw, hv⟩

/-- No wire leads to the output `a0.left` of the sample, and the component is verified. -/
theorem undriven_output : ∃ s : AliasSample, s.result.isOk = true ∧
    ∃ p ∈ s.main.signature.outputs, p.name = "a0.left" ∧ s.body.drivers s.table ⟨none, p.name⟩ = [] := by
  obtain ⟨s⟩ := nonempty_aliasSample
  have hmem : "a0.left" ∈ s.main.signature.outputs.map (·.name) := by simp [s.outputs]
  obtain ⟨p, hp, hname⟩ := List.mem_map.1 hmem
  have hspelled := s.readable.bodySpelled s.main_mem s.main_body
  exact ⟨s, s.verified, p, hp, hname, Body.drivers_of_dot hspelled (by rw [hname]; decide)⟩

end Chronogram
