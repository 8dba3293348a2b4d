import Chronogram.Proofs.Delays
import Chronogram.Proofs.Entailment
import Chronogram.Proofs.Locality

/-! A component may demand more of its users without harm to its own body. The facts of a caller are
used in one way only, to see whether something follows from them; what follows from some facts
follows from more of them as well. So each step of a check that leaves no complaint leaves none when
clauses are added to the caller, and comes to the same instances, triggerings and ports. -/

namespace Chronogram

open Fallible

namespace Facts

theorem implies_mono {facts more : Facts} {form : LinearForm} {relation : Relation}
    (hsub : ∀ f ∈ facts, f ∈ more) (h : facts.implies form relation = true) :
    more.implies form relation = true := by
  cases hc : form.isConstant with
  | true => rwa [implies_of_isConstant hc] at h ⊢
  | false =>
    rw [implies_iff_entails hc] at h ⊢
    intro ρ hρ
    exact h ρ fun f hf => hρ f (hsub f hf)

end Facts

namespace Signature

def strengthened (s : Signature) (extra : List Clause) : Signature :=
  { s with clauses := s.clauses ++ extra }

/-- The facts of a signature stay when clauses are added. -/
theorem facts_strengthened {s : Signature} {extra : List Clause} {facts more : Facts}
    (h : s.facts = .ok facts) (h' : (s.strengthened extra).facts = .ok more) :
    ∀ f ∈ facts, f ∈ more := by
  simp only [Signature.facts, strengthened, bind_eq_ok, pure_eq_ok, List.mapM_append] at h h'
  obtain ⟨clauses, hclauses, widths, hwidths, rfl⟩ := h
  obtain ⟨_, ⟨clauses', hclauses', added, -, rfl⟩, widths', hwidths', rfl⟩ := h'
  obtain rfl := Except.ok.inj (hclauses.symm.trans hclauses')
  obtain rfl := Except.ok.inj (hwidths.symm.trans hwidths')
  intro f hf
  rcases List.mem_append.1 hf with hf | hf
  · simp [hf]
  · simp [hf]

end Signature

namespace Caller

variable {c c' : Caller} {i : Instance} {e : Event} {log : List Firing}

/-- The second caller is the first one with other clauses, from which at least as much follows. -/
structure Strengthens (c' c : Caller) : Prop where
  signature : ∃ clauses, c'.signature = { c.signature with clauses }
  proves : ∀ form relation, c.proves form relation = true → c'.proves form relation = true

theorem Strengthens.passes (hs : Strengthens c' c) {form : LinearForm} {relation : Relation}
    {otherwise otherwise' : Except Fault (Option Diagnostic)} (hne : otherwise ≠ .ok none)
    (h : (if c.proves form relation then pure none else otherwise) = .ok none) :
    (if c'.proves form relation then pure none else otherwise') = .ok none := by
  split at h
  next hproves => rw [if_pos (hs.proves _ _ hproves)]; rfl
  next => exact absurd h hne

theorem Strengthens.exists_eq (hs : Strengthens c' c) :
    ∃ clauses facts, c' = ⟨{ c.signature with clauses }, facts⟩ := by
  obtain ⟨s', facts'⟩ := c'
  obtain ⟨⟨clauses, rfl⟩, -⟩ := hs
  exact ⟨clauses, facts', rfl⟩

theorem Strengthens.checkClause (hs : Strengthens c' c) {clause : Clause} {times : List (String × Time)}
    {loc : Option Loc} (h : c.checkClause clause i times loc = .ok none) :
    c'.checkClause clause i times loc = .ok none := by
  simp only [Caller.checkClause, bind_eq_ok] at h ⊢
  obtain ⟨form, hform, h⟩ := h
  refine ⟨form, hform, hs.passes ?_ h⟩
  split
  · simp
  · simp

theorem Strengthens.checkWidth (hs : Strengthens c' c) {p : Port} (h : c.checkWidth i p = .ok none) :
    c'.checkWidth i p = .ok none := by
  simp only [Caller.checkWidth, bind_eq_ok] at h ⊢
  obtain ⟨width, hwidth, h⟩ := h
  exact ⟨width, hwidth, hs.passes (by simp) h⟩

theorem Strengthens.bindParameters (hs : Strengthens c' c) (s : Signature) (inst : Instantiation) :
    c'.bindParameters s inst = c.bindParameters s inst := by
  obtain ⟨clauses, facts, rfl⟩ := hs.exists_eq
  rfl

theorem Strengthens.resolve (hs : Strengthens c' c) {table : Table} {inst : Instantiation}
    (h : c.resolve table inst = .ok (some i, [])) : c'.resolve table inst = .ok (some i, []) := by
  unfold Caller.resolve at h ⊢
  split at h
  · cases h
  · cases h
  · cases h
  next s _ hget =>
    simp only [hs.bindParameters, bind_eq_ok] at h ⊢
    obtain ⟨⟨bindings, wrong⟩, hbind, h⟩ := h
    refine ⟨(bindings, wrong), hbind, ?_⟩
    dsimp only at h ⊢
    split at h
    · cases h
    next hwrong =>
      rw [if_neg hwrong]
      simp only [bind_eq_ok] at h ⊢
      obtain ⟨clauses, hclauses, widths, hwidths, h⟩ := h
      split at h
      next hnone =>
        have hall : ∀ d ∈ clauses ++ widths, d = none := List.filterMap_eq_nil_iff.1 hnone
        refine ⟨clauses, mapM_imp hclauses fun clause _ d hd hcheck => ?_, widths,
          mapM_imp hwidths fun p _ d hd hcheck => ?_, ?_⟩
        · obtain rfl := hall d (by simp [hd])
          exact hs.checkClause hcheck
        · obtain rfl := hall d (by simp [hd])
          exact hs.checkWidth hcheck
        · rw [hnone]
          exact h
      · cases h

theorem Strengthens.checkTimes (hs : Strengthens c' c) (inv : Invocation) (callee : Signature) :
    c'.checkTimes inv callee = c.checkTimes inv callee := by
  obtain ⟨clauses, facts, rfl⟩ := hs.exists_eq
  rfl

theorem Strengthens.schedule (hs : Strengthens c' c) {instances : List Instance} {inv : Invocation}
    {f : Firing} (h : c.schedule instances inv = .ok (some f, [])) :
    c'.schedule instances inv = .ok (some f, []) := by
  unfold Caller.schedule at h ⊢
  split at h
  · cases h
  next inst hinst =>
    simp only [hs.checkTimes] at h ⊢
    split at h
    · cases h
    next hmisfits =>
      rw [if_neg hmisfits]
      simp only [bind_eq_ok] at h ⊢
      obtain ⟨clauses, hclauses, h⟩ := h
      split at h
      next hnone =>
        refine ⟨clauses, mapM_imp hclauses fun clause _ d hd hcheck => ?_, ?_⟩
        · obtain rfl : d = none := List.filterMap_eq_nil_iff.1 hnone d hd
          exact hs.checkClause hcheck
        · rw [hnone]
          exact h
      · cases h

/-- The wires are looked at without the facts of the caller. -/
theorem Strengthens.wires (hs : Strengthens c' c) (schedule : Schedule) (failed : List String)
    (ws : Wires) (body : Body) :
    Bench.check ⟨c', schedule, failed⟩ ws body = Bench.check ⟨c, schedule, failed⟩ ws body := by
  obtain ⟨clauses, facts, rfl⟩ := hs.exists_eq
  have hstep : ∀ ws step, Bench.step ⟨⟨{ c.signature with clauses }, facts⟩, schedule, failed⟩ ws step =
      Bench.step ⟨c, schedule, failed⟩ ws step := by
    intro ws step
    cases step with
    | wire w => rfl
    | misfit invocation complaint => rfl
  have hwalk : ∀ steps ws, Bench.walk ⟨⟨{ c.signature with clauses }, facts⟩, schedule, failed⟩ ws steps =
      Bench.walk ⟨c, schedule, failed⟩ ws steps := by
    intro steps
    induction steps with
    | nil => intro ws; rfl
    | cons step rest ih =>
      intro ws
      simp only [Bench.walk, hstep, ih]
  rw [Bench.check, Bench.check, hwalk]
  rfl

theorem Strengthens.checkSpacing (hs : Strengthens c' c) {a b : Time × Firing}
    (h : c.checkSpacing i e a b = .ok none) : c'.checkSpacing i e a b = .ok none := by
  simp only [Caller.checkSpacing, bind_eq_ok] at h ⊢
  obtain ⟨delay, hdelay, gap, hgap, h⟩ := h
  exact ⟨delay, hdelay, gap, hgap, hs.passes (by simp) h⟩

theorem Strengthens.checkThroughput (hs : Strengthens c' c) {start : Time} {own : Event}
    {budget : LinearForm} {u : Time × Firing} (h : c.checkThroughput i e start own budget u = .ok none) :
    c'.checkThroughput i e start own budget u = .ok none := by
  simp only [Caller.checkThroughput, bind_eq_ok] at h ⊢
  obtain ⟨delay, hdelay, gap, hgap, h⟩ := h
  exact ⟨delay, hdelay, gap, hgap, hs.passes (by simp) h⟩

theorem Strengthens.checkComparable (hs : Strengthens c' c) (uses : List (Time × Firing)) :
    c'.checkComparable i e uses = c.checkComparable i e uses := by
  obtain ⟨clauses, facts, rfl⟩ := hs.exists_eq
  rfl

theorem Strengthens.event? (hs : Strengthens c' c) (name : String) :
    c'.signature.event? name = c.signature.event? name := by
  obtain ⟨clauses, heq⟩ := hs.signature
  rw [heq]
  rfl

theorem Strengthens.checkEvent (hs : Strengthens c' c) (h : c.checkEvent i log e = .ok none) :
    c'.checkEvent i log e = .ok none := by
  simp only [Caller.checkEvent, bind_eq_ok, hs.checkComparable, hs.event?] at h ⊢
  obtain ⟨uses, huses, h⟩ := h
  refine ⟨uses, huses, ?_⟩
  split at h
  · cases h
  next hsame =>
    obtain ⟨found, hspacing, h⟩ := bind_eq_ok.1 h
    cases found with
    | some d => cases h
    | none =>
      refine bind_eq_ok.2 ⟨none, firstComplaint_of_forall fun p hp => ?_, ?_⟩
      · exact hs.checkSpacing (firstComplaint_eq_none hspacing p hp)
      · dsimp only at h ⊢
        split at h
        · rfl
        · split at h
          · cases h
          next own hown =>
            obtain ⟨budget, hbudget, h⟩ := bind_eq_ok.1 h
            refine bind_eq_ok.2 ⟨budget, hbudget, firstComplaint_of_forall fun u hu => ?_⟩
            exact hs.checkThroughput (firstComplaint_eq_none h u hu)

theorem Strengthens.checkLog (hs : Strengthens c' c) (h : c.checkLog log = .ok none) :
    c'.checkLog log = .ok none := by
  cases log with
  | nil => rfl
  | cons f rest => exact firstComplaint_of_forall fun e he => hs.checkEvent (firstComplaint_eq_none h e he)

theorem Strengthens.checkDelays (hs : Strengthens c' c) {s : Schedule} (h : c.checkDelays s = .ok []) :
    c'.checkDelays s = .ok [] := by
  simp only [Caller.checkDelays, bind_eq_ok, pure_eq_ok] at h ⊢
  obtain ⟨found, hfound, hnone⟩ := h
  refine ⟨found, mapM_imp hfound fun name _ d hd hcheck => ?_, hnone⟩
  obtain rfl : d = none := List.filterMap_eq_nil_iff.1 hnone d hd
  exact hs.checkLog hcheck

end Caller

namespace Component

variable {c : Component} {t u : Table} {extra : List Clause}

def strengthened (c : Component) (extra : List Clause) : Component :=
  { c with signature := c.signature.strengthened extra }

theorem check_strengthened {caller caller' : Caller} {out : Verified}
    (hcaller : Caller.of t ((t.get? c.name).getD c.signature) = .ok caller)
    (hcaller' : Caller.of u ((u.get? c.name).getD (c.signature.strengthened extra)) = .ok caller')
    (hs : caller'.Strengthens caller)
    (hagree : ∀ i ∈ (c.body.getD .empty).instances, Table.Agree u t i.component)
    (h : c.check t = .ok (.verified out)) : (c.strengthened extra).check u = .ok (.verified out) := by
  obtain ⟨instances, schedule, hnames, hresolved, hscheduled, hwired, hdelays, rfl⟩ :=
    stages_of_verified hcaller h
  refine verified_of_stages (c := c.strengthened extra) hcaller' hnames ?_
    (hscheduled.imp fun inv f hf => hs.schedule hf) ?_ (hs.checkDelays hdelays)
  · refine (forall₂_mem hresolved).imp ?_
    rintro inst i ⟨hinst, -, hi⟩
    rw [Caller.resolve_congr (hagree inst hinst)]
    exact hs.resolve hi
  · rw [hs.wires]
    exact hwired

end Component

namespace Table

variable {t u : Table} {s s' : Signature}

/-- The second table holds a signature under its name, and what the first one holds under all others. -/
structure Replaces (u t : Table) (s : Signature) : Prop where
  registered : u.get? s.name = some s
  others : ∀ name, name ≠ s.name → Agree u t name

theorem Consistent.exists_caller (ht : t.Consistent) (hs : t.get? s.name = some s) :
    ∃ facts, Caller.of t s = .ok ⟨s, facts⟩ ∧ s.facts = .ok facts := by
  obtain ⟨-, -, facts, hfacts, hstates⟩ := ht.stored _ s hs
  refine ⟨facts, ?_, Signature.facts_eq_ok.2 hstates⟩
  rw [Caller.of, hfacts]

/-- A call in which another signature stands wherever one stood. -/
def Action.replacing (s s' : Signature) : Action → Action
  | .register r => .register (if r = s then s' else r)
  | .registerAll signatures => .registerAll (signatures.map fun r => if r = s then s' else r)
  | .reject name diagnostics => .reject name diagnostics

/-- The second table holds another signature in place of one, and else what the first one holds. -/
structure Swapped (s s' : Signature) (t u : Table) : Prop where
  get? : ∀ name, u.get? name = (t.get? name).map fun r => if r = s then s' else r
  facts? : ∀ name, t.get? name ≠ some s → u.facts? name = t.facts? name
  rejection? : ∀ name, u.rejection? name = t.rejection? name

theorem swapped_empty : Swapped s s' empty empty := ⟨fun _ => rfl, fun _ _ => rfl, fun _ => rfl⟩

theorem Swapped.get?_eq_none (h : Swapped s s' t u) {name : String} :
    u.get? name = none ↔ t.get? name = none := by
  rw [h.get?, Option.map_eq_none_iff]

theorem Swapped.agree (h : Swapped s s' t u) {name : String} (hne : t.get? name ≠ some s) :
    Agree u t name := by
  refine ⟨?_, h.facts? name hne, h.rejection? name⟩
  rw [h.get?]
  cases hr : t.get? name with
  | none => rfl
  | some r =>
    have hother : r ≠ s := fun hrs => hne (hrs ▸ hr)
    rw [Option.map_some, if_neg hother]

theorem Swapped.reject (h : Swapped s s' t u) (other : String) (diagnostics : List Diagnostic) :
    Swapped s s' (t.reject other diagnostics) (u.reject other diagnostics) := by
  refine ⟨fun name => ?_, fun name hne => ?_, fun name => ?_⟩
  · rw [get?_reject, get?_reject, h.get?]
    split
    · rfl
    · rfl
  · rw [get?_reject] at hne
    rw [facts?_reject, facts?_reject]
    split
    · rfl
    next hname => exact h.facts? name (by rwa [if_neg hname] at hne)
  · rw [rejection?_reject, rejection?_reject, h.rejection?, h.rejection?]

section Replacing

variable (hname : s'.name = s.name) (hs : s.validate = []) (hs' : s'.validate = [])

include hname in
theorem name_replaced (r : Signature) : (if r = s then s' else r).name = r.name := by
  split
  next hr => rw [hr, hname]
  · rfl

include hname in
theorem Swapped.add (h : Swapped s s' t u) {r : Signature} {facts facts' : Facts}
    (hsame : r ≠ s → facts' = facts) :
    Swapped s s' (t.add r facts) (u.add (if r = s then s' else r) facts') := by
  have hkey := name_replaced hname r
  refine ⟨fun name => ?_, fun name hne => ?_, h.rejection?⟩
  · rw [get?_add, get?_add, hkey, h.get?]
    split
    · rfl
    · rfl
  · rw [get?_add] at hne
    rw [facts?_add, facts?_add, hkey]
    split
    next hr =>
      rw [if_pos hr] at hne
      rw [hsame fun hrs => hne (congrArg some hrs)]
    next hr => exact h.facts? name (by rwa [if_neg hr] at hne)

include hname hs hs'

/-- A registration ends in the same way with the one signature as with the other. -/
theorem Swapped.register (h : Swapped s s' t u) (r : Signature) :
    (∃ t' u', t.register r = .ok t' ∧ u.register (if r = s then s' else r) = .ok u' ∧
      Swapped s s' t' u') ∨
    ∃ e e', t.register r = .error e ∧ u.register (if r = s then s' else r) = .error e' := by
  have hkey := name_replaced hname r
  have hvalid : (if r = s then s' else r).validate = [] ↔ r.validate = [] := by
    split
    next hr => rw [hr, hs, hs']
    · rfl
  -- what a registration looks at is the same in both tables: the name, and that there is no complaint
  cases hr : t.register r with
  | ok t' =>
    obtain ⟨hget, hspared, hv, facts, hfacts, rfl⟩ := register_eq_ok hr
    obtain ⟨facts', hfacts'⟩ := (Signature.valid_of_validate (hvalid.2 hv)).exists_facts
    refine .inl ⟨_, _, rfl, register_of_free ?_ ?_ (hvalid.2 hv) hfacts', h.add hname fun hne => ?_⟩
    · rwa [hkey, h.get?_eq_none]
    · rwa [hkey, h.rejection?]
    · rw [if_neg hne, hfacts] at hfacts'
      exact (Except.ok.inj hfacts').symm
  | error e =>
    cases hr' : u.register (if r = s then s' else r) with
    | error e' => exact .inr ⟨e, e', rfl, rfl⟩
    | ok u' =>
      obtain ⟨hget, hspared, hv, -⟩ := register_eq_ok hr'
      rw [hkey, h.get?_eq_none] at hget
      rw [hkey, h.rejection?] at hspared
      obtain ⟨facts, hfacts⟩ := (Signature.valid_of_validate (hvalid.1 hv)).exists_facts
      rw [register_of_free hget hspared (hvalid.1 hv) hfacts] at hr
      cases hr

theorem Swapped.registerAll (h : Swapped s s' t u) (signatures : List Signature) :
    Swapped s s' (t.registerAll signatures).1
      (u.registerAll (signatures.map fun r => if r = s then s' else r)).1 := by
  induction signatures generalizing t u with
  | nil => exact h
  | cons r rest ih =>
    rw [List.map_cons, Table.registerAll, Table.registerAll]
    rcases h.register hname hs hs' r with ⟨t', u', ht, hu, h'⟩ | ⟨e, e', ht, hu⟩
    · rw [ht, hu]
      exact ih h'
    · rw [ht, hu]
      exact h

theorem Swapped.act (h : Swapped s s' t u) (a : Action) :
    Swapped s s' (t.act a).1 (u.act (a.replacing s s')).1 := by
  cases a with
  | register r =>
    rw [Action.replacing]
    rcases h.register hname hs hs' r with ⟨t', u', ht, hu, h'⟩ | ⟨e, e', ht, hu⟩
    · rw [act_register_of_ok ht, act_register_of_ok hu]
      exact h'
    · rw [act_register_of_error ht, act_register_of_error hu]
      exact h
  | registerAll signatures =>
    rw [Action.replacing, act_registerAll, act_registerAll]
    exact h.registerAll hname hs hs' signatures
  | reject name diagnostics =>
    rw [Action.replacing, act_reject, act_reject]
    exact h.reject name diagnostics

/-- The calls that led to a table lead to the one in which a signature is replaced, if they are made with
the other signature. -/
theorem Swapped.after (h : Swapped s s' t u) (actions : List Action) :
    Swapped s s' (t.after actions) (u.after (actions.map (·.replacing s s'))) := by
  induction actions generalizing t u with
  | nil => exact h
  | cons a actions ih => exact ih (h.act hname hs hs' a)

theorem replaces_history {actions : List Action} (h : (history actions).get? s.name = some s) :
    (history (actions.map (·.replacing s s'))).Replaces (history actions) s' := by
  have hswapped : Swapped s s' (history actions) (history (actions.map (·.replacing s s'))) :=
    swapped_empty.after hname hs hs' actions
  refine ⟨?_, fun name hne => hswapped.agree fun hget => ?_⟩
  · rw [hswapped.get?, hname, h, Option.map_some, if_pos rfl]
  · have hstored := ((consistent_of_history actions).stored name s hget).1
    exact hne (hstored.symm.trans hname.symm)

end Replacing

end Table

/-- Whatever calls made a table, a component of it that is verified, and does not instantiate itself, is
verified again, with the same export, when clauses are added to its signature and the signature so
obtained is registered in place of its own; and this can be done whenever the signature is valid. -/
theorem verified_with_stronger_clauses {actions : List Table.Action} {c : Component} {out : Verified}
    {extra : List Clause} (hreg : (Table.history actions).get? c.name = some c.signature)
    (hother : ∀ i ∈ (c.body.getD .empty).instances, i.component ≠ c.name)
    (hverified : c.check (Table.history actions) = .ok (.verified out))
    (hvalid : (c.signature.strengthened extra).validate = []) :
    (∃ actions', (Table.history actions').Replaces (Table.history actions)
      (c.signature.strengthened extra)) ∧
    ∀ actions', (Table.history actions').Replaces (Table.history actions)
        (c.signature.strengthened extra) →
      (c.strengthened extra).check (Table.history actions') = .ok (.verified out) := by
  constructor
  · have hold := (Table.consistent_of_history actions).stored _ _ hreg
    have hname : (c.signature.strengthened extra).name = c.signature.name := rfl
    exact ⟨_, Table.replaces_history hname hold.2.1 hvalid hreg⟩
  · intro actions' hrep
    obtain ⟨facts, hcaller, hfacts⟩ := (Table.consistent_of_history actions).exists_caller hreg
    obtain ⟨more, hcaller', hmore⟩ := (Table.consistent_of_history actions').exists_caller hrep.registered
    have hreg' : (Table.history actions').get? c.name = some (c.signature.strengthened extra) :=
      hrep.registered
    have hstronger : Caller.Strengthens ⟨c.signature.strengthened extra, more⟩ ⟨c.signature, facts⟩ :=
      ⟨⟨_, rfl⟩, fun _ _ => Facts.implies_mono (Signature.facts_strengthened hfacts hmore)⟩
    exact Component.check_strengthened (by rwa [hreg]) (by rwa [hreg']) hstronger
      (fun i hi => hrep.others i.component (hother i hi)) hverified

namespace Primitives

/-- A delay of any width, made of the primitive one. -/
def buffer : Component where
  signature := { delay with name := "Buffer" }
  body := some {
    instances := [{ name := "d", component := "Delay", args := [.param "W"], named := [] }]
    invocations := [{ name := "i", target := "d", times := [⟨"G", 0⟩], inputs := some [⟨none, "in"⟩] }]
    connections := [{ dest := ⟨none, "out"⟩, src := ⟨some "i", "out"⟩ }] }

def bufferCalls : List Table.Action := [.registerAll [delay, buffer.signature]]

/-- The buffer made for wide signals only. -/
theorem verified_with_stronger_clauses_buffer :
    ∃ actions out, (Table.history actions).Replaces (Table.history bufferCalls)
        (buffer.signature.strengthened [⟨.param "W", .ge, .const 8, none⟩]) ∧
      buffer.check (Table.history bufferCalls) = .ok (.verified out) ∧
      (buffer.strengthened [⟨.param "W", .ge, .const 8, none⟩]).check (Table.history actions) =
        .ok (.verified out) := by
  have hreg : (Table.history bufferCalls).get? buffer.name = some buffer.signature := by decide +kernel
  obtain ⟨out, hout⟩ : ∃ out, buffer.check (Table.history bufferCalls) = .ok (.verified out) :=
    Component.exists_verified_of_isOk (by decide +kernel)
  have hvalid : (buffer.signature.strengthened [⟨.param "W", .ge, .const 8, none⟩]).validate = [] := by
    decide +kernel
  obtain ⟨⟨actions, hrep⟩, hverified⟩ :=
    verified_with_stronger_clauses hreg (by decide +kernel) hout hvalid
  exact ⟨actions, out, hrep, hout, hverified actions hrep⟩

end Primitives

end Chronogram
