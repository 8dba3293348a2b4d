import Chronogram.Check.Schedule
import Chronogram.Proofs.Instance
import Chronogram.Proofs.Time

/-! The triggerings that invocations make. Whatever the caller admits, the callee admits what the
bindings of the instance and the times of the invocation make of it; so the callee's intervals, which
hold a cycle wherever it admits, still hold one on the caller's time axis. -/

namespace Chronogram

open Fallible

def Invocation.Plain (inv : Invocation) : Prop := ∀ t ∈ inv.times, Token.isName t.event = true

/-- A triggering of a fitting instance at the times of an invocation. -/
structure Firing.Serves (f : Firing) (caller : Signature) (inv : Invocation) : Prop where
  name : f.name = inv.name
  target : f.inst.name = inv.target
  fits : f.inst.Fits caller
  times : f.times = f.inst.signature.eventNames.zip inv.times
  arity : inv.times.length = f.inst.signature.events.length
  onEvents : ∀ t ∈ inv.times, t.event ∈ caller.eventNames
  admits : ∀ v : Valuation, caller.Admits v.symbol →
    f.inst.signature.Admits (v.bound f.inst.bindings f.times).symbol
  ports : List.Forall₂ (fun p b => p.Means f.times f.inst.bindings b) f.inst.signature.ports f.ports

/-- Times and ports stand under the names of the callee's events and ports, which are distinct: the lists
are what dictionaries of them hold. -/
theorem Firing.Serves.dictionaries {f : Firing} {caller : Signature} {inv : Invocation}
    (h : f.Serves caller inv) : (Dict.ofList f.times).entries = f.times ∧
      (Dict.index (·.name) f.ports).values = f.ports ∧
      ∀ name, f.port? name = (Dict.index (·.name) f.ports).get? name := by
  have htimes : f.times.map (·.1) = f.inst.signature.eventNames := by
    rw [h.times, Association.names_zip, h.arity, List.take_of_length_le]
    rw [Signature.eventNames, List.length_map]
  have hports : f.ports.map (·.name) = f.inst.signature.portNames := by
    rw [Signature.portNames, ← List.forall₂_eq_eq_eq, List.forall₂_map_left_iff, List.forall₂_map_right_iff]
    exact h.ports.flip.imp fun _ _ hmeans => hmeans.name
  have hnodup : (f.ports.map (·.name)).Nodup := hports ▸ h.fits.valid.ports_nodup
  exact ⟨Dict.entries_ofList (htimes ▸ h.fits.valid.events_nodup), Dict.values_index hnodup,
    fun name => (Dict.get?_index hnodup name).symm⟩

namespace Caller

variable {c : Caller} {inv : Invocation} {i : Instance} {instances : List Instance}

theorem mem_eventNames_of_event? {s : Signature} {name : String} (hn : Token.isName name = true)
    {e : Event} (h : s.event? name = some e) : e ∈ s.events ∧ e.name = name := by
  rw [Signature.event?, Text.dropLeading_of_isName hn] at h
  exact ⟨List.mem_of_find?_eq_some h, by simpa using List.find?_some h⟩

theorem exists_event? {s : Signature} {name : String} (hn : Token.isName name = true)
    (h : name ∈ s.eventNames) : ∃ e, s.event? name = some e := by
  obtain ⟨e, he, rfl⟩ := List.mem_map.1 h
  rw [Signature.event?, Text.dropLeading_of_isName hn, ← Option.isSome_iff_exists, List.find?_isSome]
  exact ⟨e, he, by simp⟩

theorem checkTimes_eq_nil (hi : inv.Plain) {s : Signature} (h : c.checkTimes inv s = []) :
    inv.times.length = s.events.length ∧ ∀ t ∈ inv.times, t.event ∈ c.signature.eventNames := by
  unfold checkTimes at h
  split at h
  · simp at h
  next hlen =>
    rw [List.map_eq_nil_iff, List.filter_eq_nil_iff] at h
    refine ⟨not_not.1 hlen, fun t ht => ?_⟩
    have hsome := h t ht
    rw [Option.isNone_iff_eq_none, ← ne_eq, Option.ne_none_iff_exists'] at hsome
    obtain ⟨e, he⟩ := hsome
    obtain ⟨hmem, hname⟩ := mem_eventNames_of_event? (hi t ht) he
    exact List.mem_map.2 ⟨e, hmem, hname⟩

theorem named_zip (hi : inv.Plain) (names : List String) : Time.Named (names.zip inv.times) :=
  fun b hb => hi b.2 (List.of_mem_zip hb).2

/-- The callee's demands follow from the fit of the instance and from the clauses on events. -/
theorem admits_of_checks (hc : c.Registered) (hf : i.Fits c.signature) {times : List (String × Time)}
    (loc : Option Loc)
    (h : ∀ clause ∈ i.signature.eventClauses, c.checkClause clause i times loc = .ok none)
    (v : Valuation) (hv : c.signature.Admits v.symbol) :
    i.signature.Admits (v.bound i.bindings times).symbol := by
  refine ⟨fun clause hmem => ?_, hf.width v hv times⟩
  cases hm : clause.mentionsEvents with
  | false => exact hf.clause v hv times clause (List.mem_filter.2 ⟨hmem, by simp [hm]⟩)
  | true =>
    have hplain := hf.plain.clause clause hmem
    exact holds_of_checkClause hplain.1 hplain.2 (h clause (List.mem_filter.2 ⟨hmem, hm⟩))
      ((hc.facts _).2 hv)

theorem schedule_eq_some {f : Firing} {found : List Diagnostic}
    (h : c.schedule instances inv = .ok (some f, found)) :
    found = [] ∧ instances.find? (·.name == inv.target) = some f.inst ∧ f.name = inv.name ∧
      f.times = f.inst.signature.eventNames.zip inv.times ∧
      c.checkTimes inv f.inst.signature = [] ∧
      (∀ clause ∈ f.inst.signature.eventClauses,
        c.checkClause clause f.inst f.times inv.loc = .ok none) ∧
      f.inst.signature.ports.mapM (·.bind f.times f.inst.bindings) = .ok f.ports := by
  unfold schedule at h
  split at h
  · cases h
  next i hi =>
    extract_lets callee misfits times at h
    split at h
    · cases h
    next hmisfits =>
      simp only [bind_eq_ok] at h
      obtain ⟨clauses, hclauses, h⟩ := h
      split at h
      next hnone =>
        simp only [bind_eq_ok, pure_eq_ok, Prod.mk.injEq, Option.some.injEq] at h
        obtain ⟨ports, hports, rfl, rfl⟩ := h
        refine ⟨rfl, hi, rfl, rfl, by simpa using hmisfits, fun clause hmem => ?_, hports⟩
        obtain ⟨d, hd, hcheck⟩ := exists_right_of_forall₂ (mapM_eq_ok.1 hclauses) hmem
        have hnone : d = none := List.filterMap_eq_nil_iff.1 hnone d hd
        rwa [hnone] at hcheck
      · cases h

theorem schedule_eq_none {found : List Diagnostic} (h : c.schedule instances inv = .ok (none, found)) :
    found ≠ [] := by
  unfold schedule at h
  split at h
  · cases h
    simp
  next i hi =>
    extract_lets callee misfits times at h
    split at h
    next hmisfits =>
      simp only [pure_eq_ok, Prod.mk.injEq, true_and] at h
      subst h
      simpa using hmisfits
    next =>
      simp only [bind_eq_ok] at h
      obtain ⟨clauses, hclauses, h⟩ := h
      split at h
      · simp only [bind_eq_ok, pure_eq_ok, Prod.mk.injEq, reduceCtorEq, false_and, and_false,
          exists_false] at h
      next hne =>
        cases h
        exact hne

theorem serves_of_schedule (hc : c.Registered) (hfits : ∀ i ∈ instances, i.Fits c.signature)
    (hi : inv.Plain) {f : Firing} {found : List Diagnostic}
    (h : c.schedule instances inv = .ok (some f, found)) : f.Serves c.signature inv := by
  obtain ⟨-, hfind, hname, htimes, hcheck, hclauses, hports⟩ := schedule_eq_some h
  have hf := hfits f.inst (List.mem_of_find?_eq_some hfind)
  obtain ⟨harity, hevents⟩ := checkTimes_eq_nil hi hcheck
  have hnamed : Time.Named f.times := htimes ▸ named_zip hi _
  refine ⟨hname, by simpa using List.find?_some hfind, hf, htimes, harity, hevents,
    admits_of_checks hc hf inv.loc hclauses, ?_⟩
  refine (forall₂_mem (mapM_eq_ok.1 hports)).imp ?_
  rintro p b ⟨hp, -, hb⟩
  exact Port.means_of_bind hnamed (hf.plain.width p hp) (hf.valid.width p hp).events_eq_nil hb

theorem succeeds_schedule (hc : c.Registered) (hfits : ∀ i ∈ instances, i.Fits c.signature)
    (hi : inv.Plain) : Succeeds (c.schedule instances inv) := by
  unfold schedule
  split
  · exact succeeds_pure _
  next i hfind =>
    have hf := hfits i (List.mem_of_find?_eq_some hfind)
    extract_lets callee misfits times
    refine .ite (fun _ => succeeds_pure _) fun _ => ?_
    refine Succeeds.bind (.mapM fun clause hmem => ?_) fun clauses hclauses => ?_
    · have hmem := (List.mem_filter.1 hmem).1
      exact succeeds_checkClause hf.linear ⟨(hf.plain.clause _ hmem).1, (hf.valid.clause _ hmem).1.linear⟩
        ⟨(hf.plain.clause _ hmem).2, (hf.valid.clause _ hmem).2.linear⟩
    split
    next hnone =>
      refine Succeeds.bind (.mapM fun p hmem => ?_) fun _ _ => succeeds_pure _
      -- the caller admits something, and there the callee's interval holds a cycle
      obtain ⟨ρ, hρ⟩ := hc.valid.admitted
      obtain ⟨v, rfl⟩ := Valuation.exists_symbol_eq ρ
      have hadm : callee.Admits (v.bound i.bindings times).symbol := by
        refine admits_of_checks hc hf inv.loc (fun clause hmem => ?_) v hρ
        obtain ⟨d, hd, hcheck⟩ := exists_right_of_forall₂ (mapM_eq_ok.1 hclauses) hmem
        have hnone : d = none := List.filterMap_eq_nil_iff.1 hnone d hd
        rwa [hnone] at hcheck
      have hlt := hf.valid.nonempty _ hadm p hmem
      have hwidth := Expr.linear_subst_of_mem (hf.plain.width p hmem) (hf.valid.width p hmem).linear
        hf.linear []
      exact (Expr.succeeds_toForm hwidth).bind fun _ _ =>
        (Interval.succeeds_subst (named_zip hi _) v i.bindings hlt).bind fun _ _ => succeeds_pure _
    · exact succeeds_pure _

end Caller

end Chronogram
