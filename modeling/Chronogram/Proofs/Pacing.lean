import Chronogram.Proofs.CallSite
import Chronogram.Proofs.Delays

/-! The check of delays is exact. It sorts the triggerings of an instance by their offsets, which are
comparable only once their events are seen to agree, and looks at neighbours. Neighbours suffice,
because delays are positive; and all that is asked of the caller's facts is what holds wherever the
caller admits. -/

namespace Chronogram

open Fallible

namespace Firing

variable {f g : Firing} {e : Event} {v : Valuation}

def cycleAt (f : Firing) (e : Event) (v : Valuation) : Int :=
  (v.bound f.inst.bindings f.times).event e.name

theorem cycleAt_eq {t : Time} (h : f.time? e.name = some t) : f.cycleAt e v = v.event t.event + t.offset :=
  Valuation.event_bound h

/-- The later one comes at least the delay of the earlier one after it. -/
def Apart (f g : Firing) (e : Event) (v : Valuation) : Prop :=
  (f.cycleAt e v ≤ g.cycleAt e v → f.delayAt e v ≤ g.cycleAt e v - f.cycleAt e v) ∧
    (g.cycleAt e v ≤ f.cycleAt e v → g.delayAt e v ≤ f.cycleAt e v - g.cycleAt e v)

theorem Apart.symm (h : f.Apart g e v) : g.Apart f e v := ⟨h.2, h.1⟩

end Firing

/-- The callee's event is on one event of the caller in all triggerings. Wherever the caller admits, any
two of them are apart, and each one is over when the caller may be triggered again, even if this is
counted from the earliest one. -/
def Signature.Paces (caller : Signature) (e : Event) (log : List Firing) : Prop :=
  ∃ own ∈ caller.events, (∀ f ∈ log, ∃ t, f.time? e.name = some t ∧ t.event = own.name) ∧
    ∀ v : Valuation, caller.Admits v.symbol →
      (log.Pairwise fun f g => f.Apart g e v) ∧
        ∀ f ∈ log, ∀ g ∈ log,
          f.cycleAt e v + f.delayAt e v ≤ g.cycleAt e v + own.delay.eval v.symbol

def Diagnostic.instance? (d : Diagnostic) : Option String :=
  match d.fields.lookup "instance" with
  | some (.text name _) => some name
  | _ => none

namespace Schedule

theorem insert_perm (u : Time × Firing) (uses : List (Time × Firing)) : (insert u uses).Perm (u :: uses) := by
  induction uses with
  | nil => exact .refl _
  | cons first rest ih =>
    rw [insert]
    split
    · exact (ih.cons first).trans (.swap u first rest)
    · exact .refl _

abbrev Sorted (uses : List (Time × Firing)) : Prop := uses.Pairwise fun a b => a.1.offset ≤ b.1.offset

theorem Sorted.insert {uses : List (Time × Firing)} (h : Sorted uses) (u : Time × Firing) :
    Sorted (insert u uses) := by
  induction uses with
  | nil => exact List.pairwise_singleton _ _
  | cons first rest ih =>
    obtain ⟨hfirst, hrest⟩ := List.pairwise_cons.1 h
    rw [Schedule.insert]
    split
    next hle =>
      refine List.pairwise_cons.2 ⟨fun w hw => ?_, ih hrest⟩
      rcases mem_insert.1 hw with rfl | hw
      · exact hle
      · exact hfirst w hw
    next hlt =>
      refine List.pairwise_cons.2 ⟨fun w hw => ?_, h⟩
      rcases List.mem_cons.1 hw with rfl | hw
      · omega
      · have := hfirst w hw
        omega

theorem foldl_insert (timed : List (Time × Firing)) {sorted : List (Time × Firing)} (h : Sorted sorted) :
    Sorted (timed.foldl (fun sorted u => insert u sorted) sorted) ∧
      (timed.foldl (fun sorted u => insert u sorted) sorted).Perm (timed ++ sorted) := by
  induction timed generalizing sorted with
  | nil => exact ⟨h, .refl _⟩
  | cons u timed ih =>
    obtain ⟨hsorted, hperm⟩ := ih (h.insert u)
    exact ⟨hsorted, hperm.trans (((insert_perm u sorted).append_left timed).trans List.perm_middle)⟩

/-- The triggerings with their times, each as often as it is in the log and ordered by offset. -/
theorem ordered_spec {log : List Firing} {event : String} {uses : List (Time × Firing)}
    (h : ordered log event = .ok uses) : Sorted uses ∧ (uses.map (·.2)).Perm log := by
  obtain ⟨timed, htimed, rfl⟩ := exists_timed h
  obtain ⟨hsorted, hperm⟩ := foldl_insert timed List.Pairwise.nil
  refine ⟨hsorted, ?_⟩
  have hlog : timed.map (·.2) = log := by
    clear h hsorted hperm
    induction htimed with
    | nil => rfl
    | cons hu _ ih => rw [List.map_cons, ih, hu.2]
  rw [← hlog]
  simpa using hperm.map (·.2)

end Schedule

namespace Caller

variable {c : Caller} {i : Instance} {e : Event} {log : List Firing}

theorem checkComparable_eq_none_iff {uses : List (Time × Firing)} :
    c.checkComparable i e uses = none ↔ ∀ a ∈ uses, ∀ b ∈ uses, a.1.event = b.1.event := by
  refine ⟨fun h a ha b hb => checkComparable_eq_none h ha hb, fun h => ?_⟩
  cases uses with
  | nil => rfl
  | cons first rest =>
    simp only [checkComparable, Option.map_eq_none_iff, List.find?_eq_none, bne_iff_ne, ne_eq, not_not]
    exact fun u hu => h u (List.mem_cons_of_mem _ hu) first List.mem_cons_self

theorem checkSpacing_eq_none_iff (hc : c.Registered) (he : e.delay.Plain) {a b : Time × Firing}
    (hdelay : Succeeds (a.2.delay e)) (hsame : b.1.event = a.1.event) :
    c.checkSpacing i e a b = .ok none ↔
      ∀ v : Valuation, c.signature.Admits v.symbol → a.2.delayAt e v ≤ b.1.offset - a.1.offset := by
  refine ⟨fun h v hv => apart_of_checkSpacing hc he h hv, fun h => ?_⟩
  obtain ⟨delay, hdelay⟩ := hdelay
  have hproves : c.proves (delay.shift (-(b.1.offset - a.1.offset))) .le = true := by
    refine hc.proves_iff.2 fun v hv => ?_
    have hle := h v hv
    rw [← Firing.eval_delay he hdelay] at hle
    simp only [Relation.Holds, LinearForm.eval_shift]
    omega
  simp only [checkSpacing, bind_eq_ok, mapError_eq_ok, Time.since_eq_ok]
  exact ⟨delay, hdelay, _, ⟨hsame, rfl⟩, by rw [if_pos hproves]; rfl⟩

theorem checkThroughput_eq_none_iff (hc : c.Registered) (he : e.delay.Plain) {start : Time} {own : Event}
    {budget : LinearForm} (hbudget : own.delay.toForm = .ok budget) {u : Time × Firing}
    (hdelay : Succeeds (u.2.delay e)) (hsame : u.1.event = start.event) :
    c.checkThroughput i e start own budget u = .ok none ↔
      ∀ v : Valuation, c.signature.Admits v.symbol →
        u.2.delayAt e v + (u.1.offset - start.offset) ≤ own.delay.eval v.symbol := by
  have hvalue : ∀ v : Valuation, budget.eval v.symbol = own.delay.eval v.symbol := fun v =>
    Expr.eval_linearize (Expr.toForm_eq_ok.1 hbudget) v.symbol
  simp only [← hvalue]
  refine ⟨fun h v hv => over_of_checkThroughput hc he h hv, fun h => ?_⟩
  obtain ⟨delay, hdelay⟩ := hdelay
  have hproves : c.proves (delay.shift (u.1.offset - start.offset) - budget) .le = true := by
    refine hc.proves_iff.2 fun v hv => ?_
    have hle := h v hv
    rw [← Firing.eval_delay he hdelay] at hle
    simp only [Relation.Holds, LinearForm.eval_sub, LinearForm.eval_shift]
    omega
  simp only [checkThroughput, bind_eq_ok, mapError_eq_ok, Time.since_eq_ok]
  exact ⟨delay, hdelay, _, ⟨hsame, rfl⟩, by rw [if_pos hproves]; rfl⟩

theorem checkEvent_of_checks {first : Time × Firing} {rest : List (Time × Firing)} {own : Event}
    {budget : LinearForm} (huses : Schedule.ordered log e.name = .ok (first :: rest))
    (hsame : c.checkComparable i e (first :: rest) = none)
    (hspacing : ∀ p ∈ (first :: rest).zip rest, c.checkSpacing i e p.1 p.2 = .ok none)
    (hown : c.signature.event? first.1.event = some own) (hbudget : own.delay.toForm = .ok budget)
    (hbusy : ∀ u ∈ first :: rest, c.checkThroughput i e first.1 own budget u = .ok none) :
    c.checkEvent i log e = .ok none := by
  rw [checkEvent]
  refine bind_eq_ok.2 ⟨_, huses, ?_⟩
  rw [hsame]
  refine bind_eq_ok.2 ⟨none, firstComplaint_of_forall hspacing, ?_⟩
  dsimp only
  rw [hown]
  exact bind_eq_ok.2 ⟨budget, hbudget, firstComplaint_of_forall hbusy⟩

theorem cycleAt_of_mem {uses : List (Time × Firing)} (huses : Schedule.ordered log e.name = .ok uses)
    {u : Time × Firing} (hu : u ∈ uses) (v : Valuation) :
    u.2.cycleAt e v = v.event u.1.event + u.1.offset :=
  Firing.cycleAt_eq ((Schedule.ordered_eq_ok huses).1 u hu).2

theorem pairwise_apart_iff {uses : List (Time × Firing)} (huses : Schedule.ordered log e.name = .ok uses)
    (v : Valuation) :
    (log.Pairwise fun f g => f.Apart g e v) ↔ uses.Pairwise fun a b => a.2.Apart b.2 e v := by
  rw [← (Schedule.ordered_spec huses).2.pairwise_iff fun h => h.symm, List.pairwise_map]

theorem neighbours_of_pairwise {α : Type} {P : α → α → Prop} {as : List α} (h : as.Pairwise P) :
    ∀ p ∈ as.zip as.tail, P p.1 p.2 := by
  induction as with
  | nil => simp
  | cons a as ih =>
    cases as with
    | nil => simp
    | cons b as =>
      obtain ⟨ha, hrest⟩ := List.pairwise_cons.1 h
      rw [List.tail_cons, List.zip_cons_cons, List.forall_mem_cons]
      exact ⟨ha b List.mem_cons_self, ih hrest⟩

/-- Neighbours that are all far enough from each other are the same as triggerings that are all apart. -/
theorem Logs.spacing_iff (hc : c.Registered) (hl : c.Logs i log) (he : e ∈ i.signature.events)
    (hp : e.delay.Plain) {uses : List (Time × Firing)} (huses : Schedule.ordered log e.name = .ok uses)
    (hsame : ∀ a ∈ uses, ∀ b ∈ uses, a.1.event = b.1.event) :
    (∀ p ∈ uses.zip uses.tail, c.checkSpacing i e p.1 p.2 = .ok none) ↔
      ∀ v : Valuation, c.signature.Admits v.symbol → log.Pairwise fun f g => f.Apart g e v := by
  obtain ⟨hmem, -⟩ := Schedule.ordered_eq_ok huses
  simp only [pairwise_apart_iff huses]
  constructor
  · intro h v hv
    have hpairs := pairwise_of_neighbours (fun u hu => hl.delay_pos he (hmem u hu).1 hv)
      fun p hp' => apart_of_checkSpacing hc hp (h p hp') hv
    refine hpairs.imp_of_mem fun {a b} ha hb hab => ?_
    rw [Firing.Apart, cycleAt_of_mem huses ha, cycleAt_of_mem huses hb, hsame a ha b hb]
    constructor <;> omega
  · intro h p hp'
    have hfst := (List.of_mem_zip hp').1
    have hsnd := List.mem_of_mem_tail (List.of_mem_zip hp').2
    have hdelay : Succeeds (p.1.2.delay e) := by
      obtain ⟨inv, -, hs⟩ := hl.serves p.1.2 (hmem _ hfst).1
      exact p.1.2.succeeds_delay hs.fits (hl.same _ (hmem _ hfst).1 ▸ he)
    refine (checkSpacing_eq_none_iff hc hp hdelay (hsame _ hsnd _ hfst)).2 fun v hv => ?_
    -- neighbours stand in the order of their cycles
    have hle := neighbours_of_pairwise (Schedule.ordered_spec huses).1 p hp'
    have hapart := neighbours_of_pairwise (h v hv) p hp'
    rw [Firing.Apart, cycleAt_of_mem huses hfst, cycleAt_of_mem huses hsnd, hsame _ hsnd _ hfst] at hapart
    have := hapart.1 (by omega)
    omega

theorem paces_of_checkEvent (hc : c.Registered) (hl : c.Logs i log) (hne : log ≠ [])
    (he : e ∈ i.signature.events) (hp : e.delay.Plain) (h : c.checkEvent i log e = .ok none) :
    c.signature.Paces e log := by
  obtain ⟨first, rest, own, budget, huses, hsame, hspacing, hown, hbudget, hbusy⟩ :=
    checkEvent_eq_none hne h
  obtain ⟨hmem, hall⟩ := Schedule.ordered_eq_ok huses
  obtain ⟨hfirst, hfirst'⟩ := hmem first List.mem_cons_self
  obtain ⟨t, ht, hname, -⟩ := hl.exists_time he hfirst
  obtain rfl : t = first.1 := by simpa [hfirst'] using ht.symm
  obtain ⟨hown_mem, hown_name⟩ := mem_eventNames_of_event? hname hown
  have hevent : ∀ u ∈ first :: rest, u.1.event = own.name := by
    intro u hu
    rw [hown_name]
    exact checkComparable_eq_none hsame hu List.mem_cons_self
  refine ⟨own, hown_mem, fun f hf => ?_, fun v hv => ⟨?_, fun f hf g hg => ?_⟩⟩
  · obtain ⟨t, ht, hu⟩ := hall f hf
    exact ⟨t, ht, hevent _ hu⟩
  · exact (hl.spacing_iff hc he hp huses (checkComparable_eq_none_iff.1 hsame)).1 hspacing v hv
  · obtain ⟨t, -, ht⟩ := hall f hf
    obtain ⟨u, -, hu⟩ := hall g hg
    have hle := over_of_checkThroughput hc hp (hbusy _ ht) hv
    rw [Expr.eval_linearize (Expr.toForm_eq_ok.1 hbudget)] at hle
    have hstart : first.1.offset ≤ u.offset := by
      rcases List.mem_cons.1 hu with heq | hu
      · rw [← heq]
      · exact (List.pairwise_cons.1 (Schedule.ordered_spec huses).1).1 _ hu
    have hf' := cycleAt_of_mem huses ht v
    have hg' := cycleAt_of_mem huses hu v
    rw [hevent _ ht] at hf'
    rw [hevent _ hu] at hg'
    dsimp only at hf' hg' hle
    omega

theorem checkEvent_of_paces (hc : c.Registered) (hl : c.Logs i log) (hne : log ≠ [])
    (he : e ∈ i.signature.events) (hp : e.delay.Plain) (h : c.signature.Paces e log) :
    c.checkEvent i log e = .ok none := by
  obtain ⟨own, hown_mem, htime, hpaced⟩ := h
  obtain ⟨uses, huses⟩ := Schedule.succeeds_ordered fun f hf => by
    obtain ⟨t, ht, -⟩ := htime f hf
    exact ⟨t, ht⟩
  obtain ⟨hmem, hall⟩ := Schedule.ordered_eq_ok huses
  have hevent : ∀ u ∈ uses, u.1.event = own.name := by
    intro u hu
    obtain ⟨hf, hu'⟩ := hmem u hu
    obtain ⟨t, ht, hname⟩ := htime u.2 hf
    obtain rfl : t = u.1 := by simpa [ht] using hu'
    exact hname
  have hdelay : ∀ u ∈ uses, Succeeds (u.2.delay e) := by
    intro u hu
    obtain ⟨inv, -, hs⟩ := hl.serves u.2 (hmem u hu).1
    exact u.2.succeeds_delay hs.fits (hl.same _ (hmem u hu).1 ▸ he)
  cases uses with
  | nil =>
    obtain ⟨f, hf⟩ := List.exists_mem_of_ne_nil _ hne
    obtain ⟨t, -, ht⟩ := hall f hf
    simp at ht
  | cons first rest =>
    have hsame : ∀ a ∈ first :: rest, ∀ b ∈ first :: rest, a.1.event = b.1.event := fun a ha b hb =>
      (hevent a ha).trans (hevent b hb).symm
    have hown : c.signature.event? first.1.event = some own := by
      obtain ⟨hfirst, hfirst'⟩ := hmem first List.mem_cons_self
      obtain ⟨t, ht, hname, hdeclared⟩ := hl.exists_time he hfirst
      obtain rfl : t = first.1 := by simpa [hfirst'] using ht.symm
      obtain ⟨found, hfound⟩ := exists_event? hname hdeclared
      obtain ⟨hmem_found, hname_found⟩ := mem_eventNames_of_event? hname hfound
      have heq : found.name = own.name := hname_found.trans (hevent first List.mem_cons_self)
      rw [hfound, List.inj_on_of_nodup_map hc.valid.events_nodup hmem_found hown_mem heq]
    obtain ⟨budget, hbudget⟩ := Expr.succeeds_toForm (hc.valid.delay own hown_mem).linear
    refine checkEvent_of_checks huses (checkComparable_eq_none_iff.2 hsame) ?_ hown hbudget fun u hu => ?_
    · exact (hl.spacing_iff hc he hp huses hsame).2 fun v hv => (hpaced v hv).1
    · refine (checkThroughput_eq_none_iff hc hp hbudget (hdelay u hu)
        (hsame u hu first List.mem_cons_self)).2 fun v hv => ?_
      have hover := (hpaced v hv).2 u.2 (hmem u hu).1 first.2 (hmem first List.mem_cons_self).1
      rw [cycleAt_of_mem huses hu, cycleAt_of_mem huses List.mem_cons_self,
        hsame u hu first List.mem_cons_self] at hover
      omega

theorem Logs.checkLog_eq (hl : c.Logs i log) (hne : log ≠ []) :
    c.checkLog log = firstComplaint (c.checkEvent i log) i.signature.events := by
  obtain ⟨f, rest, rfl⟩ := List.exists_cons_of_ne_nil hne
  rw [← hl.same f List.mem_cons_self]
  rfl

theorem Logs.plain_delay (hl : c.Logs i log) (hne : log ≠ []) : ∀ e ∈ i.signature.events, e.delay.Plain := by
  obtain ⟨f, hf⟩ := List.exists_mem_of_ne_nil log hne
  obtain ⟨inv, -, hs⟩ := hl.serves f hf
  exact hl.same f hf ▸ hs.fits.plain.delay

theorem Logs.checkLog_eq_none_iff (hc : c.Registered) (hl : c.Logs i log) (hne : log ≠ []) :
    c.checkLog log = .ok none ↔ ∀ e ∈ i.signature.events, c.signature.Paces e log := by
  have hplain := hl.plain_delay hne
  rw [hl.checkLog_eq hne]
  constructor
  · intro h e he
    exact paces_of_checkEvent hc hl hne he (hplain e he) (firstComplaint_eq_none h e he)
  · intro h
    exact firstComplaint_of_forall fun e he => checkEvent_of_paces hc hl hne he (hplain e he) (h e he)

section About

variable {d : Diagnostic}

theorem about_of_checkComparable {uses : List (Time × Firing)} (h : c.checkComparable i e uses = some d) :
    d.instance? = some i.name ∧ d.kind = .incomparableEvents := by
  cases uses with
  | nil => cases h
  | cons first rest =>
    obtain ⟨u, -, rfl⟩ := Option.map_eq_some_iff.1 h
    exact ⟨rfl, rfl⟩

theorem about_of_checkSpacing {a b : Time × Firing} (h : c.checkSpacing i e a b = .ok (some d)) :
    d.instance? = some i.name ∧ d.kind = .delayViolation := by
  simp only [checkSpacing, bind_eq_ok] at h
  obtain ⟨delay, -, gap, -, h⟩ := h
  split at h
  · cases h
  · cases h
    exact ⟨rfl, rfl⟩

theorem instance?_of_checkThroughput {start : Time} {own : Event} {budget : LinearForm} {u : Time × Firing}
    (h : c.checkThroughput i e start own budget u = .ok (some d)) : d.instance? = some i.name := by
  simp only [checkThroughput, bind_eq_ok] at h
  obtain ⟨delay, -, gap, -, h⟩ := h
  split at h
  · cases h
  · cases h
    rfl

theorem exists_of_firstComplaint {α : Type} {check : α → Except Fault (Option Diagnostic)} {as : List α}
    (h : firstComplaint check as = .ok (some d)) : ∃ a ∈ as, check a = .ok (some d) := by
  induction as with
  | nil => cases h
  | cons a as ih =>
    rw [firstComplaint] at h
    obtain ⟨found, hfound, h⟩ := bind_eq_ok.1 h
    cases found with
    | some d' =>
      cases h
      exact ⟨a, List.mem_cons_self, hfound⟩
    | none =>
      obtain ⟨b, hb, hcheck⟩ := ih h
      exact ⟨b, List.mem_cons_of_mem _ hb, hcheck⟩

/-- Whatever is complained about an event of an instance names the instance. -/
theorem instance?_of_checkEvent (h : c.checkEvent i log e = .ok (some d)) : d.instance? = some i.name := by
  simp only [checkEvent, bind_eq_ok] at h
  obtain ⟨uses, -, h⟩ := h
  cases hsame : c.checkComparable i e uses with
  | some d' =>
    rw [hsame] at h
    cases h
    exact (about_of_checkComparable hsame).1
  | none =>
    rw [hsame] at h
    obtain ⟨found, hspacing, h⟩ := bind_eq_ok.1 h
    cases found with
    | some d' =>
      cases h
      obtain ⟨p, -, hp⟩ := exists_of_firstComplaint hspacing
      exact (about_of_checkSpacing hp).1
    | none =>
      cases uses with
      | nil => cases h
      | cons first rest =>
        dsimp only at h
        split at h
        · cases h
        · obtain ⟨budget, -, h⟩ := bind_eq_ok.1 h
          obtain ⟨u, -, hu⟩ := exists_of_firstComplaint h
          exact instance?_of_checkThroughput hu

theorem instance?_of_checkLog {s : Schedule} {name : String}
    (h : c.checkLog (s.history name) = .ok (some d)) : d.instance? = some name := by
  unfold checkLog at h
  split at h
  · cases h
  next f rest hcons =>
    obtain ⟨e, -, he⟩ := exists_of_firstComplaint h
    have hf : f ∈ s.history name := by simp [hcons]
    have hname : f.inst.name = name := by simpa using (List.mem_filter.1 hf).2
    rw [instance?_of_checkEvent he, hname]

end About

/-- There is at most one complaint for each instance that is triggered, namely the one about its log. -/
theorem checkDelays_spec {s : Schedule} {found : List Diagnostic} (h : c.checkDelays s = .ok found) :
    (found.map (·.instance?)).Sublist (s.instances.map some) ∧ ∀ name ∈ s.instances,
      ((∀ d ∈ found, d.instance? ≠ some name) ↔ c.checkLog (s.history name) = .ok none) := by
  simp only [checkDelays, bind_eq_ok, pure_eq_ok, mapM_eq_ok] at h
  obtain ⟨results, hresults, rfl⟩ := h
  refine ⟨sublist_of_forall₂ hresults ?_, fun name hname => ?_⟩
  · rintro name _ d hd rfl
    exact instance?_of_checkLog hd
  obtain ⟨result, hmem, hcheck⟩ := exists_right_of_forall₂ hresults hname
  constructor
  · intro hnone
    cases result with
    | none => exact hcheck
    | some d => exact absurd (instance?_of_checkLog hcheck) (hnone d (List.mem_filterMap.2 ⟨_, hmem, rfl⟩))
  · intro hnone d hd hinst
    obtain ⟨result', hmem', rfl⟩ := List.mem_filterMap.1 hd
    obtain ⟨name', -, hcheck'⟩ := exists_left_of_forall₂ hresults hmem'
    obtain rfl : name' = name := by
      rw [instance?_of_checkLog hcheck'] at hinst
      exact Option.some.inj hinst
    rw [hnone] at hcheck'
    cases hcheck'

end Caller

/-- The triggerings that any invocations of resolved instances make in a registered caller pass the check
of delays exactly if they are paced on each event of their callee. There is at most one complaint for
each instance. -/
theorem exact_delays {t : Table} (ht : t.Built) {name : String} {s : Signature}
    (hs : t.get? name = some s) : ∃ c, Caller.of t s = .ok c ∧
      ∀ instances : List Instance, (∀ i ∈ instances, ∃ inst, c.resolve t inst = .ok (some i, [])) →
        ∀ invocations : List Invocation, (∀ inv ∈ invocations, inv.Plain) →
          ∃ schedule found, c.invokeAll instances [] invocations = .ok schedule ∧
            c.checkDelays schedule = .ok found ∧
            (found.map (·.instance?)).Nodup ∧
            (∀ d ∈ found, ∃ f ∈ schedule, d.instance? = some f.inst.name) ∧
            ∀ f ∈ schedule, (∀ d ∈ found, d.instance? ≠ some f.inst.name) ↔
              ∀ e ∈ f.inst.signature.events, s.Paces e (schedule.history f.inst.name) := by
  obtain ⟨c, hcaller, rfl, hc⟩ := Caller.of_registered ht hs
  refine ⟨c, hcaller, fun instances hresolved invocations hplain => ?_⟩
  have hfits : ∀ i ∈ instances, i.Fits c.signature := by
    intro i hi
    obtain ⟨inst, hinst⟩ := hresolved i hi
    exact Caller.fits_of_resolve hc ht hinst
  obtain ⟨schedule, hschedule⟩ := Caller.succeeds_invokeAll hc hfits hplain []
  have hlogs : ∀ f ∈ schedule, c.Logs f.inst (schedule.history f.inst.name) := by
    intro f hf
    refine Caller.logs_of_scheduled hc hfits (fun g hg => ?_) hf
    rcases Caller.mem_of_invokeAll hschedule g hg with hnil | ⟨inv, hinv, hg⟩
    · simp at hnil
    · exact ⟨inv, hplain inv hinv, hg⟩
  obtain ⟨found, hfound⟩ := Caller.succeeds_checkDelays hc hlogs
  obtain ⟨hsublist, hnone⟩ := Caller.checkDelays_spec hfound
  refine ⟨schedule, found, hschedule, hfound, ?_, fun d hd => ?_, fun f hf => ?_⟩
  · exact hsublist.nodup ((Text.nodup_eraseDups _).map (Option.some_injective _))
  · obtain ⟨n, hn, hinst⟩ := List.mem_map.1 (hsublist.subset (List.mem_map_of_mem hd))
    rw [Schedule.instances, List.mem_eraseDups] at hn
    obtain ⟨f, hf, rfl⟩ := List.mem_map.1 hn
    exact ⟨f, hf, hinst.symm⟩
  · have hname : f.inst.name ∈ schedule.instances := by
      rw [Schedule.instances, List.mem_eraseDups]
      exact List.mem_map_of_mem hf
    rw [hnone _ hname]
    exact (hlogs f hf).checkLog_eq_none_iff hc (List.ne_nil_of_mem (Caller.mem_history hf))

namespace Hold

/-- The triggerings of the sample's instance that some invocations make, and what is wrong with them. -/
def paced (invocations : List Invocation) : Except Fault (Option Instance × Schedule × List Diagnostic) := do
  let c ← Caller.of table main.signature
  let resolved ← c.resolve table inst
  let schedule ← c.invokeAll resolved.1.toList [] invocations
  return (resolved.1, schedule, ← c.checkDelays schedule)

def verdict (invocations : List Invocation) : Option (Bool × List String × Bool) :=
  (paced invocations).toOption.map fun r => (r.1.isSome, r.2.1.map (·.inst.name), r.2.2.isEmpty)

theorem verdicts : verdict [first, second] = some (true, ["h", "h"], true) ∧
    verdict [first, first] = some (true, ["h", "h"], false) := by decide +kernel

theorem exists_of_verdict {invocations : List Invocation} {names : List String} {fine : Bool}
    (h : verdict invocations = some (true, names, fine)) :
    ∃ c i schedule found, Caller.of table main.signature = .ok c ∧
      c.resolve table inst = .ok (some i, []) ∧ c.invokeAll [i] [] invocations = .ok schedule ∧
      c.checkDelays schedule = .ok found ∧ schedule.map (·.inst.name) = names ∧ found.isEmpty = fine := by
  obtain ⟨r, hr, hvalue⟩ := Option.map_eq_some_iff.1 h
  simp only [paced, toOption_eq_some, bind_eq_ok, pure_eq_ok] at hr
  obtain ⟨c, hc, ⟨i, wrong⟩, hresolve, schedule, hschedule, found, hfound, rfl⟩ := hr
  simp only [Prod.mk.injEq] at hvalue
  obtain ⟨hsome, hnames, hfine⟩ := hvalue
  cases i with
  | none => cases hsome
  | some i =>
    obtain ⟨rfl, -⟩ := Caller.resolve_eq_some hresolve
    exact ⟨c, i, schedule, found, hc, hresolve, hschedule, hfound, hnames, hfine⟩

theorem plain_of_subset {invocations : List Invocation} (h : invocations ⊆ body.invocations) :
    ∀ inv ∈ invocations, inv.Plain := fun inv hinv => (plain.body body rfl).invocations inv (h hinv)

end Hold

/-- In the sample, triggerings in successive cycles are paced, and two of them in the same cycle are not. -/
theorem exact_delays_hold : ∃ c i, Caller.of Hold.table Hold.main.signature = .ok c ∧
    (∃ schedule, c.invokeAll [i] [] [Hold.first, Hold.second] = .ok schedule ∧
      schedule.map (·.inst.name) = ["h", "h"] ∧ ∀ f ∈ schedule, ∀ e ∈ f.inst.signature.events,
        Hold.main.signature.Paces e (schedule.history f.inst.name)) ∧
    ∃ schedule, c.invokeAll [i] [] [Hold.first, Hold.first] = .ok schedule ∧
      ∃ f ∈ schedule, ¬ ∀ e ∈ f.inst.signature.events,
        Hold.main.signature.Paces e (schedule.history f.inst.name) := by
  obtain ⟨c, hcaller, hexact⟩ := exact_delays Hold.built Hold.registered.1
  obtain ⟨c₁, i, schedule₁, found₁, hcaller₁, hresolve, hschedule₁, hfound₁, hnames, hfine⟩ :=
    Hold.exists_of_verdict Hold.verdicts.1
  obtain ⟨c₂, j, schedule₂, found₂, hcaller₂, hresolve', hschedule₂, hfound₂, -, hwrong⟩ :=
    Hold.exists_of_verdict Hold.verdicts.2
  -- there is one caller and one instance
  obtain rfl : c = c₁ := Except.ok.inj (hcaller.symm.trans hcaller₁)
  obtain rfl : c = c₂ := Except.ok.inj (hcaller.symm.trans hcaller₂)
  obtain rfl : i = j := by simpa [hresolve] using hresolve'
  have hinstances : ∀ k ∈ [i], ∃ inst, c.resolve Hold.table inst = .ok (some k, []) :=
    List.forall_mem_singleton.2 ⟨Hold.inst, hresolve⟩
  obtain ⟨s₁, d₁, hs₁, hd₁, -, -, hiff⟩ := hexact [i] hinstances [Hold.first, Hold.second]
    (Hold.plain_of_subset (by simp [Hold.body]))
  obtain ⟨s₂, d₂, hs₂, hd₂, -, habout, hiff'⟩ := hexact [i] hinstances [Hold.first, Hold.first]
    (Hold.plain_of_subset (by simp [Hold.body]))
  obtain rfl : s₁ = schedule₁ := Except.ok.inj (hs₁.symm.trans hschedule₁)
  obtain rfl : s₂ = schedule₂ := Except.ok.inj (hs₂.symm.trans hschedule₂)
  obtain rfl : d₁ = found₁ := Except.ok.inj (hd₁.symm.trans hfound₁)
  obtain rfl : d₂ = found₂ := Except.ok.inj (hd₂.symm.trans hfound₂)
  refine ⟨c, i, hcaller, ⟨s₁, hs₁, hnames, fun f hf => (hiff f hf).1 ?_⟩, s₂, hs₂, ?_⟩
  · rw [List.isEmpty_iff.1 hfine]
    simp
  · obtain ⟨d, hd⟩ := List.exists_mem_of_ne_nil d₂ fun hnil => by simp [hnil] at hwrong
    obtain ⟨f, hf, hname⟩ := habout d hd
    exact ⟨f, hf, fun h => (hiff' f hf).2 h d hd hname⟩

end Chronogram
