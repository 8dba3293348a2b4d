import Chronogram.Check.Schedule
import Chronogram.Proofs.Schedule
import Mathlib.Data.List.Chain
import Mathlib.Data.List.Pairwise

/-! The check of delays. It looks at neighbours among the triggerings of an instance only, and compares
each one with the delay of the caller. Since delays are positive, any two triggerings in one run of
the caller are apart then, and all of them are over when the caller may run again. -/

namespace Chronogram

open Fallible

namespace Firing

variable {f : Firing} {e : Event} {caller : Signature}

def delayAt (f : Firing) (e : Event) (v : Valuation) : Int :=
  e.delay.eval (v.bound f.inst.bindings f.times).symbol

theorem eval_delay (he : e.delay.Plain) {form : LinearForm} (h : f.delay e = .ok form)
    (v : Valuation) : form.eval v.symbol = f.delayAt e v := by
  rw [delay, Expr.toForm_eq_ok] at h
  rw [Expr.eval_linearize h, Expr.eval_subst he]
  rfl

theorem succeeds_delay (hf : f.inst.Fits caller) (he : e ∈ f.inst.signature.events) :
    Succeeds (f.delay e) :=
  Expr.succeeds_toForm
    (Expr.linear_subst_of_mem (hf.plain.delay e he) (hf.valid.delay e he).linear hf.linear f.times)

end Firing

namespace Schedule

theorem mem_insert {u w : Time × Firing} {uses : List (Time × Firing)} :
    w ∈ insert u uses ↔ w = u ∨ w ∈ uses := by
  induction uses with
  | nil => simp [insert]
  | cons first rest ih =>
    rw [insert]
    split
    · simp only [List.mem_cons, ih, or_left_comm]
    · simp

theorem mem_foldl_insert {w : Time × Firing} {timed sorted : List (Time × Firing)} :
    w ∈ timed.foldl (fun sorted u => insert u sorted) sorted ↔ w ∈ timed ∨ w ∈ sorted := by
  induction timed generalizing sorted with
  | nil => simp
  | cons u timed ih => rw [List.foldl_cons, ih, mem_insert, List.mem_cons, or_assoc, or_left_comm]

theorem exists_timed {log : List Firing} {event : String} {uses : List (Time × Firing)}
    (h : ordered log event = .ok uses) :
    ∃ timed, List.Forall₂ (fun f u => f.time? event = some u.1 ∧ u.2 = f) log timed ∧
      uses = timed.foldl (fun sorted u => insert u sorted) [] := by
  simp only [ordered, bind_eq_ok, pure_eq_ok, mapM_eq_ok] at h
  obtain ⟨timed, htimed, rfl⟩ := h
  refine ⟨timed, htimed.imp fun f u hu => ?_, rfl⟩
  split at hu
  next t ht =>
    cases hu
    exact ⟨ht, rfl⟩
  · cases hu

theorem ordered_eq_ok {log : List Firing} {event : String} {uses : List (Time × Firing)}
    (h : ordered log event = .ok uses) :
    (∀ u ∈ uses, u.2 ∈ log ∧ u.2.time? event = some u.1) ∧
      ∀ f ∈ log, ∃ t, f.time? event = some t ∧ (t, f) ∈ uses := by
  obtain ⟨timed, hstep, rfl⟩ := exists_timed h
  constructor
  · intro u hu
    obtain ⟨f, hf, ht, rfl⟩ := exists_left_of_forall₂ hstep (by simpa [mem_foldl_insert] using hu)
    exact ⟨hf, ht⟩
  · intro f hf
    obtain ⟨⟨t, g⟩, hu, ht, rfl⟩ := exists_right_of_forall₂ hstep hf
    exact ⟨t, ht, mem_foldl_insert.2 (.inl hu)⟩

theorem mem_instances {s : Schedule} {name : String} : name ∈ s.instances ↔ ∃ f ∈ s, f.inst.name = name := by
  rw [instances, List.mem_eraseDups, List.mem_map]

theorem succeeds_ordered {log : List Firing} {event : String}
    (h : ∀ f ∈ log, ∃ t, f.time? event = some t) : Succeeds (ordered log event) := by
  refine (Succeeds.mapM fun f hf => ?_).bind fun _ _ => succeeds_pure _
  obtain ⟨t, ht⟩ := h f hf
  exact ⟨(t, f), by rw [ht]⟩

end Schedule

namespace Caller

variable {c : Caller} {i : Instance} {e : Event} {log : List Firing}

theorem firstComplaint_eq_none {α : Type} {check : α → Except Fault (Option Diagnostic)} {as : List α}
    (h : firstComplaint check as = .ok none) : ∀ a ∈ as, check a = .ok none := by
  induction as with
  | nil => simp
  | cons a as ih =>
    rw [firstComplaint] at h
    obtain ⟨found, hfound, h⟩ := bind_eq_ok.1 h
    cases found with
    | some d => cases h
    | none => exact List.forall_mem_cons.2 ⟨hfound, ih h⟩

theorem firstComplaint_of_forall {α : Type} {check : α → Except Fault (Option Diagnostic)}
    {as : List α} (h : ∀ a ∈ as, check a = .ok none) : firstComplaint check as = .ok none := by
  induction as with
  | nil => rfl
  | cons a as ih =>
    rw [List.forall_mem_cons] at h
    rw [firstComplaint, bind_eq_ok]
    exact ⟨none, h.1, ih h.2⟩

theorem succeeds_firstComplaint {α : Type} {check : α → Except Fault (Option Diagnostic)}
    {as : List α} (h : ∀ a ∈ as, Succeeds (check a)) : Succeeds (firstComplaint check as) := by
  induction as with
  | nil => exact succeeds_pure none
  | cons a as ih =>
    rw [List.forall_mem_cons] at h
    refine h.1.bind fun found _ => ?_
    cases found with
    | some d => exact succeeds_pure _
    | none => exact ih h.2

theorem checkComparable_eq_none {uses : List (Time × Firing)}
    (h : c.checkComparable i e uses = none) {a b : Time × Firing} (ha : a ∈ uses) (hb : b ∈ uses) :
    a.1.event = b.1.event := by
  cases uses with
  | nil => simp at ha
  | cons first rest =>
    simp only [checkComparable, Option.map_eq_none_iff, List.find?_eq_none, bne_iff_ne, ne_eq,
      not_not] at h
    have hfirst : ∀ u ∈ first :: rest, u.1.event = first.1.event := by
      intro u hu
      rcases List.mem_cons.1 hu with rfl | hu
      · rfl
      · exact h u hu
    rw [hfirst a ha, hfirst b hb]

theorem apart_of_checkSpacing (hc : c.Registered) (he : e.delay.Plain) {a b : Time × Firing}
    (h : c.checkSpacing i e a b = .ok none) {v : Valuation} (hv : c.signature.Admits v.symbol) :
    a.2.delayAt e v ≤ b.1.offset - a.1.offset := by
  simp only [checkSpacing, bind_eq_ok, mapError_eq_ok, Time.since_eq_ok] at h
  obtain ⟨delay, hdelay, gap, ⟨-, rfl⟩, h⟩ := h
  split at h
  next hproves =>
    have hle := Facts.holds_of_implies hproves ((hc.facts _).2 hv)
    simp only [Relation.Holds, LinearForm.eval_shift, Firing.eval_delay he hdelay] at hle
    omega
  · cases h

theorem over_of_checkThroughput (hc : c.Registered) (he : e.delay.Plain) {start : Time} {own : Event}
    {budget : LinearForm} {u : Time × Firing} (h : c.checkThroughput i e start own budget u = .ok none)
    {v : Valuation} (hv : c.signature.Admits v.symbol) :
    u.2.delayAt e v + (u.1.offset - start.offset) ≤ budget.eval v.symbol := by
  simp only [checkThroughput, bind_eq_ok, mapError_eq_ok, Time.since_eq_ok] at h
  obtain ⟨delay, hdelay, gap, ⟨-, rfl⟩, h⟩ := h
  split at h
  next hproves =>
    have hle := Facts.holds_of_implies hproves ((hc.facts _).2 hv)
    simp only [Relation.Holds, LinearForm.eval_sub, LinearForm.eval_shift,
      Firing.eval_delay he hdelay] at hle
    omega
  · cases h

/-- Triggerings of one instance, each of which is made by an invocation of the caller. -/
structure Logs (c : Caller) (i : Instance) (log : List Firing) : Prop where
  same : ∀ f ∈ log, f.inst = i
  serves : ∀ f ∈ log, ∃ inv : Invocation, inv.Plain ∧ f.Serves c.signature inv

theorem Logs.exists_time (hl : c.Logs i log) (he : e ∈ i.signature.events) {f : Firing} (hf : f ∈ log) :
    ∃ t, f.time? e.name = some t ∧ Token.isName t.event = true ∧
      t.event ∈ c.signature.eventNames := by
  obtain ⟨inv, hinv, hs⟩ := hl.serves f hf
  have hnames : f.times.map (·.1) = f.inst.signature.eventNames := by
    rw [hs.times]
    refine List.map_fst_zip ?_
    rw [hs.arity, Signature.eventNames, List.length_map]
  have hmem : e.name ∈ f.times.map (·.1) := by
    rw [hnames, hl.same f hf]
    exact List.mem_map_of_mem he
  obtain ⟨t, ht⟩ := Association.exists_lookup hmem
  have htime : t ∈ inv.times := by
    have hz := Association.mem_of_lookup ht
    rw [hs.times] at hz
    exact (List.of_mem_zip hz).2
  exact ⟨t, ht, hinv t htime, hs.onEvents t htime⟩

theorem Logs.delay_pos (hl : c.Logs i log) (he : e ∈ i.signature.events) {f : Firing} (hf : f ∈ log)
    {v : Valuation} (hv : c.signature.Admits v.symbol) : 0 < f.delayAt e v := by
  obtain ⟨inv, -, hs⟩ := hl.serves f hf
  obtain rfl := hl.same f hf
  exact hs.fits.valid.delay_pos _ (hs.admits v hv) e he

/-- In a run of the caller with `v`, the triggerings on the callee's event `e` are on the caller's event
`own`, not before `start`, apart from each other, and over within the delay of `own` from `start`. -/
structure Separates (e : Event) (log : List Firing) (own : Event) (start : Int) (v : Valuation) :
    Prop where
  finished : ∀ f ∈ log, ∀ t, f.time? e.name = some t → t.event = own.name ∧ start ≤ t.offset ∧
    f.delayAt e v + (t.offset - start) ≤ own.delay.eval v.symbol
  apart : ∀ f ∈ log, ∀ g ∈ log, f ≠ g → ∀ t u, f.time? e.name = some t → g.time? e.name = some u →
    f.delayAt e v ≤ u.offset - t.offset ∨ g.delayAt e v ≤ t.offset - u.offset

theorem isChain_of_neighbours {α : Type} {R : α → α → Prop} {as : List α}
    (h : ∀ p ∈ as.zip as.tail, R p.1 p.2) : as.IsChain R := by
  induction as with
  | nil => exact .nil
  | cons a as ih =>
    cases as with
    | nil => exact .singleton a
    | cons b as =>
      rw [List.tail_cons, List.zip_cons_cons, List.forall_mem_cons] at h
      exact .cons_cons h.1 (ih h.2)

theorem checkEvent_eq_none (hne : log ≠ []) (h : c.checkEvent i log e = .ok none) :
    ∃ first rest own budget, Schedule.ordered log e.name = .ok (first :: rest) ∧
      c.checkComparable i e (first :: rest) = none ∧
      (∀ p ∈ (first :: rest).zip rest, c.checkSpacing i e p.1 p.2 = .ok none) ∧
      c.signature.event? first.1.event = some own ∧ own.delay.toForm = .ok budget ∧
      ∀ u ∈ first :: rest, c.checkThroughput i e first.1 own budget u = .ok none := by
  simp only [checkEvent, bind_eq_ok] at h
  obtain ⟨uses, huses, h⟩ := h
  cases hsame : c.checkComparable i e uses with
  | some d =>
    rw [hsame] at h
    cases h
  | none =>
    rw [hsame] at h
    obtain ⟨found, hspacing, h⟩ := bind_eq_ok.1 h
    cases found with
    | some d => cases h
    | none =>
      cases uses with
      | nil =>
        obtain ⟨f, hf⟩ := List.exists_mem_of_ne_nil _ hne
        obtain ⟨t, -, ht⟩ := (Schedule.ordered_eq_ok huses).2 f hf
        simp at ht
      | cons first rest =>
        dsimp only at h
        split at h
        · cases h
        next own hown =>
          obtain ⟨budget, hbudget, h⟩ := bind_eq_ok.1 h
          exact ⟨first, rest, own, budget, huses, hsame, firstComplaint_eq_none hspacing, hown,
            hbudget, firstComplaint_eq_none h⟩

/-- From neighbours to all: delays are positive, so being apart carries over. -/
theorem pairwise_of_neighbours {v : Valuation} {uses : List (Time × Firing)}
    (hpos : ∀ u ∈ uses, 0 < u.2.delayAt e v)
    (h : ∀ p ∈ uses.zip uses.tail, p.1.2.delayAt e v ≤ p.2.1.offset - p.1.1.offset) :
    uses.Pairwise fun a b => 0 < a.2.delayAt e v ∧ a.2.delayAt e v ≤ b.1.offset - a.1.offset := by
  let R (a b : Time × Firing) : Prop := 0 < a.2.delayAt e v ∧ a.2.delayAt e v ≤ b.1.offset - a.1.offset
  have htrans : ∀ {a b d}, R a b → R b d → R a d := by
    rintro a b d ⟨hpa, hab⟩ ⟨hpb, hbd⟩
    exact ⟨hpa, by omega⟩
  have : Trans R R R := ⟨htrans⟩
  have hchain : uses.IsChain R :=
    isChain_of_neighbours fun p hp => ⟨hpos p.1 (List.of_mem_zip hp).1, h p hp⟩
  exact hchain.pairwise

theorem separates_of_checkEvent (hc : c.Registered) (hl : c.Logs i log) (hne : log ≠ [])
    (he : e ∈ i.signature.events) (hp : e.delay.Plain) (h : c.checkEvent i log e = .ok none) :
    ∃ own ∈ c.signature.events, ∃ start, ∀ v : Valuation, c.signature.Admits v.symbol →
      Separates e log own start v := by
  obtain ⟨first, rest, own, budget, huses, hsame, hspacing, hown, hbudget, hbusy⟩ :=
    checkEvent_eq_none hne h
  obtain ⟨hmem, hall⟩ := Schedule.ordered_eq_ok huses
  obtain ⟨hfirst, hfirst'⟩ := hmem first (by simp)
  obtain ⟨t, ht, hname, -⟩ := hl.exists_time he hfirst
  obtain rfl : t = first.1 := by simpa [hfirst'] using ht.symm
  obtain ⟨hown_mem, hown_name⟩ := mem_eventNames_of_event? hname hown
  refine ⟨own, hown_mem, first.1.offset, fun v hv => ?_⟩
  have hpairs := pairwise_of_neighbours (fun u hu => hl.delay_pos he (hmem u hu).1 hv)
    fun p hp' => apart_of_checkSpacing hc hp (hspacing p hp') hv
  constructor
  · intro f hf t ht
    obtain ⟨t', ht', hu⟩ := hall f hf
    obtain rfl : t = t' := by simpa [ht] using ht'
    refine ⟨?_, ?_, ?_⟩
    · rw [hown_name]
      exact checkComparable_eq_none hsame hu (by simp)
    · rcases List.mem_cons.1 hu with rfl | hu
      · exact le_rfl
      · have := (List.pairwise_cons.1 hpairs).1 _ hu
        dsimp only at this
        omega
    · have hle := over_of_checkThroughput hc hp (hbusy _ hu) hv
      rwa [Expr.eval_linearize (Expr.toForm_eq_ok.1 hbudget)] at hle
  · intro f hf g hg hfg t u ht hu
    obtain ⟨t', ht', hmt⟩ := hall f hf
    obtain ⟨u', hu', hmu⟩ := hall g hg
    obtain rfl : t = t' := by simpa [ht] using ht'
    obtain rfl : u = u' := by simpa [hu] using hu'
    let S (a b : Time × Firing) : Prop :=
      a.2.delayAt e v ≤ b.1.offset - a.1.offset ∨ b.2.delayAt e v ≤ a.1.offset - b.1.offset
    have : Std.Symm S := ⟨fun _ _ => Or.symm⟩
    have hsym : (first :: rest).Pairwise S := hpairs.imp fun hab => .inl hab.2
    exact hsym.forall hmt hmu fun heq => hfg (congrArg Prod.snd heq)

theorem logs_of_scheduled (hc : c.Registered) {instances : List Instance} {schedule : Schedule}
    (hfits : ∀ i ∈ instances, i.Fits c.signature)
    (h : ∀ f ∈ schedule, ∃ inv : Invocation, inv.Plain ∧ c.schedule instances inv = .ok (some f, []))
    {f : Firing} (hf : f ∈ schedule) : c.Logs f.inst (schedule.history f.inst.name) := by
  have hserved : ∀ g ∈ schedule, instances.find? (·.name == g.inst.name) = some g.inst ∧
      ∃ inv : Invocation, inv.Plain ∧ g.Serves c.signature inv := by
    intro g hg
    obtain ⟨inv, hinv, hsched⟩ := h g hg
    have hserves := serves_of_schedule hc hfits hinv hsched
    obtain ⟨-, hfind, -⟩ := schedule_eq_some hsched
    exact ⟨hserves.target ▸ hfind, inv, hinv, hserves⟩
  constructor
  · intro g hg
    obtain ⟨hg, hname⟩ := List.mem_filter.1 hg
    have hfind := (hserved g hg).1
    rw [beq_iff_eq.1 hname, (hserved f hf).1] at hfind
    exact (Option.some.inj hfind).symm
  · exact fun g hg => (hserved g (List.mem_filter.1 hg).1).2

theorem logs_history (hc : c.Registered) {instances : List Instance} {invocations : List Invocation}
    {schedule : Schedule} (hfits : ∀ i ∈ instances, i.Fits c.signature)
    (hinv : ∀ inv ∈ invocations, inv.Plain)
    (h : List.Forall₂ (fun inv f => c.schedule instances inv = .ok (some f, [])) invocations schedule)
    {f : Firing} (hf : f ∈ schedule) : c.Logs f.inst (schedule.history f.inst.name) := by
  refine logs_of_scheduled hc hfits (fun g hg => ?_) hf
  obtain ⟨inv, hmem, hsched⟩ := exists_left_of_forall₂ h hg
  exact ⟨inv, hinv inv hmem, hsched⟩

theorem checkDelays_eq_nil {s : Schedule} (h : c.checkDelays s = .ok []) {f : Firing} (hf : f ∈ s) :
    c.checkLog (s.history f.inst.name) = .ok none := by
  simp only [checkDelays, bind_eq_ok, pure_eq_ok, mapM_eq_ok] at h
  obtain ⟨found, hfound, hnone⟩ := h
  have hname : f.inst.name ∈ s.instances := Schedule.mem_instances.2 ⟨f, hf, rfl⟩
  obtain ⟨d, hd, hcheck⟩ := exists_right_of_forall₂ hfound hname
  have hd : d = none := List.filterMap_eq_nil_iff.1 hnone d hd
  rwa [hd] at hcheck

theorem mem_history {s : Schedule} {f : Firing} (hf : f ∈ s) : f ∈ s.history f.inst.name :=
  List.mem_filter.2 ⟨hf, by simp⟩

theorem separates_of_checkDelays (hc : c.Registered) {s : Schedule} {f : Firing} (hf : f ∈ s)
    (hl : c.Logs f.inst (s.history f.inst.name)) (h : c.checkDelays s = .ok [])
    (he : e ∈ f.inst.signature.events) :
    ∃ own ∈ c.signature.events, ∃ start, ∀ v : Valuation, c.signature.Admits v.symbol →
      Separates e (s.history f.inst.name) own start v := by
  have hlog := checkDelays_eq_nil h hf
  have hne : s.history f.inst.name ≠ [] := List.ne_nil_of_mem (mem_history hf)
  obtain ⟨inv, -, hs⟩ := hl.serves f (mem_history hf)
  unfold checkLog at hlog
  split at hlog
  next hnil => exact absurd hnil hne
  next g rest hcons =>
    obtain hsame : g.inst = f.inst := hl.same g (by simp [hcons])
    rw [hsame] at hlog
    exact separates_of_checkEvent hc hl hne he (hs.fits.plain.delay e he)
      (firstComplaint_eq_none hlog e he)

theorem Logs.succeeds_checkEvent (hc : c.Registered) (hl : c.Logs i log)
    (he : e ∈ i.signature.events) : Succeeds (c.checkEvent i log e) := by
  have hdelay : ∀ {f}, f ∈ log → Succeeds (f.delay e) := by
    intro f hf
    obtain ⟨inv, -, hs⟩ := hl.serves f hf
    exact f.succeeds_delay hs.fits (hl.same f hf ▸ he)
  have htime : ∀ f ∈ log, ∃ t, f.time? e.name = some t := by
    intro f hf
    obtain ⟨t, ht, -⟩ := hl.exists_time he hf
    exact ⟨t, ht⟩
  refine (Schedule.succeeds_ordered htime).bind fun uses huses => ?_
  obtain ⟨hmem, -⟩ := Schedule.ordered_eq_ok huses
  cases hsame : c.checkComparable i e uses with
  | some d => exact succeeds_pure _
  | none =>
    -- all times are on one event now, so that each difference is defined
    have hsince : ∀ {a b}, a ∈ uses → b ∈ uses → Succeeds (b.1.since a.1) := fun ha hb =>
      ⟨_, Time.since_eq_ok.2 ⟨checkComparable_eq_none hsame hb ha, rfl⟩⟩
    refine Succeeds.bind (succeeds_firstComplaint ?_) fun found _ => ?_
    · rintro ⟨a, b⟩ hab
      have ha := (List.of_mem_zip hab).1
      have hb := List.mem_of_mem_tail (List.of_mem_zip hab).2
      refine (hdelay (hmem a ha).1).bind fun delay _ => ?_
      exact (hsince ha hb).mapError.bind fun gap _ =>
        .ite (fun _ => succeeds_pure _) fun _ => succeeds_pure _
    cases found with
    | some d => exact succeeds_pure _
    | none =>
      cases uses with
      | nil => exact succeeds_pure _
      | cons first rest =>
        obtain ⟨hfirst, hfirst'⟩ := hmem first (by simp)
        obtain ⟨t, ht, hname, hevent⟩ := hl.exists_time he hfirst
        obtain rfl : t = first.1 := by simpa [hfirst'] using ht.symm
        obtain ⟨own, hown⟩ := exists_event? hname hevent
        obtain ⟨hown_mem, -⟩ := mem_eventNames_of_event? hname hown
        dsimp only
        rw [hown]
        refine (Expr.succeeds_toForm (hc.valid.delay own hown_mem).linear).bind fun budget _ => ?_
        refine succeeds_firstComplaint fun u hu => ?_
        refine (hdelay (hmem u hu).1).bind fun delay _ => ?_
        exact (hsince (by simp) hu).mapError.bind fun gap _ =>
          .ite (fun _ => succeeds_pure _) fun _ => succeeds_pure _

theorem succeeds_checkDelays (hc : c.Registered) {s : Schedule}
    (hl : ∀ f ∈ s, c.Logs f.inst (s.history f.inst.name)) : Succeeds (c.checkDelays s) := by
  refine (Succeeds.mapM fun name hname => ?_).bind fun _ _ => succeeds_pure _
  obtain ⟨f, hf, rfl⟩ := Schedule.mem_instances.1 hname
  unfold checkLog
  split
  · exact succeeds_pure _
  next g rest hcons =>
    have hsame : g.inst = f.inst := (hl f hf).same g (by simp [hcons])
    rw [hsame]
    exact succeeds_firstComplaint fun e he => (hl f hf).succeeds_checkEvent hc he

end Caller

end Chronogram
