import Chronogram.Proofs.Pacing

/-! The order of statements does not matter to the check of delays. Where triggerings are on different events or
too close to each other, this is so in any order, although another pair may be complained about. Otherwise
no two of them are at one offset, and there is one way to sort them. -/

namespace Chronogram

open Fallible

/-- All triggerings have the callee's event on one event of the caller. -/
def Event.OnOne (e : Event) (log : List Firing) : Prop :=
  ∀ f ∈ log, ∀ g ∈ log, ∀ t u, f.time? e.name = some t → g.time? e.name = some u → t.event = u.event

theorem Event.OnOne.perm {e : Event} {log others : List Firing} (h : e.OnOne log) (hperm : others.Perm log) :
    e.OnOne others := fun f hf g hg => h f (hperm.mem_iff.1 hf) g (hperm.mem_iff.1 hg)

def Signature.Spreads (caller : Signature) (e : Event) (log : List Firing) : Prop :=
  ∀ v : Valuation, caller.Admits v.symbol → log.Pairwise fun f g => f.Apart g e v

theorem Signature.Spreads.perm {caller : Signature} {e : Event} {log others : List Firing}
    (h : caller.Spreads e log) (hperm : others.Perm log) : caller.Spreads e others :=
  fun v hv => (hperm.pairwise_iff fun h => h.symm).2 (h v hv)

namespace Schedule

variable {log others : List Firing} {e : Event} {uses : List (Time × Firing)}

theorem onOne_iff (h : ordered log e.name = .ok uses) :
    e.OnOne log ↔ ∀ a ∈ uses, ∀ b ∈ uses, a.1.event = b.1.event := by
  obtain ⟨hmem, hall⟩ := ordered_eq_ok h
  constructor
  · intro hone a ha b hb
    exact hone a.2 (hmem a ha).1 b.2 (hmem b hb).1 a.1 b.1 (hmem a ha).2 (hmem b hb).2
  · intro hone f hf g hg t u ht hu
    obtain ⟨t', ht', hft⟩ := hall f hf
    obtain ⟨u', hu', hgu⟩ := hall g hg
    obtain rfl : t' = t := by simpa [ht'] using ht
    obtain rfl : u' = u := by simpa [hu'] using hu
    exact hone _ hft _ hgu

theorem ordered_perm {uses' : List (Time × Firing)} (hperm : others.Perm log)
    (h : ordered log e.name = .ok uses) (h' : ordered others e.name = .ok uses') : uses'.Perm uses := by
  -- the time can be told from the triggering
  let timed (f : Firing) : Time × Firing := ((f.time? e.name).getD ⟨"", 0⟩, f)
  have htimed : ∀ {log uses}, ordered log e.name = .ok uses → uses = (uses.map (·.2)).map timed := by
    intro log uses h
    rw [List.map_map]
    refine (List.map_id' uses).symm.trans (List.map_congr_left fun u hu => ?_)
    simp [timed, ((ordered_eq_ok h).1 u hu).2]
  rw [htimed h, htimed h']
  exact (((ordered_spec h').2.trans hperm).trans (ordered_spec h).2.symm).map timed

end Schedule

namespace Caller

variable {c : Caller} {i : Instance} {e : Event} {log others : List Firing}

/-- Both checks come to a result, and it is of the same kind. -/
def Alike (r r' : Except Fault (Option Diagnostic)) : Prop :=
  ∃ o o', r = .ok o ∧ r' = .ok o' ∧ o.map (·.kind) = o'.map (·.kind)

theorem firstComplaint_alike {α : Type} {check check' : α → Except Fault (Option Diagnostic)} {as : List α}
    (h : ∀ a ∈ as, Alike (check a) (check' a)) :
    Alike (firstComplaint check as) (firstComplaint check' as) := by
  induction as with
  | nil => exact ⟨none, none, rfl, rfl, rfl⟩
  | cons a as ih =>
    rw [List.forall_mem_cons] at h
    obtain ⟨⟨o, o', ho, ho', hkind⟩, hrest⟩ := h
    rw [firstComplaint, firstComplaint, ho, ho']
    cases o with
    | none =>
      cases o' with
      | none => exact ih hrest
      | some d' => cases hkind
    | some d =>
      cases o' with
      | none => cases hkind
      | some d' => exact ⟨some d, some d', rfl, rfl, hkind⟩

namespace Logs

theorem perm (hl : c.Logs i log) (hperm : others.Perm log) : c.Logs i others :=
  ⟨fun f hf => hl.same f (hperm.mem_iff.1 hf), fun f hf => hl.serves f (hperm.mem_iff.1 hf)⟩

theorem exists_ordered (hl : c.Logs i log) (he : e ∈ i.signature.events) :
    ∃ uses, Schedule.ordered log e.name = .ok uses :=
  Schedule.succeeds_ordered fun f hf => by
    obtain ⟨t, ht, -⟩ := hl.exists_time he hf
    exact ⟨t, ht⟩

/-- No two triggerings that are apart are at one offset: the delay of the first would not be positive. -/
theorem offsets_lt (hc : c.Registered) (hl : c.Logs i log) (he : e ∈ i.signature.events) (hone : e.OnOne log)
    (hspread : c.signature.Spreads e log) {uses : List (Time × Firing)}
    (h : Schedule.ordered log e.name = .ok uses) : uses.Pairwise fun a b => a.1.offset < b.1.offset := by
  obtain ⟨ρ, hρ⟩ := hc.valid.admitted
  obtain ⟨v, rfl⟩ := Valuation.exists_symbol_eq ρ
  have hboth := (Schedule.ordered_spec h).1.and ((pairwise_apart_iff h v).1 (hspread v hρ))
  refine hboth.imp_of_mem fun {a b} ha hb hab => ?_
  have hpos := hl.delay_pos he ((Schedule.ordered_eq_ok h).1 a ha).1 hρ
  obtain ⟨hle, hapart⟩ := hab
  rw [Firing.Apart, cycleAt_of_mem h ha, cycleAt_of_mem h hb, (Schedule.onOne_iff h).1 hone a ha b hb] at hapart
  have := hapart.1 (by omega)
  omega

theorem ordered_eq (hc : c.Registered) (hl : c.Logs i log) (he : e ∈ i.signature.events) (hone : e.OnOne log)
    (hspread : c.signature.Spreads e log) (hperm : others.Perm log) :
    Schedule.ordered others e.name = Schedule.ordered log e.name := by
  obtain ⟨uses, h⟩ := hl.exists_ordered he
  obtain ⟨uses', h'⟩ := (hl.perm hperm).exists_ordered he
  have hlt := hl.offsets_lt hc he hone hspread h
  have hlt' := (hl.perm hperm).offsets_lt hc he (hone.perm hperm) (hspread.perm hperm) h'
  rw [h, h', (Schedule.ordered_perm hperm h h').eq_of_pairwise (fun a b _ _ hab hba => ?_) hlt' hlt]
  omega

theorem kind_of_not_onOne (hl : c.Logs i log) (he : e ∈ i.signature.events) (hone : ¬ e.OnOne log) :
    ∃ d, c.checkEvent i log e = .ok (some d) ∧ d.kind = .incomparableEvents := by
  obtain ⟨uses, h⟩ := hl.exists_ordered he
  rw [Schedule.onOne_iff h, ← checkComparable_eq_none_iff (c := c) (i := i) (e := e)] at hone
  obtain ⟨d, hd⟩ := Option.ne_none_iff_exists'.1 hone
  refine ⟨d, ?_, (about_of_checkComparable hd).2⟩
  rw [checkEvent]
  refine bind_eq_ok.2 ⟨uses, h, ?_⟩
  rw [hd]
  rfl

theorem kind_of_not_spreads (hc : c.Registered) (hl : c.Logs i log) (he : e ∈ i.signature.events)
    (hp : e.delay.Plain) (hone : e.OnOne log) (hspread : ¬ c.signature.Spreads e log) :
    ∃ d, c.checkEvent i log e = .ok (some d) ∧ d.kind = .delayViolation := by
  obtain ⟨uses, h⟩ := hl.exists_ordered he
  have hsame := (Schedule.onOne_iff h).1 hone
  -- the check of the event comes to a result, so the check of neighbours does
  obtain ⟨result, hresult⟩ := hl.succeeds_checkEvent hc he
  have hcheck := hresult
  simp only [checkEvent, bind_eq_ok] at hcheck
  obtain ⟨uses', h', hcheck⟩ := hcheck
  obtain rfl : uses' = uses := Except.ok.inj (h'.symm.trans h)
  rw [checkComparable_eq_none_iff.2 hsame] at hcheck
  obtain ⟨found, hspacing, hcheck⟩ := bind_eq_ok.1 hcheck
  cases found with
  | none => exact absurd ((hl.spacing_iff hc he hp h hsame).1 (firstComplaint_eq_none hspacing)) hspread
  | some d =>
    cases hcheck
    obtain ⟨p, -, hp⟩ := exists_of_firstComplaint hspacing
    exact ⟨d, hresult, (about_of_checkSpacing hp).2⟩

theorem checkEvent_alike (hc : c.Registered) (hl : c.Logs i log) (he : e ∈ i.signature.events)
    (hp : e.delay.Plain) (hperm : others.Perm log) :
    Alike (c.checkEvent i others e) (c.checkEvent i log e) := by
  have hl' := hl.perm hperm
  by_cases hone : e.OnOne log
  · by_cases hspread : c.signature.Spreads e log
    · obtain ⟨result, hresult⟩ := hl.succeeds_checkEvent hc he
      refine ⟨result, result, ?_, hresult, rfl⟩
      rw [← hresult, checkEvent, checkEvent, hl.ordered_eq hc he hone hspread hperm]
    · obtain ⟨d, hd, hkind⟩ := hl.kind_of_not_spreads hc he hp hone hspread
      obtain ⟨d', hd', hkind'⟩ := hl'.kind_of_not_spreads hc he hp (hone.perm hperm)
        fun h => hspread (h.perm hperm.symm)
      exact ⟨some d', some d, hd', hd, by simp [hkind, hkind']⟩
  · obtain ⟨d, hd, hkind⟩ := hl.kind_of_not_onOne he hone
    obtain ⟨d', hd', hkind'⟩ := hl'.kind_of_not_onOne he fun h => hone (h.perm hperm.symm)
    exact ⟨some d', some d, hd', hd, by simp [hkind, hkind']⟩

theorem checkLog_alike (hc : c.Registered) (hl : c.Logs i log) (hne : log ≠ []) (hperm : others.Perm log) :
    Alike (c.checkLog others) (c.checkLog log) := by
  have hne' : others ≠ [] := by
    rintro rfl
    exact hne hperm.nil_eq.symm
  rw [(hl.perm hperm).checkLog_eq hne', hl.checkLog_eq hne]
  exact firstComplaint_alike fun e he => hl.checkEvent_alike hc he (hl.plain_delay hne e he) hperm

end Logs

def complaint? (c : Caller) (s : Schedule) (name : String) : Option Diagnostic :=
  (c.checkLog (s.history name)).toOption.join

theorem complaint?_of_checkLog {s : Schedule} {name : String} {o : Option Diagnostic}
    (h : c.checkLog (s.history name) = .ok o) : c.complaint? s name = o := by
  simp [complaint?, h, Except.toOption]

end Caller

def Diagnostic.about (d : Diagnostic) : Option String × DiagnosticKind := (d.instance?, d.kind)

namespace Caller

theorem checkDelays_about {c : Caller} {s : Schedule} {found : List Diagnostic}
    (h : c.checkDelays s = .ok found) :
    found.map (·.about) = s.instances.filterMap fun name =>
      (c.complaint? s name).map fun d => (some name, d.kind) := by
  simp only [checkDelays, bind_eq_ok, pure_eq_ok, mapM_eq_ok] at h
  obtain ⟨results, hresults, rfl⟩ := h
  generalize s.instances = names at hresults
  induction hresults with
  | nil => rfl
  | @cons name o names results hname _ ih =>
    rw [List.filterMap_cons, List.filterMap_cons, complaint?_of_checkLog hname]
    cases o with
    | none => exact ih
    | some d =>
      have habout : d.about = (some name, d.kind) := Prod.ext (instance?_of_checkLog hname) rfl
      exact congrArg₂ List.cons habout ih

theorem checkDelays_perm {c : Caller} (hc : c.Registered) {s s' : Schedule}
    (hl : ∀ f ∈ s, c.Logs f.inst (s.history f.inst.name)) (hperm : s'.Perm s) {found found' : List Diagnostic}
    (h : c.checkDelays s = .ok found) (h' : c.checkDelays s' = .ok found') :
    (found'.map (·.about)).Perm (found.map (·.about)) := by
  have hmem : ∀ name, name ∈ s'.instances ↔ name ∈ s.instances := by
    simp only [Schedule.mem_instances, hperm.mem_iff, implies_true]
  have hinstances : s'.instances.Perm s.instances :=
    (List.perm_ext_iff_of_nodup (Text.nodup_eraseDups _) (Text.nodup_eraseDups _)).2 hmem
  have hkinds : ∀ name ∈ s'.instances,
      (c.complaint? s' name).map (·.kind) = (c.complaint? s name).map (·.kind) := by
    intro name hname
    obtain ⟨f, hf, rfl⟩ := Schedule.mem_instances.1 hname
    have hf' := hperm.mem_iff.1 hf
    obtain ⟨o', o, ho', ho, hkind⟩ := (hl f hf').checkLog_alike hc
      (List.ne_nil_of_mem (mem_history hf')) (hperm.filter _)
    rw [complaint?_of_checkLog ho, complaint?_of_checkLog ho', hkind]
  rw [checkDelays_about h, checkDelays_about h']
  refine (List.Perm.of_eq (List.filterMap_congr fun name hname => ?_)).trans (hinstances.filterMap _)
  have hpair := congrArg (Option.map fun kind => (some name, kind)) (hkinds name hname)
  rwa [Option.map_map, Option.map_map] at hpair

theorem invokeAll_eq {c : Caller} {instances : List Instance} {log schedule : Schedule}
    {invocations : List Invocation} (h : c.invokeAll instances log invocations = .ok schedule) :
    schedule = log ++ invocations.filterMap fun inv => (c.schedule instances inv).toOption.bind (·.1) := by
  induction invocations generalizing log with
  | nil =>
    obtain rfl : log = schedule := pure_eq_ok.1 h
    simp
  | cons inv rest ih =>
    obtain ⟨after, hinvoke, hrest⟩ := bind_eq_ok.1 h
    obtain ⟨⟨made, found⟩, hmade, hafter⟩ := bind_eq_ok.1 hinvoke
    obtain rfl := pure_eq_ok.1 hafter
    rw [ih hrest, List.filterMap_cons, hmade]
    cases made with
    | none => simp [Except.toOption]
    | some f => simp [Except.toOption]

theorem exists_schedule {c : Caller} (hc : c.Registered) {t : Table} (ht : t.Built) {instances : List Instance}
    (hresolved : ∀ i ∈ instances, ∃ inst, c.resolve t inst = .ok (some i, [])) {invocations : List Invocation}
    (hplain : ∀ inv ∈ invocations, inv.Plain) :
    ∃ schedule found, c.invokeAll instances [] invocations = .ok schedule ∧
      c.checkDelays schedule = .ok found ∧ ∀ f ∈ schedule, c.Logs f.inst (schedule.history f.inst.name) := by
  have hfits : ∀ i ∈ instances, i.Fits c.signature := by
    intro i hi
    obtain ⟨inst, hinst⟩ := hresolved i hi
    exact fits_of_resolve hc ht hinst
  obtain ⟨schedule, hschedule⟩ := succeeds_invokeAll hc hfits hplain []
  have hlogs : ∀ f ∈ schedule, c.Logs f.inst (schedule.history f.inst.name) := by
    intro f hf
    refine logs_of_scheduled hc hfits (fun g hg => ?_) hf
    rcases mem_of_invokeAll hschedule g hg with hnil | ⟨inv, hinv, hg⟩
    · simp at hnil
    · exact ⟨inv, hplain inv hinv, hg⟩
  obtain ⟨found, hfound⟩ := succeeds_checkDelays hc hlogs
  exact ⟨schedule, found, hschedule, hfound, hlogs⟩

end Caller

/-- In a registered caller, the triggerings that invocations of resolved instances make are the same in whatever
order these are stated, and the check of delays comes to the same verdicts: it complains about the same
instances, and in the same way. -/
theorem delays_in_any_order {t : Table} (ht : t.Built) {name : String} {s : Signature}
    (hs : t.get? name = some s) : ∃ c, Caller.of t s = .ok c ∧
      ∀ instances : List Instance, (∀ i ∈ instances, ∃ inst, c.resolve t inst = .ok (some i, [])) →
        ∀ invocations : List Invocation, (∀ inv ∈ invocations, inv.Plain) →
          ∀ reordered : List Invocation, reordered.Perm invocations →
            ∃ schedule schedule' found found', c.invokeAll instances [] invocations = .ok schedule ∧
              c.invokeAll instances [] reordered = .ok schedule' ∧ schedule'.Perm schedule ∧
              c.checkDelays schedule = .ok found ∧ c.checkDelays schedule' = .ok found' ∧
              (found'.map (·.about)).Perm (found.map (·.about)) := by
  obtain ⟨c, hcaller, rfl, hc⟩ := Caller.of_registered ht hs
  refine ⟨c, hcaller, fun instances hresolved invocations hplain reordered hperm => ?_⟩
  obtain ⟨schedule, found, hschedule, hfound, hlogs⟩ := Caller.exists_schedule hc ht hresolved hplain
  obtain ⟨schedule', found', hschedule', hfound', -⟩ := Caller.exists_schedule hc ht hresolved
    fun inv hinv => hplain inv (hperm.mem_iff.1 hinv)
  have hsame : schedule'.Perm schedule := by
    rw [Caller.invokeAll_eq hschedule, Caller.invokeAll_eq hschedule', List.nil_append, List.nil_append]
    exact hperm.filterMap _
  exact ⟨schedule, schedule', found, found', hschedule, hschedule', hsame, hfound, hfound',
    Caller.checkDelays_perm hc hlogs hsame hfound hfound'⟩

namespace Gate

def inner (name : String) : Instantiation := { name, component := "Main", args := [.param "W"], named := [] }

def trigger (target event : String) : Invocation :=
  { name := "i", target, times := [⟨event, 0⟩], inputs := some [] }

/-- The first instance is triggered on both events, the second one twice at the same time. -/
def crowded : List Invocation := [trigger "m" "G", trigger "m" "L", trigger "n" "G", trigger "n" "G"]

def crowd : Except Fault ((Option Instance × Option Instance) × Schedule × List Diagnostic) := do
  let c ← Caller.of table callee
  let m ← c.resolve table (inner "m")
  let n ← c.resolve table (inner "n")
  let schedule ← c.invokeAll (m.1.toList ++ n.1.toList) [] crowded
  return ((m.1, n.1), schedule, ← c.checkDelays schedule)

theorem verdicts_crowd : crowd.toOption.map (fun r =>
      ((r.1.1.isSome, r.1.2.isSome, r.2.1.length), r.2.2.map (·.about))) =
    some ((true, true, 4), [(some "m", .incomparableEvents), (some "n", .delayViolation)]) := by
  decide +kernel

theorem exists_crowd : ∃ c m n schedule found, Caller.of table callee = .ok c ∧
    c.resolve table (inner "m") = .ok (some m, []) ∧ c.resolve table (inner "n") = .ok (some n, []) ∧
    c.invokeAll [m, n] [] crowded = .ok schedule ∧ c.checkDelays schedule = .ok found ∧ schedule.length = 4 ∧
    found.map (·.about) = [(some "m", .incomparableEvents), (some "n", .delayViolation)] := by
  obtain ⟨r, hr, hvalue⟩ := Option.map_eq_some_iff.1 verdicts_crowd
  simp only [crowd, toOption_eq_some, bind_eq_ok, pure_eq_ok] at hr
  obtain ⟨c, hc, ⟨m?, wrong⟩, hm, ⟨n?, wrong'⟩, hn, schedule, hschedule, found, hfound, rfl⟩ := hr
  simp only [Prod.mk.injEq, Option.isSome_iff_exists] at hvalue
  obtain ⟨⟨⟨m, rfl⟩, ⟨n, rfl⟩, hlength⟩, habout⟩ := hvalue
  obtain ⟨rfl, -⟩ := Caller.resolve_eq_some hm
  obtain ⟨rfl, -⟩ := Caller.resolve_eq_some hn
  exact ⟨c, m, n, schedule, found, hc, hm, hn, hschedule, hfound, hlength, habout⟩

theorem plain_crowded : ∀ inv ∈ crowded, inv.Plain := by
  unfold Invocation.Plain
  decide

end Gate

/-- In the sample, both instances are complained about in the same way when the invocations are reversed. -/
theorem delays_in_any_order_crowd : ∃ c m n schedule found, Caller.of Gate.table Gate.callee = .ok c ∧
    c.resolve Gate.table (Gate.inner "m") = .ok (some m, []) ∧
    c.resolve Gate.table (Gate.inner "n") = .ok (some n, []) ∧
    c.invokeAll [m, n] [] Gate.crowded.reverse = .ok schedule ∧ schedule.length = 4 ∧
    c.checkDelays schedule = .ok found ∧
    (found.map (·.about)).Perm [(some "m", .incomparableEvents), (some "n", .delayViolation)] := by
  obtain ⟨c, m, n, schedule₁, found₁, hc₁, hm, hn, hschedule₁, hfound₁, hlength, habout⟩ := Gate.exists_crowd
  obtain ⟨c', hc, horder⟩ := delays_in_any_order Gate.built Gate.registered.2
  obtain rfl : c' = c := Except.ok.inj (hc.symm.trans hc₁)
  have hresolved : ∀ i ∈ [m, n], ∃ inst, c'.resolve Gate.table inst = .ok (some i, []) := by
    intro i hi
    rcases List.mem_cons.1 hi with rfl | hi
    · exact ⟨_, hm⟩
    · exact ⟨_, List.mem_singleton.1 hi ▸ hn⟩
  obtain ⟨schedule, schedule', found, found', hschedule, hschedule', hperm, hfound, hfound', hsame⟩ :=
    horder [m, n] hresolved Gate.crowded Gate.plain_crowded Gate.crowded.reverse (List.reverse_perm _)
  obtain rfl : schedule = schedule₁ := Except.ok.inj (hschedule.symm.trans hschedule₁)
  obtain rfl : found = found₁ := Except.ok.inj (hfound.symm.trans hfound₁)
  exact ⟨c', m, n, schedule', found', hc, hm, hn, hschedule', hperm.length_eq.trans hlength, hfound',
    habout ▸ hsame⟩

end Chronogram
