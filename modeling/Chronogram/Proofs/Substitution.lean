import Chronogram.Proofs.Linearization
import Mathlib.Data.List.DropRight

/-! Two ways to put times in place of events. In an expression all names are replaced at once, and the value
is the one under the assignment that gives each of them the value of what replaces it. A time is shifted to
the time that its event is bound to, and it is then made anew, from the name of that event. The two ways agree
unless the name changes when it is taken once more. Identifiers are kept, and of the names that times are made
of only those that still start with a quote are not. -/

namespace Chronogram

open Fallible

namespace Symbol

theorem ofEvent_injective : Function.Injective ofEvent := by
  intro x y h
  rw [← eventName_ofEvent x, h, eventName_ofEvent]

end Symbol

theorem LinearForm.symbol_add_const (s : Symbol) (offset k : Int) :
    symbol s offset + const k = symbol s (offset + k) := by
  change ofTerms (sumTerms (symbol s offset) (const k)) _ (nodup_sumTerms _ _) = _
  simp [ofTerms, sumTerms, symbol, const, coeff]

namespace Expr

variable {e : Expr} {params events : List (String × Expr)}

/-- The assignment that gives each replaced name the value of what replaces it. The others keep theirs. -/
def replaced (params events : List (String × Expr)) (ρ : Symbol → Int) : Symbol → Int := fun s =>
  if s.isEvent then (events.lookup s.eventName).elim (ρ s) (·.eval ρ)
  else (params.lookup s).elim (ρ s) (·.eval ρ)

/-- Parameters whose names do not start like an event's symbol are told apart from all events. -/
theorem induced_replaced (h : ∀ p ∈ e.params, Symbol.isEvent p = false) (ρ : Symbol → Int) :
    e.Induced params events ρ (replaced params events ρ) := by
  refine ⟨fun p hp => ?_, fun x _ => ?_⟩
  · simp only [replaced, h p hp, Bool.false_eq_true, if_false]
    cases params.lookup p <;> rfl
  · simp only [replaced, Symbol.isEvent_ofEvent, Symbol.eventName_ofEvent, if_true]
    cases events.lookup x <;> rfl

/-- A form stays one when forms are put into it, and its value is the one under the changed assignment. -/
theorem exists_form_subst (h : ∀ p ∈ e.params, Symbol.isEvent p = false) {f : LinearForm}
    (hf : e.linearize = .ok f) (hp : ∀ p ∈ e.params, ∀ b, params.lookup p = some b → b.Linear)
    (hx : ∀ x ∈ e.events, ∀ b, events.lookup x = some b → b.Linear) :
    ∃ g, (e.subst params events).linearize = .ok g ∧
      ∀ ρ, g.eval ρ = f.eval (replaced params events ρ) := by
  have hinduced : ∀ ρ, e.Induced params events ρ (replaced params events ρ) := induced_replaced h
  obtain ⟨g, hg⟩ := Linear.subst ⟨f, hf⟩ (fun ρ => ⟨_, hinduced ρ⟩) hp hx
  refine ⟨g, hg, fun ρ => ?_⟩
  rw [eval_linearize hg, (hinduced ρ).eval_subst, eval_linearize hf]

end Expr

namespace Text

theorem toList_trim (s : String) :
    (trim s).toList = (s.toList.dropWhile isBlank).rdropWhile isBlank := String.toList_ofList

theorem trim_trim (s : String) : trim (trim s) = trim s := by
  rw [← String.toList_inj, toList_trim, toList_trim]
  have hfront : ∀ cs : List Char, ((cs.dropWhile isBlank).rdropWhile isBlank).dropWhile isBlank =
      (cs.dropWhile isBlank).rdropWhile isBlank := by
    intro cs
    rw [List.dropWhile_eq_self_iff]
    intro hlength
    have hkept := List.rdropWhile_prefix isBlank (cs.dropWhile isBlank)
    rw [hkept.getElem hlength]
    exact List.dropWhile_get_zero_not isBlank cs (hlength.trans_le hkept.length_le)
  rw [hfront, List.rdropWhile_idempotent]

theorem length_trim_le (s : String) : (trim s).toList.length ≤ s.toList.length := by
  rw [toList_trim]
  exact ((List.rdropWhile_prefix _ _).sublist.trans (List.dropWhile_sublist _)).length_le

end Text

namespace Time

variable {t u : Time} {b : List (String × Time)}

/-- The time comes from a text that names its event. -/
def Made (t : Time) : Prop := ∃ name, on? name t.offset = some t

theorem Made.event_eq (h : t.Made) : ∃ name, t.event = Text.trim name ∧ t.event.isEmpty = false := by
  obtain ⟨name, hname⟩ := h
  unfold on? at hname
  split at hname
  · cases hname
  next hempty =>
    have hevent := congrArg Time.event (Option.some.inj hname)
    refine ⟨_, hevent.symm, ?_⟩
    rw [← hevent]
    exact Bool.eq_false_iff.2 hempty

/-- The name of the event stays what it is when it is taken once more. -/
def Kept (t : Time) : Prop := on? t.event t.offset = some t

theorem on?_eq_some_iff {name : String} {offset : Int} :
    on? name offset = some ⟨name, offset⟩ ↔ eventName name = name ∧ name.isEmpty = false := by
  rw [on?]
  split
  next hempty =>
    refine iff_of_false (by simp) fun h => ?_
    rw [h.1, h.2] at hempty
    cases hempty
  next hne =>
    rw [Option.some.injEq, Time.mk.injEq, and_iff_left rfl]
    refine ⟨fun h => ⟨h, ?_⟩, And.left⟩
    rw [h] at hne
    exact Bool.eq_false_iff.2 hne

theorem kept_of_isName (h : Token.isName t.event = true) : t.Kept := by
  have hshift := shift?_of_isName h 0
  rwa [shift?, Int.add_zero] at hshift

/-- A name that was taken from a text is kept unless a quote is left in front of it. -/
theorem Made.kept_iff (h : t.Made) : t.Kept ↔ Symbol.isEvent t.event = false := by
  obtain ⟨name, hname, hne⟩ := h.event_eq
  rw [Kept, on?_eq_some_iff, and_iff_left hne]
  have htrim : Text.trim t.event = t.event := by rw [hname, Text.trim_trim]
  rw [eventName, htrim]
  rcases hcs : t.event.toList with _ | ⟨c, cs⟩
  · have hsame : Text.dropLeading '\'' t.event = t.event := by
      rw [← String.toList_inj, Text.dropLeading, String.toList_ofList, hcs, List.dropWhile_nil]
    rw [hsame, htrim]
    simp [Symbol.isEvent, hcs]
  · by_cases hc : c = '\''
    · refine iff_of_false (fun heq => ?_) (by simp [Symbol.isEvent, hcs, hc])
      -- a quote is taken away, so the name gets shorter
      have hle := Text.length_trim_le (Text.dropLeading '\'' t.event)
      rw [heq, Text.dropLeading, String.toList_ofList, hcs,
        List.dropWhile_cons_of_pos (by simp [hc])] at hle
      have hshort := (List.dropWhile_sublist (· == '\'') (l := cs)).length_le
      rw [List.length_cons] at hle
      omega
    · have hsame : Text.dropLeading '\'' t.event = t.event := by
        rw [← String.toList_inj, Text.dropLeading, String.toList_ofList, hcs,
          List.dropWhile_cons_of_neg (by simp [hc])]
      rw [hsame, htrim]
      simp [Symbol.isEvent, hcs, hc]

/-- The time that takes the place of another one: as many cycles after the time that its event is bound to. -/
def moved (b : List (String × Time)) (t : Time) : Time :=
  (b.lookup t.event).elim t fun target => ⟨target.event, target.offset + t.offset⟩

theorem linearize_toExpr (t : Time) : t.toExpr.linearize = .ok t.form := by
  unfold toExpr form
  split
  next h => rw [h, Expr.linearize]
  · simp only [Expr.linearize, bind_eq_ok, pure_eq_ok]
    exact ⟨_, rfl, _, rfl, by rw [LinearForm.symbol_add_const, Int.zero_add]⟩

theorem linearize_subst_toExpr (b : List (String × Time)) (t : Time) :
    (t.toExpr.subst [] (Expr.ofTimes b)).linearize = .ok (t.moved b).form := by
  have hevent : ((Expr.event t.event).subst [] (Expr.ofTimes b)).linearize =
      .ok (moved b { t with offset := 0 }).form := by
    rw [Expr.subst, Expr.ofTimes, Association.lookup_map, moved]
    cases b.lookup t.event with
    | none => rfl
    | some target =>
      rw [Option.map_some, Option.getD_some, linearize_toExpr]
      simp [form]
  have hshift : (moved b { t with offset := 0 }).form + .const t.offset = (t.moved b).form := by
    unfold moved form
    cases b.lookup t.event <;> simp [LinearForm.symbol_add_const]
  unfold toExpr
  split
  next h =>
    rw [hevent]
    exact congrArg (fun u : Time => Except.ok (moved b u).form) (by rw [← h])
  · simp only [Expr.subst, Expr.linearize, bind_eq_ok, pure_eq_ok] at hevent ⊢
    exact ⟨_, hevent, _, rfl, hshift⟩

theorem same_form_iff : t.form.same u.form = true ↔ t = u := by
  refine ⟨fun h => ?_, fun h => h ▸ LinearForm.same_iff.2 fun _ => rfl⟩
  simp only [LinearForm.same, form, LinearForm.symbol, Bool.and_eq_true, beq_iff_eq, List.all_cons,
    List.all_nil, List.lookup_cons, List.lookup_nil] at h
  obtain ⟨⟨hoffset, -⟩, hsymbol, -⟩ := h
  have hevent : t.event = u.event := by
    by_contra hne
    have hdiffer : (Symbol.ofEvent t.event == Symbol.ofEvent u.event) = false :=
      beq_false_of_ne fun heq => hne (Symbol.ofEvent_injective heq)
    rw [hdiffer] at hsymbol
    cases hsymbol
  cases t
  cases u
  simp_all

/-- A shift moves the time, and names the event once more. -/
theorem shift?_eq_some_iff (k : Int) : t.shift? k = some ⟨t.event, t.offset + k⟩ ↔ t.Kept :=
  on?_eq_some_iff.trans on?_eq_some_iff.symm

/-- Both ways lead to the same time exactly if the name of the event that takes the place of the other one is
kept. -/
theorem subst?_eq_some_moved_iff :
    t.subst? b = some (t.moved b) ↔ ∀ target, b.lookup t.event = some target → target.Kept := by
  unfold subst? moved
  cases b.lookup t.event with
  | none => simp
  | some target => simp [shift?_eq_some_iff]

theorem offset_of_subst? (h : t.subst? b = some u) : u.offset = (t.moved b).offset := by
  unfold subst? at h
  unfold moved
  cases hlookup : b.lookup t.event with
  | none =>
    rw [hlookup] at h
    rw [← Option.some.inj h]
    rfl
  | some target =>
    rw [hlookup] at h
    simp only [shift?, on?] at h
    split at h
    · cases h
    · rw [← Option.some.inj h]
      rfl

/-- Distances are the same at whatever cycles the events happen if both are on one event, or if they are
between the same times. -/
theorem same_sub_form_iff {t' u' : Time} (ht : t.offset = t'.offset) (hu : u.offset = u'.offset) :
    (t.form - u.form).same (t'.form - u'.form) = true ↔
      (t.event = u.event ∧ t'.event = u'.event) ∨ (t = t' ∧ u = u') := by
  obtain ⟨x, o⟩ := t
  obtain ⟨y, p⟩ := u
  obtain ⟨x', _⟩ := t'
  obtain ⟨y', _⟩ := u'
  obtain rfl : o = _ := ht
  obtain rfl : p = _ := hu
  rw [LinearForm.same_iff]
  simp only [form, LinearForm.eval_sub, LinearForm.eval_symbol, Time.mk.injEq, and_true]
  constructor
  · intro h
    -- the cycle of one event at a time goes from zero to one
    have hunit : ∀ z : String, (if x = z then 1 else 0) - (if y = z then (1 : Int) else 0) =
        (if x' = z then 1 else 0) - if y' = z then 1 else 0 := by
      intro z
      have hz := h (LinearForm.unit (.ofEvent z))
      simp only [LinearForm.unit, Symbol.ofEvent_injective.eq_iff] at hz
      omega
    by_cases hsame : x' = y'
    · have hx := hunit x
      rw [hsame, sub_self, if_pos rfl] at hx
      grind
    · have hx := hunit x'
      have hy := hunit y'
      grind
  · rintro (⟨rfl, rfl⟩ | ⟨rfl, rfl⟩) ρ
    · omega
    · rfl

end Time

namespace Interval

variable {i j : Interval} {b : List (String × Time)}

def lengthExpr (i : Interval) : Expr := .sub i.stop.toExpr i.start.toExpr

theorem linearize_lengthExpr (i : Interval) : i.lengthExpr.linearize = .ok i.lengthForm := by
  simp only [lengthExpr, Expr.linearize, Time.linearize_toExpr, bind_eq_ok, pure_eq_ok]
  exact ⟨_, rfl, _, rfl, rfl⟩

theorem bounds_of_subst (h : i.subst b = .ok j) :
    i.start.subst? b = some j.start ∧ i.stop.subst? b = some j.stop := by
  unfold subst at h
  split at h
  next start stop hbounds =>
    obtain ⟨hstart, hstop⟩ := between_eq_ok (mapError_eq_ok.1 h)
    simp only [substBounds?, Option.bind_eq_bind, Option.bind_eq_some_iff, Option.pure_def,
      Option.some.injEq, Prod.mk.injEq] at hbounds
    obtain ⟨_, hs, _, ht, rfl, rfl⟩ := hbounds
    rw [hstart, hstop]
    exact ⟨hs, ht⟩
  · cases h

theorem linearize_subst_lengthExpr (b : List (String × Time)) (i : Interval) :
    (i.lengthExpr.subst [] (Expr.ofTimes b)).linearize = .ok ((i.stop.moved b).form - (i.start.moved b).form) := by
  simp only [lengthExpr, Expr.subst, Expr.linearize, Time.linearize_subst_toExpr, bind_eq_ok, pure_eq_ok]
  exact ⟨_, rfl, _, rfl, rfl⟩

/-- The length of the interval that times are put into is the length into which they are put, if both are on one
event or the names of the events are kept. -/
theorem same_lengthForm_iff (h : i.subst b = .ok j) :
    j.lengthForm.same ((i.stop.moved b).form - (i.start.moved b).form) = true ↔
      (j.stop.event = j.start.event ∧ (i.stop.moved b).event = (i.start.moved b).event) ∨
      ∀ target, b.lookup i.start.event = some target ∨ b.lookup i.stop.event = some target → target.Kept := by
  obtain ⟨hstart, hstop⟩ := bounds_of_subst h
  have hkept : (∀ target, b.lookup i.start.event = some target ∨ b.lookup i.stop.event = some target →
      target.Kept) ↔ j.stop = i.stop.moved b ∧ j.start = i.start.moved b := by
    have hstarts := Time.subst?_eq_some_moved_iff (t := i.start) (b := b)
    have hstops := Time.subst?_eq_some_moved_iff (t := i.stop) (b := b)
    rw [hstart, Option.some.injEq] at hstarts
    rw [hstop, Option.some.injEq] at hstops
    rw [hstarts, hstops]
    exact ⟨fun hall => ⟨fun target ht => hall target (.inr ht), fun target ht => hall target (.inl ht)⟩,
      fun hall target ht => ht.elim (hall.2 target) (hall.1 target)⟩
  rw [hkept, lengthForm]
  exact Time.same_sub_form_iff (Time.offset_of_subst? hstop) (Time.offset_of_subst? hstart)

theorem params_lengthExpr (i : Interval) : i.lengthExpr.params = [] := by
  have hnone : ∀ t : Time, t.toExpr.params = [] := by
    intro t
    unfold Time.toExpr
    split <;> rfl
  rw [lengthExpr, Expr.params, hnone, hnone, List.append_nil]

end Interval

theorem Expr.linear_of_ofTimes {b : List (String × Time)} {x : String} {e : Expr}
    (h : (ofTimes b).lookup x = some e) : e.Linear := by
  rw [ofTimes, Association.lookup_map] at h
  obtain ⟨t, -, rfl⟩ := Option.map_eq_some_iff.1 h
  exact ⟨_, t.linearize_toExpr⟩

/-- Linear expressions can be put in place of the names of a linear one, and the value is the one under the
assignment that gives each of these names the value of what takes its place, all at once. With times bound to
events, a time that is moved to where its event is bound has the form that comes from replacing the event in the
expression, exactly if the name of the event that it is moved to is kept. The same is true of the length of an
interval, unless this is a length on one event in both ways. All identifiers are kept, and all names that are
taken from a text and do not start with a quote. -/
theorem agreeing_substitutions (b : List (String × Time)) :
    (∀ (e : Expr) (params events : List (String × Expr)) (f : LinearForm),
      (∀ p ∈ e.params, Symbol.isEvent p = false) → e.linearize = .ok f →
      (∀ p ∈ e.params, ∀ image, params.lookup p = some image → image.Linear) →
      (∀ x ∈ e.events, ∀ image, events.lookup x = some image → image.Linear) →
      ∃ g, (e.subst params events).linearize = .ok g ∧
        ∀ ρ, g.eval ρ = f.eval (Expr.replaced params events ρ)) ∧
    (∀ t : Time, ∃ f, (t.toExpr.subst [] (Expr.ofTimes b)).linearize = .ok f ∧
      ((∃ u, t.subst? b = some u ∧ u.form.same f = true) ↔
        ∀ target, b.lookup t.event = some target → target.Kept)) ∧
    (∀ i j : Interval, i.subst b = .ok j → i.lengthExpr.linearize = .ok i.lengthForm ∧
      ∃ f, (i.lengthExpr.subst [] (Expr.ofTimes b)).linearize = .ok f ∧
        (∀ ρ, f.eval ρ = i.lengthForm.eval (Expr.replaced [] (Expr.ofTimes b) ρ)) ∧
        (j.lengthForm.same f = true ↔
          (j.stop.event = j.start.event ∧ (i.stop.moved b).event = (i.start.moved b).event) ∨
          ∀ target, b.lookup i.start.event = some target ∨ b.lookup i.stop.event = some target →
            target.Kept)) ∧
    (∀ t : Time, Token.isName t.event = true → t.Kept) ∧
    ∀ t : Time, t.Made → (t.Kept ↔ Symbol.isEvent t.event = false) := by
  refine ⟨fun e params events f hquote hf hp hx => Expr.exists_form_subst hquote hf hp hx,
    fun t => ⟨_, t.linearize_subst_toExpr b, ?_⟩,
    fun i j hsubst => ⟨i.linearize_lengthExpr, _, i.linearize_subst_lengthExpr b, ?_, ?_⟩,
    fun t => Time.kept_of_isName, fun t => Time.Made.kept_iff⟩
  · rw [← Time.subst?_eq_some_moved_iff]
    constructor
    · rintro ⟨u, hu, hsame⟩
      rwa [Time.same_form_iff.1 hsame] at hu
    · exact fun hu => ⟨_, hu, Time.same_form_iff.2 rfl⟩
  · have hnone : ∀ p, p ∉ i.lengthExpr.params := by simp [i.params_lengthExpr]
    obtain ⟨g, hg, hvalue⟩ := Expr.exists_form_subst (fun p hp => absurd hp (hnone p)) i.linearize_lengthExpr
      (fun p hp => absurd hp (hnone p)) fun x _ e he => Expr.linear_of_ofTimes he
    rw [i.linearize_subst_lengthExpr b] at hg
    rwa [← Except.ok.inj hg] at hvalue
  · exact Interval.same_lengthForm_iff hsubst

namespace Swap

def times : List (String × Time) := [("G", ⟨"L", 1⟩), ("L", ⟨"G", 0⟩)]

def window : Interval := ⟨⟨"G", 0⟩, ⟨"L", 4⟩, by decide⟩

def values : List (String × Expr) := [("W", .add (.param "V") (.const 1)), ("V", .param "W")]

def expr : Expr := .sub (.mul (.const 2) (.param "W")) (.add (.param "V") (.event "G"))

end Swap

/-- Parameters and events that are replaced by each other are not replaced twice. -/
theorem agreeing_substitutions_swap :
    (∃ g, (Swap.expr.subst Swap.values (Expr.ofTimes Swap.times)).linearize = .ok g ∧
      ∀ ρ, g.eval ρ = 2 * (ρ "V" + 1) - (ρ "W" + (ρ "'L" + 1))) ∧
    (∃ u f, Time.subst? Swap.times ⟨"G", 2⟩ = some u ∧
      ((Time.mk "G" 2).toExpr.subst [] (Expr.ofTimes Swap.times)).linearize = .ok f ∧
      u.form.same f = true) ∧
    ∃ j, Swap.window.subst Swap.times = .ok j ∧ ∀ ρ, j.lengthForm.eval ρ = ρ "'G" + 4 - (ρ "'L" + 1) := by
  obtain ⟨hexpr, htime, hinterval, hname, -⟩ := agreeing_substitutions Swap.times
  have hkept : ∀ x target, Swap.times.lookup x = some target → target.Kept := by
    have hnames : ∀ x ∈ Swap.times, Token.isName x.2.event = true := by decide
    exact fun x target htarget => hname target (hnames _ (Association.mem_of_lookup htarget))
  refine ⟨?_, ?_, ?_⟩
  · obtain ⟨f, hf⟩ : Swap.expr.Linear := ⟨_, rfl⟩
    have hlinear : ∀ p ∈ Swap.expr.params, ∀ b, Swap.values.lookup p = some b → b.Linear := by
      intro p _ b hb
      have hmem := Association.mem_of_lookup hb
      simp only [Swap.values, List.mem_cons, Prod.mk.injEq, List.not_mem_nil, or_false] at hmem
      rcases hmem with ⟨-, rfl⟩ | ⟨-, rfl⟩
      · exact ⟨_, rfl⟩
      · exact ⟨_, rfl⟩
    obtain ⟨g, hg, hvalue⟩ := hexpr Swap.expr Swap.values (Expr.ofTimes Swap.times) f (by decide) hf
      hlinear fun x _ e he => Expr.linear_of_ofTimes he
    refine ⟨g, hg, fun ρ => ?_⟩
    rw [hvalue, Expr.eval_linearize hf]
    rfl
  · obtain ⟨f, hf, hiff⟩ := htime ⟨"G", 2⟩
    obtain ⟨u, hu, hsame⟩ := hiff.2 (hkept _)
    exact ⟨u, f, hu, hf, hsame⟩
  · have hsubst : Swap.window.subst Swap.times = .ok ⟨⟨"L", 1⟩, ⟨"G", 4⟩, by decide⟩ :=
      toOption_eq_some.1 (by decide +kernel)
    obtain ⟨-, f, -, hvalue, hiff⟩ := hinterval _ _ hsubst
    have hsame := hiff.2 (.inr fun target h => h.elim (hkept _ target) (hkept _ target))
    refine ⟨_, hsubst, fun ρ => ?_⟩
    rw [LinearForm.eval_eq_of_same hsame, hvalue, Interval.lengthForm, LinearForm.eval_sub, Time.eval_form,
      Time.eval_form]
    change ρ "'G" + 4 - (ρ "'L" + 1 + 0) = _
    rw [Int.add_zero]

/-- A name that is taken from a text with two quotes keeps the second one, and loses it when the time is moved:
what is put in place of the event in the expression is on another event. -/
theorem renamed_by_substitution :
    Time.Made ⟨"'x", 3⟩ ∧ Time.subst? [("G", ⟨"'x", 3⟩)] ⟨"G", 2⟩ = some ⟨"x", 5⟩ ∧
      ∃ f, ((Time.mk "G" 2).toExpr.subst [] (Expr.ofTimes [("G", ⟨"'x", 3⟩)])).linearize = .ok f ∧
        (Time.form ⟨"x", 5⟩).same f = false :=
  ⟨⟨"' 'x", by decide +kernel⟩, by decide +kernel, _, rfl, by decide +kernel⟩

end Chronogram
