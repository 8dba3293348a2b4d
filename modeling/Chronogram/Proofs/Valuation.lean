import Chronogram.Fault
import Chronogram.Token
import Chronogram.Proofs.Fallible
import Chronogram.Proofs.LinearForm

/-! Valuations give an integer to every parameter and a cycle to every event. An expression whose
names are identifiers has a value under them; its linear form has the same value, and replacing
names by expressions is the same as evaluating under a changed valuation. Since the form of an
expression is constant exactly when the value is, an expression stays linear when linear
expressions are put into it. -/

namespace Chronogram

open Fallible

structure Valuation where
  param : String → Int
  event : String → Int

namespace Symbol

theorem isEvent_ofEvent (name : String) : isEvent (ofEvent name) = true := by
  simp [isEvent, ofEvent, String.toList_append]

theorem eventName_ofEvent (name : String) : eventName (ofEvent name) = name := by
  simp [eventName, ofEvent, String.toList_append]

theorem ofEvent_eventName {s : Symbol} (h : isEvent s = true) : ofEvent (eventName s) = s := by
  rw [← String.toList_inj]
  simp only [isEvent, beq_iff_eq] at h
  rcases hs : s.toList with _ | ⟨c, cs⟩
  · simp [hs] at h
  · simp_all [ofEvent, eventName, String.toList_append]

theorem isEvent_of_isName {s : Symbol} (h : Token.isName s = true) : isEvent s = false := by
  unfold Token.isName at h
  unfold isEvent
  rcases hs : s.toList with _ | ⟨c, cs⟩
  · rfl
  · rw [hs] at h
    simp only [Bool.and_eq_true] at h
    simp only [List.head?_cons, beq_eq_false_iff_ne, ne_eq, Option.some.injEq]
    rintro rfl
    exact absurd h.1 (by decide)

end Symbol

namespace Valuation

variable (v : Valuation)

def symbol : Symbol → Int := fun s => if s.isEvent then v.event s.eventName else v.param s

@[simp] theorem symbol_ofEvent (e : String) : v.symbol (.ofEvent e) = v.event e := by
  simp [symbol, Symbol.isEvent_ofEvent, Symbol.eventName_ofEvent]

theorem symbol_param {p : String} (h : Token.isName p = true) : v.symbol p = v.param p := by
  simp [symbol, Symbol.isEvent_of_isName h]

theorem exists_symbol_eq (ρ : Symbol → Int) : ∃ v : Valuation, v.symbol = ρ := by
  refine ⟨⟨ρ, fun e => ρ (.ofEvent e)⟩, funext fun s => ?_⟩
  by_cases h : s.isEvent = true
  · simp [symbol, h, Symbol.ofEvent_eventName h]
  · simp [symbol, h]

/-- The valuation after parameters are bound to expressions and events to times. A name that is not
bound keeps its value. -/
def bound (params : List (String × Expr)) (times : List (String × Time)) : Valuation where
  param p := (params.lookup p).elim (v.param p) (·.eval v.symbol)
  event e := (times.lookup e).elim (v.event e) (·.cycle v.symbol)

end Valuation

namespace Time

theorem eval_toExpr (t : Time) (ρ : Symbol → Int) : t.toExpr.eval ρ = t.cycle ρ := by
  unfold toExpr cycle
  split
  next h => simp [Expr.eval, h]
  · rfl

theorem cycle_symbol (t : Time) (v : Valuation) : t.cycle v.symbol = v.event t.event + t.offset := by
  simp [cycle]

theorem eval_form (t : Time) (ρ : Symbol → Int) : t.form.eval ρ = t.cycle ρ := by
  simp [form, cycle]

end Time

namespace Valuation

variable {v : Valuation} {params : List (String × Expr)} {times : List (String × Time)} {n : String}

theorem param_bound {e : Expr} (h : params.lookup n = some e) :
    (v.bound params times).param n = e.eval v.symbol := by
  simp [bound, h]

theorem event_bound {t : Time} (h : times.lookup n = some t) :
    (v.bound params times).event n = v.event t.event + t.offset := by
  simp [bound, h, Time.cycle_symbol]

end Valuation

namespace Expr

/-- All names in the expression are identifiers, as in every expression that is read. -/
def Plain (e : Expr) : Prop :=
  (∀ p ∈ e.params, Token.isName p = true) ∧ ∀ x ∈ e.events, Token.isName x = true

instance (e : Expr) : Decidable e.Plain := inferInstanceAs (Decidable (_ ∧ _))

def Linear (e : Expr) : Prop := ∃ f, e.linearize = .ok f

theorem plain_operands {l r : Expr}
    (h : (∀ p ∈ l.params ++ r.params, Token.isName p = true) ∧
      ∀ x ∈ l.events ++ r.events, Token.isName x = true) : l.Plain ∧ r.Plain := by
  simp only [List.mem_append] at h
  exact ⟨⟨fun p hp => h.1 p (.inl hp), fun x hx => h.2 x (.inl hx)⟩,
    ⟨fun p hp => h.1 p (.inr hp), fun x hx => h.2 x (.inr hx)⟩⟩

theorem eval_linearize {e : Expr} {f : LinearForm} (h : e.linearize = .ok f) (ρ : Symbol → Int) :
    f.eval ρ = e.eval ρ := by
  induction e generalizing f with
  | const n => cases h; simp [eval]
  | param p => cases h; simp [eval]
  | event x => cases h; simp [eval]
  | add l r ihl ihr =>
    simp only [linearize, bind_eq_ok, pure_eq_ok] at h
    obtain ⟨fl, hl, fr, hr, rfl⟩ := h
    rw [LinearForm.eval_add, ihl hl, ihr hr, eval]
  | sub l r ihl ihr =>
    simp only [linearize, bind_eq_ok, pure_eq_ok] at h
    obtain ⟨fl, hl, fr, hr, rfl⟩ := h
    rw [LinearForm.eval_sub, ihl hl, ihr hr, eval]
  | mul l r ihl ihr =>
    simp only [linearize, bind_eq_ok] at h
    obtain ⟨fl, hl, fr, hr, h⟩ := h
    split at h
    next hc =>
      cases h
      rw [LinearForm.eval_scale, ihr hr, eval, ← ihl hl, LinearForm.eval_of_isConstant hc, mul_comm]
    · split at h
      next hc =>
        cases h
        rw [LinearForm.eval_scale, ihl hl, eval, ← ihr hr, LinearForm.eval_of_isConstant hc]
      · exact absurd h throw_ne_ok

theorem eval_congr {e : Expr} {ρ σ : Symbol → Int} (hp : ∀ p ∈ e.params, ρ p = σ p)
    (hx : ∀ x ∈ e.events, ρ (.ofEvent x) = σ (.ofEvent x)) : e.eval ρ = e.eval σ := by
  induction e with
  | const n => rfl
  | param p => exact hp p (by simp [params])
  | event x => exact hx x (by simp [events])
  | add l r ihl ihr | sub l r ihl ihr | mul l r ihl ihr =>
    simp only [params, events, List.mem_append] at hp hx
    rw [eval, eval, ihl (fun p h => hp p (.inl h)) (fun x h => hx x (.inl h)),
      ihr (fun p h => hp p (.inr h)) (fun x h => hx x (.inr h))]

theorem eval_congr_of_plain {e : Expr} (he : e.Plain) {v w : Valuation}
    (hp : ∀ p ∈ e.params, v.param p = w.param p) (hx : ∀ x ∈ e.events, v.event x = w.event x) :
    e.eval v.symbol = e.eval w.symbol := by
  refine eval_congr (fun p h => ?_) (fun x h => ?_)
  · rw [v.symbol_param (he.1 p h), w.symbol_param (he.1 p h), hp p h]
  · rw [v.symbol_ofEvent, w.symbol_ofEvent, hx x h]

theorem eval_bound_of_events {e : Expr} (he : e.Plain) (hx : e.events = []) {v : Valuation}
    {params : List (String × Expr)} {times : List (String × Time)} :
    e.eval (v.bound params times).symbol = e.eval (v.bound params []).symbol :=
  eval_congr_of_plain he (fun _ _ => rfl) (by simp [hx])

abbrev ofTimes (times : List (String × Time)) : List (String × Expr) :=
  times.map fun (n, t) => (n, t.toExpr)

/-- Under `σ` each name in the expression has the value that what replaces it has under `ρ`. -/
structure Induced (e : Expr) (params events : List (String × Expr)) (ρ σ : Symbol → Int) : Prop where
  param : ∀ p ∈ e.params, σ p = ((params.lookup p).getD (.param p)).eval ρ
  event : ∀ x ∈ e.events, σ (.ofEvent x) = ((events.lookup x).getD (.event x)).eval ρ

theorem Induced.operands {e l r : Expr} {params events : List (String × Expr)} {ρ σ : Symbol → Int}
    (h : e.Induced params events ρ σ) (hp : e.params = l.params ++ r.params)
    (hx : e.events = l.events ++ r.events) : l.Induced params events ρ σ ∧ r.Induced params events ρ σ := by
  obtain ⟨hparam, hevent⟩ := h
  simp only [hp, hx, List.mem_append] at hparam hevent
  exact ⟨⟨fun p h => hparam p (.inl h), fun x h => hevent x (.inl h)⟩,
    ⟨fun p h => hparam p (.inr h), fun x h => hevent x (.inr h)⟩⟩

/-- Replacing names is evaluating under the induced assignment. -/
theorem Induced.eval_subst {e : Expr} {params events : List (String × Expr)} {ρ σ : Symbol → Int}
    (h : e.Induced params events ρ σ) : (e.subst params events).eval ρ = e.eval σ := by
  induction e with
  | const n => rfl
  | param p => exact (h.param p (by simp [Expr.params])).symm
  | event x => exact (h.event x (by simp [Expr.events])).symm
  | add l r ihl ihr | sub l r ihl ihr | mul l r ihl ihr =>
    obtain ⟨hl, hr⟩ := h.operands rfl rfl
    rw [subst, eval, eval, ihl hl, ihr hr]

/-- Bound parameters and times induce the valuation that they change. -/
theorem Plain.induced {e : Expr} (he : e.Plain) (params : List (String × Expr))
    (times : List (String × Time)) (v : Valuation) :
    e.Induced params (ofTimes times) v.symbol (v.bound params times).symbol := by
  refine ⟨fun p hp => ?_, fun x _ => ?_⟩
  · simp only [Valuation.symbol_param _ (he.1 p hp), Valuation.bound]
    cases params.lookup p with
    | none => exact (v.symbol_param (he.1 p hp)).symm
    | some b => rfl
  · simp only [Valuation.symbol_ofEvent, Valuation.bound, ofTimes, Association.lookup_map]
    cases times.lookup x with
    | none => exact (v.symbol_ofEvent x).symm
    | some t => exact (t.eval_toExpr _).symm

theorem eval_subst {e : Expr} (he : e.Plain) (params : List (String × Expr))
    (times : List (String × Time)) (v : Valuation) :
    (e.subst params (ofTimes times)).eval v.symbol = e.eval (v.bound params times).symbol :=
  (he.induced params times v).eval_subst

theorem linear_operands {l r : Expr} {node : LinearForm → LinearForm → Except Expr LinearForm}
    {f : LinearForm} (h : (do node (← l.linearize) (← r.linearize)) = .ok f) :
    l.Linear ∧ r.Linear := by
  simp only [bind_eq_ok] at h
  obtain ⟨fl, hl, fr, hr, -⟩ := h
  exact ⟨⟨fl, hl⟩, ⟨fr, hr⟩⟩

theorem isConstant_subst {e : Expr} {params events : List (String × Expr)}
    (hinduced : ∀ ρ, ∃ σ, e.Induced params events ρ σ) {f g : LinearForm} (hf : e.linearize = .ok f)
    (hg : (e.subst params events).linearize = .ok g) (hc : f.isConstant = true) : g.isConstant = true := by
  rw [LinearForm.isConstant_iff]
  refine ⟨f.constant, fun ρ => ?_⟩
  obtain ⟨σ, hσ⟩ := hinduced ρ
  rw [eval_linearize hg, hσ.eval_subst, ← eval_linearize hf, LinearForm.eval_of_isConstant hc]

/-- A product is linear exactly when one of its factors is constant. -/
theorem linear_mul_iff {l r : Expr} :
    (mul l r).Linear ↔ ∃ fl fr, l.linearize = .ok fl ∧ r.linearize = .ok fr ∧
      (fl.isConstant = true ∨ fr.isConstant = true) := by
  constructor
  · rintro ⟨f, hf⟩
    simp only [linearize, bind_eq_ok] at hf
    obtain ⟨fl, hfl, fr, hfr, hf⟩ := hf
    refine ⟨fl, fr, hfl, hfr, ?_⟩
    by_contra hn
    rw [not_or] at hn
    rw [if_neg hn.1, if_neg hn.2] at hf
    exact throw_ne_ok hf
  · rintro ⟨fl, fr, hfl, hfr, hc⟩
    by_cases hl : fl.isConstant = true
    · exact ⟨fr.scale fl.constant, by simp [linearize, hfl, hfr, hl]⟩
    · have hr := hc.resolve_left hl
      exact ⟨fl.scale fr.constant, by simp [linearize, hfl, hfr, hl, hr]⟩

/-- Linear expressions may be put into a linear expression, where no two of its names share a symbol. -/
theorem Linear.subst {e : Expr} (hl : e.Linear) {params events : List (String × Expr)}
    (hinduced : ∀ ρ, ∃ σ, e.Induced params events ρ σ)
    (hp : ∀ p ∈ e.params, ∀ b, params.lookup p = some b → b.Linear)
    (hx : ∀ x ∈ e.events, ∀ b, events.lookup x = some b → b.Linear) :
    (e.subst params events).Linear := by
  induction e with
  | const n => exact hl
  | param p =>
    rw [Expr.subst]
    cases h : params.lookup p with
    | none => exact hl
    | some b => exact hp p (by simp [Expr.params]) b h
  | event x =>
    rw [Expr.subst]
    cases h : events.lookup x with
    | none => exact hl
    | some b => exact hx x (by simp [Expr.events]) b h
  | add l r ihl ihr | sub l r ihl ihr =>
    have hleft : ∀ ρ, ∃ σ, l.Induced params events ρ σ :=
      fun ρ => (hinduced ρ).imp fun _ h => (h.operands rfl rfl).1
    have hright : ∀ ρ, ∃ σ, r.Induced params events ρ σ :=
      fun ρ => (hinduced ρ).imp fun _ h => (h.operands rfl rfl).2
    obtain ⟨f, hf⟩ := hl
    obtain ⟨hll, hlr⟩ := linear_operands hf
    simp only [Expr.params, Expr.events, List.mem_append] at hp hx
    obtain ⟨gl, hgl⟩ := ihl hll hleft (fun p h => hp p (.inl h)) fun x h => hx x (.inl h)
    obtain ⟨gr, hgr⟩ := ihr hlr hright (fun p h => hp p (.inr h)) fun x h => hx x (.inr h)
    exact ⟨_, by simp only [Expr.subst, linearize, hgl, hgr]; rfl⟩
  | mul l r ihl ihr =>
    have hleft : ∀ ρ, ∃ σ, l.Induced params events ρ σ :=
      fun ρ => (hinduced ρ).imp fun _ h => (h.operands rfl rfl).1
    have hright : ∀ ρ, ∃ σ, r.Induced params events ρ σ :=
      fun ρ => (hinduced ρ).imp fun _ h => (h.operands rfl rfl).2
    obtain ⟨fl, fr, hfl, hfr, hc⟩ := linear_mul_iff.1 hl
    simp only [Expr.params, Expr.events, List.mem_append] at hp hx
    obtain ⟨gl, hgl⟩ := ihl ⟨fl, hfl⟩ hleft (fun p h => hp p (.inl h)) fun x h => hx x (.inl h)
    obtain ⟨gr, hgr⟩ := ihr ⟨fr, hfr⟩ hright (fun p h => hp p (.inr h)) fun x h => hx x (.inr h)
    -- the factor that was constant still is
    exact linear_mul_iff.2 ⟨gl, gr, hgl, hgr,
      hc.imp (isConstant_subst hleft hfl hgl) (isConstant_subst hright hfr hgr)⟩

theorem linear_subst {e : Expr} (he : e.Plain) (hl : e.Linear) {params : List (String × Expr)}
    (times : List (String × Time))
    (hp : ∀ p ∈ e.params, ∀ b, params.lookup p = some b → b.Linear) :
    (e.subst params (ofTimes times)).Linear := by
  refine hl.subst (fun ρ => ?_) hp fun x _ b hb => ?_
  · obtain ⟨v, rfl⟩ := Valuation.exists_symbol_eq ρ
    exact ⟨_, he.induced params times v⟩
  · rw [ofTimes, Association.lookup_map] at hb
    obtain ⟨t, -, rfl⟩ := Option.map_eq_some_iff.1 hb
    rw [Time.toExpr]
    split
    · exact ⟨_, rfl⟩
    · exact ⟨_, rfl⟩

theorem toForm_eq_ok {e : Expr} {f : LinearForm} : e.toForm = .ok f ↔ e.linearize = .ok f := by
  rw [toForm, mapError_eq_ok]

theorem succeeds_toForm {e : Expr} (h : e.Linear) : Succeeds e.toForm := Succeeds.mapError h

end Expr

end Chronogram
