import Chronogram.Check.Instance
import Chronogram.Proofs.Table
import Mathlib.Data.List.Induction

/-! Instances in a registered caller. All parameters of the callee are bound to linear expressions over
those of the caller, so what is computed of the callee stays linear; and whatever the caller admits,
the callee's clauses on parameters hold under the bindings and its ports have a width. -/

namespace Chronogram

open Fallible

namespace Expr

variable {given : List (String × Expr)}

/-- Parameters that are all replaced leave the parameters of what replaces them. -/
theorem params_subst {e : Expr} {P : String → Prop}
    (h : ∀ p ∈ e.params, ∃ b, given.lookup p = some b ∧ ∀ q ∈ b.params, P q) :
    ∀ q ∈ (e.subst given []).params, P q := by
  induction e with
  | const n => simp [subst, params]
  | param p =>
    obtain ⟨b, hb, hP⟩ := h p (by simp [params])
    rw [subst, hb]
    exact hP
  | event x => simp [subst, params]
  | add l r ihl ihr | sub l r ihl ihr | mul l r ihl ihr =>
    simp only [params, subst, List.mem_append] at h ⊢
    rintro q (hq | hq)
    · exact ihl (fun p hp => h p (.inl hp)) q hq
    · exact ihr (fun p hp => h p (.inr hp)) q hq

theorem events_subst {e : Expr} {P : String → Prop} (he : ∀ x ∈ e.events, P x)
    (h : ∀ p ∈ e.params, ∃ b, given.lookup p = some b ∧ ∀ x ∈ b.events, P x) :
    ∀ x ∈ (e.subst given []).events, P x := by
  induction e with
  | const n => simp [subst, events]
  | param p =>
    obtain ⟨b, hb, hP⟩ := h p (by simp [params])
    rw [subst, hb]
    exact hP
  | event x => simpa [subst] using he
  | add l r ihl ihr | sub l r ihl ihr | mul l r ihl ihr =>
    simp only [params, events, subst, List.mem_append] at h he ⊢
    rintro x (hx | hx)
    · exact ihl (fun x hx => he x (.inl hx)) (fun p hp => h p (.inl hp)) x hx
    · exact ihr (fun x hx => he x (.inr hx)) (fun p hp => h p (.inr hp)) x hx

theorem simplified_eq_ok {e e' : Expr} (h : e.simplified = .ok e') :
    e' = e ∨ ∃ n, e' = const n := by
  simp only [simplified, bind_eq_ok, pure_eq_ok] at h
  obtain ⟨f, -, rfl⟩ := h
  split
  · exact .inr ⟨_, rfl⟩
  · exact .inl rfl

theorem Linear.succeeds_simplified {e : Expr} (h : e.Linear) : Succeeds e.simplified :=
  Succeeds.bind h fun _ _ => succeeds_pure _

theorem linear_of_simplified {e e' : Expr} (h : e.simplified = .ok e') : e'.Linear := by
  simp only [simplified, bind_eq_ok, pure_eq_ok] at h
  obtain ⟨f, hf, rfl⟩ := h
  split
  · exact ⟨_, rfl⟩
  · exact ⟨f, hf⟩

theorem eval_simplified {e e' : Expr} (h : e.simplified = .ok e') (ρ : Symbol → Int) : e'.eval ρ = e.eval ρ := by
  simp only [simplified, bind_eq_ok, pure_eq_ok] at h
  obtain ⟨f, hf, rfl⟩ := h
  split
  next hconst => rw [eval, ← eval_linearize hf, LinearForm.eval_of_isConstant hconst]
  · rfl

theorem Over.simplified {e e' : Expr} {params : List String} (he : e.Over params [])
    (h : e.simplified = .ok e') : e'.Over params [] := by
  rcases simplified_eq_ok h with rfl | ⟨n, rfl⟩
  · exact he
  · exact ⟨by simp [Expr.params], by simp [Expr.events], ⟨_, rfl⟩⟩

def valuesOf (given : List (String × Expr)) (ρ : Symbol → Int) : Symbol → Int :=
  fun n => (given.lookup n).elim 0 (·.eval ρ)

/-- An expression all of whose names are given is replaced by one over the names of the arguments, with the
value that it has where each name has the value of its argument. -/
theorem Over.subst {e : Expr} {names params : List String} {given : List (String × Expr)} (he : e.Over names [])
    (hnames : ∀ n ∈ e.params, n ∈ given.map (·.1)) (hgiven : ∀ a ∈ given, a.2.Over params []) :
    (e.subst given []).Over params [] ∧ ∀ ρ, (e.subst given []).eval ρ = e.eval (valuesOf given ρ) := by
  have hbound : ∀ n ∈ e.params, ∃ b, given.lookup n = some b ∧ b.Over params [] := by
    intro n hn
    obtain ⟨b, hb⟩ := Association.exists_lookup (hnames n hn)
    exact ⟨b, hb, hgiven _ (Association.mem_of_lookup hb)⟩
  have hinduced : ∀ ρ, e.Induced given [] ρ (valuesOf given ρ) := by
    intro ρ
    refine ⟨fun n hn => ?_, fun x hx => ?_⟩
    · obtain ⟨b, hb, -⟩ := hbound n hn
      simp [valuesOf, hb]
    · simp [he.events_eq_nil] at hx
  refine ⟨⟨params_subst fun n hn => ?_, events_subst he.events fun n hn => ?_, ?_⟩,
    fun ρ => (hinduced ρ).eval_subst⟩
  · obtain ⟨b, hb, hover⟩ := hbound n hn
    exact ⟨b, hb, hover.params⟩
  · obtain ⟨b, hb, hover⟩ := hbound n hn
    exact ⟨b, hb, hover.events⟩
  · refine he.linear.subst (fun ρ => ⟨_, hinduced ρ⟩) (fun n hn b hb => ?_) fun x hx => ?_
    · exact (hgiven _ (Association.mem_of_lookup hb)).linear
    · simp [he.events_eq_nil] at hx

/-- What is linear stays so when names are bound to linear expressions. -/
theorem linear_subst_of_mem {e : Expr} (he : e.Plain) (hl : e.Linear)
    (hb : ∀ b ∈ given, b.2.Linear) (times : List (String × Time)) :
    (e.subst given (ofTimes times)).Linear :=
  linear_subst he hl times fun _ _ _ h => hb _ (Association.mem_of_lookup h)

end Expr

theorem Signature.isNone_param?_iff {s : Signature} {n : String} :
    (s.param? n).isNone = true ↔ n ∉ s.paramNames := by
  rw [param?, Option.isNone_iff_eq_none, List.find?_eq_none, paramNames, List.mem_map]
  simp

def Instantiation.Plain (i : Instantiation) : Prop :=
  (∀ e ∈ i.args, e.Plain) ∧ ∀ a ∈ i.named, a.2.Plain

/-- Bindings of a callee's parameters to expressions over those of a caller. -/
structure Binds (caller callee : Signature) (bindings : List (String × Expr)) : Prop where
  total : ∀ p ∈ callee.paramNames, p ∈ bindings.map (·.1)
  plain : ∀ b ∈ bindings, b.2.Plain
  values : ∀ b ∈ bindings, b.2.Over caller.paramNames []

/-- A callee with bindings under which it can be used wherever the caller can. -/
structure Instance.Fits (i : Instance) (caller : Signature) : Prop where
  plain : i.signature.Plain
  valid : i.signature.Valid
  linear : ∀ b ∈ i.bindings, b.2.Linear
  clause : ∀ v : Valuation, caller.Admits v.symbol → ∀ times,
    ∀ c ∈ i.signature.paramClauses, c.Holds (v.bound i.bindings times).symbol
  width : ∀ v : Valuation, caller.Admits v.symbol → ∀ times,
    ∀ p ∈ i.signature.ports, 1 ≤ p.width.eval (v.bound i.bindings times).symbol

namespace Caller

variable {c : Caller} {s : Signature} {inst : Instantiation}

/-- A caller that passed validation and relies on what it admits. -/
structure Registered (c : Caller) : Prop where
  plain : c.signature.Plain
  valid : c.signature.Valid
  facts : ∀ ρ, c.facts.Hold ρ ↔ c.signature.Admits ρ

theorem of_registered {table : Table} (ht : table.Built) {name : String}
    (h : table.get? name = some s) : ∃ c, Caller.of table s = .ok c ∧ c.signature = s ∧ c.Registered := by
  obtain ⟨rfl, hp, hv⟩ := ht.registered h
  obtain ⟨facts, hf, hiff⟩ := ht.exists_facts h
  exact ⟨⟨s, facts⟩, by rw [of, hf], rfl, hp, hv, hiff⟩

theorem over_of_checkArgument {name : String} {arg : Expr} (h : c.checkArgument inst name arg = []) :
    arg.Over c.signature.paramNames [] := by
  unfold checkArgument at h
  extract_lets written found at h
  split at h
  next hfound =>
    simp only [found, List.isEmpty_iff, List.append_eq_nil_iff, List.map_eq_nil_iff] at hfound
    obtain ⟨hx, hp⟩ := hfound
    refine ⟨?_, ?_, ?_⟩
    · intro p hmem
      by_contra hnot
      have : p ∈ Text.sorted (arg.params.filter (· ∉ c.signature.paramNames)) :=
        Text.mem_sorted.2 (List.mem_filter.2 ⟨hmem, by simpa using hnot⟩)
      exact List.not_mem_nil (hp ▸ this)
    · have hnil : arg.events = [] := by simpa using hx
      simp [hnil]
    · split at h
      next f hf => exact ⟨f, hf⟩
      next => simp at h
  next hfound => exact absurd (by simp [h]) hfound

/-- What becomes of one more argument with a name: it is complained about if there is no such parameter or the
parameter is given already, and it is given otherwise. -/
theorem givenArguments_append (c : Caller) (s : Signature) (inst : Instantiation)
    (named : List (String × Expr)) (a : String × Expr) {given : List (String × Expr)} {found : List Diagnostic}
    (h : c.givenArguments s { inst with named } = (given, found)) :
    (a.1 ∉ s.paramNames ∧
      ∃ d, c.givenArguments s { inst with named := named ++ [a] } = (given, found ++ [d])) ∨
    (a.1 ∈ s.paramNames ∧ a.1 ∈ given.map (·.1) ∧ ∃ d, d.kind = .duplicateName ∧
      d.message = "Parameter '" ++ a.1 ++ "' of '" ++ inst.name ++ "' is bound twice" ∧
      c.givenArguments s { inst with named := named ++ [a] } = (given, found ++ [d])) ∨
    (a.1 ∈ s.paramNames ∧ a.1 ∉ given.map (·.1) ∧
      c.givenArguments s { inst with named := named ++ [a] } = (given ++ [a], found)) := by
  unfold givenArguments at h ⊢
  rw [List.foldl_append, List.foldl_cons, List.foldl_nil]
  dsimp only at h ⊢
  rw [h]
  dsimp only
  split
  next hnone => exact .inl ⟨Signature.isNone_param?_iff.1 hnone, _, rfl⟩
  next hsome =>
    rw [Signature.isNone_param?_iff, not_not] at hsome
    split
    next htaken =>
      refine .inr (.inl ⟨hsome, ?_, _, rfl, rfl, rfl⟩)
      by_contra hnot
      rw [← Association.not_any_iff, htaken] at hnot
      cases hnot
    next hfree =>
      refine .inr (.inr ⟨hsome, Association.not_any_iff.1 ?_, rfl⟩)
      rw [Bool.eq_false_iff.2 hfree]
      rfl

theorem mem_givenArguments (c : Caller) (s : Signature) (inst : Instantiation) :
    ∀ a ∈ (c.givenArguments s inst).1, a.2 ∈ inst.args ∨ a ∈ inst.named := by
  suffices h : ∀ named, ∀ a ∈ (c.givenArguments s { inst with named }).1, a.2 ∈ inst.args ∨ a ∈ named from
    h inst.named
  intro named
  induction named using List.reverseRecOn with
  | nil => exact fun a ha => .inl (List.of_mem_zip ha).2
  | append_singleton named b ih =>
    cases hbefore : c.givenArguments s { inst with named } with
    | mk given found =>
    rw [hbefore] at ih
    have hold : ∀ a ∈ given, a.2 ∈ inst.args ∨ a ∈ named ++ [b] :=
      fun a ha => (ih a ha).imp_right (List.mem_append_left _)
    rcases givenArguments_append c s inst named b hbefore with ⟨-, d, h⟩ | ⟨-, -, d, -, -, h⟩ | ⟨-, -, h⟩
    · rw [h]
      exact hold
    · rw [h]
      exact hold
    · rw [h]
      intro a ha
      rcases List.mem_append.1 ha with ha | ha
      · exact hold a ha
      · exact .inr (List.mem_append_right _ ha)

theorem defaultValue_eq_ok {given : List (String × Expr)} {p : Parameter} {e : Expr}
    (h : c.defaultValue s inst given p = .ok e) :
    ∃ d, p.default = some d ∧ (∀ n ∈ d.params, n ∈ given.map (·.1)) ∧ e = d.subst given [] := by
  rw [defaultValue] at h
  split at h
  · cases h
  next d hd =>
    split at h
    next hnone =>
      cases h
      refine ⟨d, hd, fun n hn => ?_, rfl⟩
      by_contra hnot
      have : n ∈ Text.sorted (d.params.filter fun n => !given.any (·.1 == n)) :=
        Text.mem_sorted.2 (List.mem_filter.2 ⟨hn, Association.not_any_iff.2 hnot⟩)
      exact List.not_mem_nil (hnone ▸ this)
    · cases h

theorem over_of_defaultValue (hp : s.Plain) (hv : s.Valid) {given : List (String × Expr)}
    (hplain : ∀ a ∈ given, a.2.Plain) (hover : ∀ a ∈ given, a.2.Over c.signature.paramNames [])
    {p : Parameter} (hmem : p ∈ s.params) {e : Expr} (h : c.defaultValue s inst given p = .ok e) :
    e.Plain ∧ e.Over c.signature.paramNames [] := by
  obtain ⟨d, hd, hparams, rfl⟩ := defaultValue_eq_ok h
  have hdp := hp.default p hmem d hd
  have hbound : ∀ n ∈ d.params, ∃ b, given.lookup n = some b ∧ (n, b) ∈ given := by
    intro n hn
    obtain ⟨b, hb⟩ := Association.exists_lookup (hparams n hn)
    exact ⟨b, hb, Association.mem_of_lookup hb⟩
  refine ⟨⟨Expr.params_subst fun n hn => ?_, Expr.events_subst hdp.2 fun n hn => ?_⟩,
    ((hv.default p hmem d hd).subst hparams hover).1⟩
  · obtain ⟨b, hb, hmem⟩ := hbound n hn
    exact ⟨b, hb, (hplain _ hmem).1⟩
  · obtain ⟨b, hb, hmem⟩ := hbound n hn
    exact ⟨b, hb, (hplain _ hmem).2⟩

/-- Nothing is to be said against the arguments, and what is left out has a default that can be used. -/
structure Clean (c : Caller) (s : Signature) (inst : Instantiation) : Prop where
  arity : inst.args.length ≤ s.params.length
  named : (c.givenArguments s inst).2 = []
  argument : ∀ a ∈ (c.givenArguments s inst).1, c.checkArgument inst a.1 a.2 = []
  default : ∀ p ∈ s.params, p.name ∉ (c.givenArguments s inst).1.map (·.1) →
    Succeeds (c.defaultValue s inst (c.givenArguments s inst).1 p)

/-- Values for the parameters of the callee: those that are given, as they stand in the instantiation, and
the defaults of those that are left out. -/
structure Values (c : Caller) (s : Signature) (inst : Instantiation) (given values : List (String × Expr)) :
    Prop where
  given_eq : given = (c.givenArguments s inst).1
  inScope : ∀ a ∈ given, a.2.Over c.signature.paramNames []
  names : values.map (·.1) = given.map (·.1) ++ s.paramNames.filter (· ∉ given.map (·.1))
  source : ∀ b ∈ values, b ∈ given ∨ b.1 ∉ given.map (·.1) ∧
    ∃ p ∈ s.params, p.name = b.1 ∧ c.defaultValue s inst given p = .ok b.2

theorem Values.total {given values : List (String × Expr)} (h : c.Values s inst given values) :
    ∀ n ∈ s.paramNames, n ∈ values.map (·.1) := by
  intro n hn
  rw [h.names, List.mem_append, List.mem_filter]
  by_cases hgiven : n ∈ given.map (·.1)
  · exact .inl hgiven
  · exact .inr ⟨hn, by simpa using hgiven⟩

theorem Values.binds {given values : List (String × Expr)} (h : c.Values s inst given values) (hp : s.Plain)
    (hv : s.Valid) (hi : inst.Plain) : Binds c.signature s values := by
  have hplain : ∀ a ∈ given, a.2.Plain := by
    intro a ha
    rw [h.given_eq] at ha
    exact (c.mem_givenArguments s inst a ha).elim (hi.1 a.2) (hi.2 a)
  refine ⟨h.total, fun b hb => ?_, fun b hb => ?_⟩
  · rcases h.source b hb with hb | ⟨-, p, hmem, -, he⟩
    · exact hplain b hb
    · exact (over_of_defaultValue hp hv hplain h.inScope hmem he).1
  · rcases h.source b hb with hb | ⟨-, p, hmem, -, he⟩
    · exact h.inScope b hb
    · exact (over_of_defaultValue hp hv hplain h.inScope hmem he).2

/-- Either something is wrong with the arguments, or there is a value for each parameter of the callee,
and what is returned are these values in simplified form. -/
theorem bindParameters_cases (c : Caller) (s : Signature) (inst : Instantiation) :
    (¬ c.Clean s inst ∧ ∃ found, found ≠ [] ∧ (c.givenArguments s inst).2 ⊆ found ∧
      c.bindParameters s inst = .ok ([], found)) ∨
    c.Clean s inst ∧ ∃ given values, c.Values s inst given values ∧ c.bindParameters s inst = (do
      let simplified ← values.mapM fun a => return (a.1, ← a.2.simplified.mapError Fault.nonlinear)
      return (simplified, [])) := by
  unfold bindParameters
  extract_lets arity
  cases hargs : c.givenArguments s inst with
  | mk given misnamed =>
  dsimp -zeta only
  extract_lets misused omitted defaults unbound found
  have homitted : ∀ p, p ∈ omitted ↔ p ∈ s.params ∧ p.name ∉ given.map (·.1) := by
    intro p
    rw [List.mem_filter, Association.not_any_iff]
  have hclean : found = [] ↔ c.Clean s inst := by
    simp only [found, List.append_eq_nil_iff]
    constructor
    · rintro ⟨⟨⟨harity, hnamed⟩, hmisused⟩, hunbound⟩
      simp only [misused, List.flatMap_eq_nil_iff] at hmisused
      refine ⟨?_, ?_, ?_, ?_⟩
      · by_contra hlong
        simp [arity, hlong] at harity
      · rw [hargs]
        exact hnamed
      · rw [hargs]
        exact hmisused
      · rw [hargs]
        intro p hmem hp
        cases hd : c.defaultValue s inst given p with
        | ok e => exact ⟨e, rfl⟩
        | error d =>
          have : d ∈ unbound := List.mem_filterMap.2
            ⟨(p.name, .error d), List.mem_map.2 ⟨p, (homitted p).2 ⟨hmem, hp⟩, by rw [hd]⟩, rfl⟩
          exact absurd this (by simp [hunbound])
    · rintro ⟨harity, hnamed, hargument, hdefault⟩
      rw [hargs] at hnamed hargument hdefault
      refine ⟨⟨⟨if_pos harity, hnamed⟩, List.flatMap_eq_nil_iff.2 hargument⟩, ?_⟩
      rw [List.filterMap_eq_nil_iff]
      intro d hd
      obtain ⟨p, hmem, rfl⟩ := List.mem_map.1 hd
      obtain ⟨hp, hfree⟩ := (homitted p).1 hmem
      obtain ⟨e, he⟩ := hdefault p hp hfree
      rw [he]
  split
  next hfound =>
    have hc := hclean.1 (List.isEmpty_iff.1 hfound)
    have hvalue : ∀ p ∈ omitted, ∃ e, c.defaultValue s inst given p = .ok e := by
      intro p hmem
      obtain ⟨hp, hfree⟩ := (homitted p).1 hmem
      have := hc.default p hp
      rw [hargs] at this
      exact this hfree
    refine .inr ⟨hc, given, _, ⟨by rw [hargs], ?_, ?_, ?_⟩, rfl⟩
    · intro a ha
      exact over_of_checkArgument (hc.argument a (by rwa [hargs]))
    · rw [List.map_append, List.append_cancel_left_eq, Signature.paramNames, List.filter_map,
        List.map_filterMap, List.filterMap_map]
      have hsame : omitted = s.params.filter ((· ∉ given.map (·.1)) ∘ (·.name)) :=
        List.filter_congr fun p _ => Bool.eq_iff_iff.2 (Association.not_any_iff.trans decide_eq_true_iff.symm)
      rw [← hsame, ← List.filterMap_eq_map]
      refine List.filterMap_congr fun p hp => ?_
      obtain ⟨e, he⟩ := hvalue p hp
      simp [he]
    · intro b hb
      rcases List.mem_append.1 hb with hb | hb
      · exact .inl hb
      · obtain ⟨d, hd, hdb⟩ := List.mem_filterMap.1 hb
        obtain ⟨p, hmem, rfl⟩ := List.mem_map.1 hd
        obtain ⟨e, he⟩ := hvalue p hmem
        rw [he] at hdb
        obtain rfl := Option.some.inj hdb
        obtain ⟨hp, hfree⟩ := (homitted p).1 hmem
        exact .inr ⟨hfree, p, hp, rfl, he⟩
  next hfound =>
    have hne : found ≠ [] := fun h => hfound (List.isEmpty_iff.2 h)
    refine .inl ⟨fun hc => hne (hclean.2 hc), found, hne, ?_, rfl⟩
    intro d hd
    simp only [found, List.mem_append]
    exact .inl (.inl (.inr hd))

theorem simplified_eq_ok_iff {values bindings : List (String × Expr)} {found : List Diagnostic} :
    (do
      let simplified ← values.mapM fun a => return (a.1, ← a.2.simplified.mapError Fault.nonlinear)
      return (simplified, [])) = (.ok (bindings, found) : Except Fault _) ↔
    found = [] ∧
      List.Forall₂ (fun a b : String × Expr => b.1 = a.1 ∧ a.2.simplified = .ok b.2) values bindings := by
  have hstep : ∀ a b : String × Expr,
      (do return (a.1, ← a.2.simplified.mapError Fault.nonlinear)) = (.ok b : Except Fault _) ↔
        b.1 = a.1 ∧ a.2.simplified = .ok b.2 := by
    intro a b
    simp only [bind_eq_ok, pure_eq_ok, mapError_eq_ok]
    constructor
    · rintro ⟨e, he, rfl⟩
      exact ⟨rfl, he⟩
    · rintro ⟨hname, he⟩
      exact ⟨b.2, he, by rw [← hname]⟩
  simp only [bind_eq_ok, pure_eq_ok, Prod.mk.injEq, mapM_eq_ok, hstep]
  constructor
  · rintro ⟨simplified, h, rfl, rfl⟩
    exact ⟨rfl, h⟩
  · rintro ⟨rfl, h⟩
    exact ⟨bindings, h, rfl, rfl⟩

/-- Of the values that are returned, each has a name that was bound before and comes from simplifying. -/
theorem exists_values_of_bindParameters {bindings : List (String × Expr)}
    (h : c.bindParameters s inst = .ok (bindings, [])) :
    ∃ given values, c.Values s inst given values ∧ List.Forall₂
      (fun a b : String × Expr => b.1 = a.1 ∧ a.2.simplified = .ok b.2) values bindings := by
  rcases bindParameters_cases c s inst with ⟨-, found, hne, -, hf⟩ | ⟨-, given, values, hvalues, hf⟩
  · rw [hf] at h
    cases h
    exact absurd rfl hne
  · rw [hf, simplified_eq_ok_iff] at h
    exact ⟨given, values, hvalues, h.2⟩

theorem linear_of_bindParameters {bindings : List (String × Expr)}
    (h : c.bindParameters s inst = .ok (bindings, [])) : ∀ b ∈ bindings, b.2.Linear := by
  obtain ⟨given, values, -, hsimplified⟩ := exists_values_of_bindParameters h
  intro b hb
  obtain ⟨a, -, -, he⟩ := exists_left_of_forall₂ hsimplified hb
  exact Expr.linear_of_simplified he

theorem total_of_bindParameters {bindings : List (String × Expr)}
    (h : c.bindParameters s inst = .ok (bindings, [])) : ∀ p ∈ s.paramNames, p ∈ bindings.map (·.1) := by
  obtain ⟨given, values, hvalues, hsimplified⟩ := exists_values_of_bindParameters h
  intro p hp
  obtain ⟨a, ha, rfl⟩ := List.mem_map.1 (hvalues.total p hp)
  obtain ⟨b, hb, hname, -⟩ := exists_right_of_forall₂ hsimplified ha
  exact List.mem_map.2 ⟨b, hb, hname⟩

theorem binds_of_bindParameters (hp : s.Plain) (hv : s.Valid) (hi : inst.Plain)
    {bindings : List (String × Expr)} (h : c.bindParameters s inst = .ok (bindings, [])) :
    Binds c.signature s bindings := by
  obtain ⟨given, values, hvalues, hsimplified⟩ := exists_values_of_bindParameters h
  have hb := hvalues.binds hp hv hi
  refine ⟨total_of_bindParameters h, fun b hmem => ?_, fun b hmem => ?_⟩
  · obtain ⟨a, ha, -, hab⟩ := exists_left_of_forall₂ hsimplified hmem
    rcases Expr.simplified_eq_ok hab with he | ⟨n, he⟩
    · exact he ▸ hb.plain a ha
    · rw [he]
      exact ⟨by simp [Expr.params], by simp [Expr.events]⟩
  · obtain ⟨a, ha, -, hab⟩ := exists_left_of_forall₂ hsimplified hmem
    exact (hb.values a ha).simplified hab

theorem succeeds_bindParameters (hp : s.Plain) (hv : s.Valid) (hi : inst.Plain) :
    Succeeds (c.bindParameters s inst) := by
  rcases bindParameters_cases c s inst with ⟨-, found, -, -, hf⟩ | ⟨-, given, values, hvalues, hf⟩
  · exact ⟨_, hf⟩
  · rw [hf]
    refine Succeeds.bind (.mapM fun a ha => ?_) fun _ _ => succeeds_pure _
    have hover := (hvalues.binds hp hv hi).values a ha
    exact hover.linear.succeeds_simplified.mapError.bind fun _ _ => succeeds_pure _

section Checks

variable {i : Instance} {clause : Clause} {times : List (String × Time)} {loc : Option Loc}

theorem holds_of_checkClause (hl : clause.lhs.Plain) (hr : clause.rhs.Plain)
    (h : c.checkClause clause i times loc = .ok none) {v : Valuation} (hv : c.facts.Hold v.symbol) :
    clause.Holds (v.bound i.bindings times).symbol := by
  rw [← Clause.holds_subst hl hr]
  simp only [checkClause, bind_eq_ok] at h
  obtain ⟨form, hform, h⟩ := h
  rw [← Clause.holds_iff_form hform]
  split at h
  next hp => exact Facts.holds_of_implies hp hv
  next =>
    split at h
    · cases h
    · cases h

theorem succeeds_checkClause (hb : ∀ b ∈ i.bindings, b.2.Linear)
    (hl : clause.lhs.Plain ∧ clause.lhs.Linear) (hr : clause.rhs.Plain ∧ clause.rhs.Linear) :
    Succeeds (c.checkClause clause i times loc) := by
  have hform : Succeeds (clause.subst i.bindings times).form :=
    Clause.succeeds_form (Expr.linear_subst_of_mem hl.1 hl.2 hb times)
      (Expr.linear_subst_of_mem hr.1 hr.2 hb times)
  refine hform.bind fun form _ => .ite (fun _ => succeeds_pure _) fun _ => ?_
  exact .ite (fun _ => succeeds_pure _) fun _ => succeeds_pure _

theorem width_of_checkWidth {p : Port} (hp : p.width.Plain) (h : c.checkWidth i p = .ok none)
    {v : Valuation} (hv : c.facts.Hold v.symbol) :
    1 ≤ p.width.eval (v.bound i.bindings []).symbol := by
  simp only [checkWidth, bind_eq_ok, Expr.toForm_eq_ok] at h
  obtain ⟨form, hform, h⟩ := h
  have heval := Expr.eval_linearize hform v.symbol
  rw [show ([] : List (String × Expr)) = Expr.ofTimes [] from rfl, Expr.eval_subst hp] at heval
  split at h
  next hproves =>
    have := Facts.holds_of_implies hproves hv
    simp only [LinearForm.eval_shift, Relation.Holds] at this
    omega
  next => cases h

theorem succeeds_checkWidth (hb : ∀ b ∈ i.bindings, b.2.Linear) {p : Port}
    (hp : p.width.Plain) (hl : p.width.Linear) : Succeeds (c.checkWidth i p) :=
  (Expr.succeeds_toForm (Expr.linear_subst_of_mem hp hl hb [])).bind fun _ _ =>
    .ite (fun _ => succeeds_pure _) fun _ => succeeds_pure _

end Checks

section Resolve

variable {table : Table} {i : Instance} {found : List Diagnostic}

theorem resolve_eq_some (h : c.resolve table inst = .ok (some i, found)) :
    found = [] ∧ i.name = inst.name ∧ table.get? inst.component = some i.signature ∧
      c.bindParameters i.signature inst = .ok (i.bindings, []) ∧
      (∀ clause ∈ i.signature.paramClauses, c.checkClause clause i [] none = .ok none) ∧
      ∀ p ∈ i.signature.ports, c.checkWidth i p = .ok none := by
  unfold resolve at h
  split at h
  · cases h
  · cases h
  · cases h
  next s _ hs =>
    simp only [bind_eq_ok] at h
    obtain ⟨⟨bindings, wrong⟩, hb, h⟩ := h
    split at h
    · cases h
    next hwrong =>
      have hwrong : wrong = [] := by simpa using hwrong
      subst hwrong
      simp only [bind_eq_ok] at h
      obtain ⟨clauses, hc, widths, hw, h⟩ := h
      split at h
      next hnone =>
        cases h
        -- no check of this instance left a complaint
        have hall : ∀ d ∈ clauses ++ widths, d = none := List.filterMap_eq_nil_iff.1 hnone
        refine ⟨rfl, rfl, hs, hb, fun clause hclause => ?_, fun p hp => ?_⟩
        · obtain ⟨d, hd, hcheck⟩ := exists_right_of_forall₂ (mapM_eq_ok.1 hc) hclause
          rwa [hall d (List.mem_append_left _ hd)] at hcheck
        · obtain ⟨d, hd, hcheck⟩ := exists_right_of_forall₂ (mapM_eq_ok.1 hw) hp
          rwa [hall d (List.mem_append_right _ hd)] at hcheck
      · cases h

theorem resolve_eq_none (h : c.resolve table inst = .ok (none, found)) : found ≠ [] := by
  unfold resolve at h
  split at h
  · cases h
  · cases h
    simp
  · cases h
    simp
  next s _ hs =>
    simp only [bind_eq_ok] at h
    obtain ⟨⟨bindings, wrong⟩, hb, h⟩ := h
    split at h
    next hwrong =>
      cases h
      simpa using hwrong
    next =>
      simp only [bind_eq_ok] at h
      obtain ⟨clauses, hc, widths, hw, h⟩ := h
      split at h
      · cases h
      next hne =>
        cases h
        exact hne

theorem fits_of_resolve (hc : c.Registered) (ht : table.Built)
    (h : c.resolve table inst = .ok (some i, found)) : i.Fits c.signature := by
  obtain ⟨-, -, hget, hb, hclause, hwidth⟩ := resolve_eq_some h
  obtain ⟨-, hp, hv⟩ := ht.registered hget
  refine ⟨hp, hv, linear_of_bindParameters hb, ?_, ?_⟩
  · intro v hadm times clause hmem
    have hparam := (List.mem_filter.1 hmem).2
    have hplain := hp.clause clause (List.mem_filter.1 hmem).1
    have hholds := holds_of_checkClause hplain.1 hplain.2 (hclause clause hmem) ((hc.facts _).2 hadm)
    -- without events the times do not matter
    have hnone : clause.lhs.events = [] ∧ clause.rhs.events = [] := by
      simpa [Clause.mentionsEvents, Clause.events] using hparam
    rw [Clause.Holds] at hholds ⊢
    rwa [Expr.eval_bound_of_events hplain.1 hnone.1, Expr.eval_bound_of_events hplain.2 hnone.2]
  · intro v hadm times p hmem
    rw [Expr.eval_bound_of_events (hp.width p hmem) (hv.width p hmem).events_eq_nil]
    exact width_of_checkWidth (hp.width p hmem) (hwidth p hmem) ((hc.facts _).2 hadm)

theorem succeeds_resolve_of_get? (ht : table.Built) (hget : table.get? inst.component = some s)
    (hbind : Succeeds (c.bindParameters s inst)) : Succeeds (c.resolve table inst) := by
  obtain ⟨-, hp, hv⟩ := ht.registered hget
  rw [resolve, hget]
  refine hbind.bind ?_
  rintro ⟨bindings, wrong⟩ hb
  refine .ite (fun _ => succeeds_pure _) fun hwrong => ?_
  have hwrong : wrong = [] := by simpa using hwrong
  subst hwrong
  have hlinear := linear_of_bindParameters hb
  refine Succeeds.bind (.mapM fun clause hmem => ?_) fun _ _ =>
    Succeeds.bind (.mapM fun p hmem => ?_) fun _ _ => ?_
  · have hmem := (List.mem_filter.1 hmem).1
    exact succeeds_checkClause hlinear ⟨(hp.clause _ hmem).1, (hv.clause _ hmem).1.linear⟩
      ⟨(hp.clause _ hmem).2, (hv.clause _ hmem).2.linear⟩
  · exact succeeds_checkWidth hlinear (hp.width p hmem) (hv.width p hmem).linear
  · split
    · exact succeeds_pure _
    · exact succeeds_pure _

theorem succeeds_resolve (ht : table.Built) (hi : inst.Plain)
    (hreasons : ∀ name, table.rejection? name ≠ some []) : Succeeds (c.resolve table inst) := by
  cases hget : table.get? inst.component with
  | some s =>
    obtain ⟨-, hp, hv⟩ := ht.registered hget
    exact succeeds_resolve_of_get? ht hget (succeeds_bindParameters hp hv hi)
  | none =>
    rw [resolve, hget]
    cases hrejected : table.rejection? inst.component with
    | none => exact succeeds_pure _
    | some causes =>
      cases causes with
      | nil => exact absurd hrejected (hreasons _)
      | cons cause causes => exact succeeds_pure _

end Resolve

end Caller

end Chronogram
