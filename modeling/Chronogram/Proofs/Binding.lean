import Chronogram.Proofs.Instance
import Chronogram.Proofs.TableHistory
import Chronogram.Proofs.WellFormedness

/-! Binding is exact. Arguments come by position and by name, and what is left out falls back on its default.
The complaints are about all that is wrong, so there are none exactly if nothing is; and then a parameter
stands for its argument or for its default, in which the given arguments are put for all names at once. It
does not matter for what is bound whether an argument comes by position or by name. -/

namespace Chronogram

open Fallible

namespace Expr

theorem subst_congr {given others : List (String × Expr)} (h : ∀ n, others.lookup n = given.lookup n)
    (e : Expr) : e.subst others [] = e.subst given [] := by
  induction e with
  | const n => rfl
  | param p => rw [subst, subst, h]
  | event x => rfl
  | add l r ihl ihr | sub l r ihl ihr | mul l r ihl ihr => rw [subst, subst, ihl, ihr]

end Expr

/-- The expression that a parameter stands for: the argument that is given for it, or else its default,
in which the given arguments are put for all names at once. -/
inductive Signature.Stands (s : Signature) (given : List (String × Expr)) : String → Expr → Prop where
  | argument {n : String} {e : Expr} (h : (n, e) ∈ given) : s.Stands given n e
  | default {p : Parameter} {d : Expr} (hp : p ∈ s.params) (hout : p.name ∉ given.map (·.1))
      (hd : p.default = some d) : s.Stands given p.name (d.subst given [])

namespace Signature.Stands

variable {s : Signature} {given : List (String × Expr)} {n : String} {e e' : Expr}

theorem unique (hs : s.paramNames.Nodup) (hg : (given.map (·.1)).Nodup) (h : s.Stands given n e)
    (h' : s.Stands given n e') : e = e' := by
  cases h with
  | argument hmem =>
    cases h' with
    | argument hmem' =>
      have := Association.lookup_of_mem hg hmem'
      simpa [Association.lookup_of_mem hg hmem] using this
    | default hp hout hd => exact absurd (List.mem_map.2 ⟨_, hmem, rfl⟩) hout
  | @default p d hp hout hd =>
    generalize hname : p.name = n at h'
    cases h' with
    | argument hmem' => exact absurd (List.mem_map.2 ⟨_, hmem', rfl⟩) (hname ▸ hout)
    | @default q d' hq hout' hd' =>
      obtain rfl : p = q := List.inj_on_of_nodup_map hs hp hq hname
      obtain rfl : d = d' := by simpa [hd] using hd'
      rfl

theorem perm {others : List (String × Expr)} (hg : (given.map (·.1)).Nodup) (hperm : others.Perm given)
    (h : s.Stands given n e) : s.Stands others n e := by
  cases h with
  | argument hmem => exact .argument (hperm.mem_iff.2 hmem)
  | default hp hout hd =>
    rw [← Expr.subst_congr (Association.lookup_perm hg hperm)]
    exact .default hp (by rwa [(hperm.map _).mem_iff]) hd

end Signature.Stands

/-- The parameters that are given, with their arguments: those by position come first. -/
def Instantiation.given (inst : Instantiation) (s : Signature) : List (String × Expr) :=
  s.paramNames.zip inst.args ++ inst.named

theorem Instantiation.names_given (inst : Instantiation) (s : Signature) :
    (inst.given s).map (·.1) = s.paramNames.take inst.args.length ++ inst.named.map (·.1) := by
  rw [given, List.map_append, Association.names_zip]

theorem Instantiation.args_given {inst : Instantiation} {s : Signature} (h : inst.args.length ≤ s.params.length) :
    (inst.given s).map (·.2) = inst.args ++ inst.named.map (·.2) := by
  rw [given, List.map_append, List.map_snd_zip (by simpa [Signature.paramNames] using h)]

namespace Caller

variable {c : Caller} {s : Signature} {inst : Instantiation}

/-- What an instantiation has to be for the parameters of a callee: each argument is the only one of a
parameter and is over the caller's parameters, and a parameter without an argument has a default which
uses only parameters that have one. -/
structure Permits (c : Caller) (s : Signature) (inst : Instantiation) : Prop where
  arity : inst.args.length ≤ s.params.length
  known : ∀ a ∈ inst.named, a.1 ∈ s.paramNames
  free : ∀ a ∈ inst.named, a.1 ∉ s.paramNames.take inst.args.length
  once : (inst.named.map (·.1)).Nodup
  argument : ∀ e ∈ inst.args ++ inst.named.map (·.2), e.Over c.signature.paramNames []
  default : ∀ p ∈ s.params, p.name ∉ (inst.given s).map (·.1) →
    ∃ d, p.default = some d ∧ ∀ n ∈ d.params, n ∈ (inst.given s).map (·.1)

theorem checkArgument_eq_nil_iff {name : String} {arg : Expr} :
    c.checkArgument inst name arg = [] ↔ arg.Over c.signature.paramNames [] := by
  refine ⟨over_of_checkArgument, fun h => ?_⟩
  obtain ⟨f, hf⟩ := h.linear
  simp only [checkArgument, Text.sorted_filter_eq_nil h.params, h.events_eq_nil, hf]
  rfl

theorem defaultValue_of_names {given : List (String × Expr)} {p : Parameter} {d : Expr} (hd : p.default = some d)
    (hnames : ∀ n ∈ d.params, n ∈ given.map (·.1)) :
    c.defaultValue s inst given p = .ok (d.subst given []) := by
  have hnone : d.params.filter (fun n => !given.any (·.1 == n)) = [] :=
    List.filter_eq_nil_iff.2 fun n hn h => Association.not_any_iff.1 h (hnames n hn)
  rw [defaultValue, hd]
  simp [hnone, Text.sorted]

/-- The names of arguments are complained about unless each is a parameter of its own; otherwise all
arguments are given. -/
theorem givenArguments_spec (c : Caller) (s : Signature) (inst : Instantiation) :
    ((c.givenArguments s inst).2 = [] ↔ (∀ a ∈ inst.named, a.1 ∈ s.paramNames) ∧
      (∀ a ∈ inst.named, a.1 ∉ s.paramNames.take inst.args.length) ∧ (inst.named.map (·.1)).Nodup) ∧
    ((c.givenArguments s inst).2 = [] → (c.givenArguments s inst).1 = inst.given s) := by
  suffices h : ∀ named, ((c.givenArguments s { inst with named }).2 = [] ↔ (∀ a ∈ named, a.1 ∈ s.paramNames) ∧
      (∀ a ∈ named, a.1 ∉ s.paramNames.take inst.args.length) ∧ (named.map (·.1)).Nodup) ∧
      ((c.givenArguments s { inst with named }).2 = [] →
        (c.givenArguments s { inst with named }).1 = s.paramNames.zip inst.args ++ named) from h inst.named
  intro named
  rw [← Association.names_zip]
  -- the last argument is looked at when all others have been
  induction named using List.reverseRecOn with
  | nil => simp [givenArguments]
  | append_singleton named a ih =>
    cases hbefore : c.givenArguments s { inst with named } with
    | mk given found =>
    rw [hbefore] at ih
    dsimp only at ih
    obtain ⟨hiff, hgiven⟩ := ih
    have hlast : ((∀ b ∈ named ++ [a], b.1 ∈ s.paramNames) ∧
        (∀ b ∈ named ++ [a], b.1 ∉ (s.paramNames.zip inst.args).map (·.1)) ∧
        ((named ++ [a]).map (·.1)).Nodup) ↔
        found = [] ∧ a.1 ∈ s.paramNames ∧ a.1 ∉ (s.paramNames.zip inst.args ++ named).map (·.1) := by
      rw [hiff, List.map_append, List.map_append, List.map_singleton, List.nodup_append, List.mem_append]
      simp only [List.forall_mem_append, List.forall_mem_singleton, List.nodup_singleton, true_and]
      constructor
      · rintro ⟨⟨hknown, ha⟩, ⟨hfree, hout⟩, hnodup, hne⟩
        refine ⟨⟨hknown, hfree, hnodup⟩, ha, ?_⟩
        rintro (hin | hin)
        · exact hout hin
        · exact hne a.1 hin rfl
      · rintro ⟨⟨hknown, hfree, hnodup⟩, ha, hout⟩
        refine ⟨⟨hknown, ha⟩, ⟨hfree, fun hin => hout (.inl hin)⟩, hnodup, ?_⟩
        rintro b hb rfl
        exact hout (.inr hb)
    rw [hlast]
    rcases givenArguments_append c s inst named a hbefore with
      ⟨hunknown, d, h⟩ | ⟨-, htaken, d, -, -, h⟩ | ⟨hknown, hfree, h⟩
    · rw [h]
      exact ⟨iff_of_false (by simp) fun hall => hunknown hall.2.1, by simp⟩
    · rw [h]
      refine ⟨iff_of_false (by simp) ?_, by simp⟩
      rintro ⟨hfound, -, hout⟩
      rw [← hgiven hfound] at hout
      exact hout htaken
    · rw [h]
      refine ⟨⟨fun hfound => ⟨hfound, hknown, ?_⟩, fun hall => hall.1⟩, fun hfound => ?_⟩
      · rw [← hgiven hfound]
        exact hfree
      · rw [hgiven hfound, List.append_assoc]

theorem complains_of_taken {n : String} (hn : n ∈ inst.named.map (·.1))
    (htaken : n ∈ s.paramNames.take inst.args.length) :
    ∃ d ∈ (c.givenArguments s inst).2, d.kind = .duplicateName ∧
      d.message = "Parameter '" ++ n ++ "' of '" ++ inst.name ++ "' is bound twice" := by
  -- what is given by position stays given
  suffices h : ∀ named, n ∈ (c.givenArguments s { inst with named }).1.map (·.1) ∧
      (n ∈ named.map (·.1) → ∃ d ∈ (c.givenArguments s { inst with named }).2, d.kind = .duplicateName ∧
        d.message = "Parameter '" ++ n ++ "' of '" ++ inst.name ++ "' is bound twice") from (h inst.named).2 hn
  intro named
  induction named using List.reverseRecOn with
  | nil =>
    refine ⟨?_, by simp⟩
    rwa [← Association.names_zip] at htaken
  | append_singleton named a ih =>
    cases hbefore : c.givenArguments s { inst with named } with
    | mk given found =>
    rw [hbefore] at ih
    obtain ⟨hgiven, hfound⟩ := ih
    have hkept : ∀ last, n ∈ named.map (·.1) → ∃ d ∈ found ++ [last], d.kind = .duplicateName ∧
        d.message = "Parameter '" ++ n ++ "' of '" ++ inst.name ++ "' is bound twice" := by
      intro last hn
      obtain ⟨d, hd, hsame⟩ := hfound hn
      exact ⟨d, List.mem_append_left _ hd, hsame⟩
    rw [List.map_append, List.map_singleton, List.mem_append, List.mem_singleton]
    rcases givenArguments_append c s inst named a hbefore with
      ⟨hunknown, d, h⟩ | ⟨-, -, d, hkind, hmessage, h⟩ | ⟨-, hfree, h⟩
    · rw [h]
      refine ⟨hgiven, ?_⟩
      rintro (hn | rfl)
      · exact hkept d hn
      · exact absurd (List.mem_of_mem_take htaken) hunknown
    · rw [h]
      refine ⟨hgiven, ?_⟩
      rintro (hn | rfl)
      · exact hkept d hn
      · exact ⟨d, by simp, hkind, hmessage⟩
    · rw [h]
      refine ⟨by simp [hgiven], ?_⟩
      rintro (hn | rfl)
      · exact hfound hn
      · exact absurd hgiven hfree

theorem clean_iff : c.Clean s inst ↔ c.Permits s inst := by
  obtain ⟨hiff, hgiven⟩ := givenArguments_spec c s inst
  have hmem : inst.args.length ≤ s.params.length →
      ((∀ a ∈ inst.given s, a.2.Over c.signature.paramNames []) ↔
        ∀ e ∈ inst.args ++ inst.named.map (·.2), e.Over c.signature.paramNames []) := by
    intro harity
    rw [← Instantiation.args_given harity, List.forall_mem_map]
  constructor
  · rintro ⟨harity, hnamed, hargument, hdefault⟩
    obtain ⟨hknown, hfree, honce⟩ := hiff.1 hnamed
    rw [hgiven hnamed] at hargument hdefault
    refine ⟨harity, hknown, hfree, honce, ?_, fun p hp hout => ?_⟩
    · exact (hmem harity).1 fun a ha => over_of_checkArgument (hargument a ha)
    · obtain ⟨e, he⟩ := hdefault p hp hout
      obtain ⟨d, hd, hparams, -⟩ := defaultValue_eq_ok he
      exact ⟨d, hd, hparams⟩
  · rintro ⟨harity, hknown, hfree, honce, hargument, hdefault⟩
    have hnamed := hiff.2 ⟨hknown, hfree, honce⟩
    refine ⟨harity, hnamed, ?_, ?_⟩
    · rw [hgiven hnamed]
      exact fun a ha => checkArgument_eq_nil_iff.2 ((hmem harity).2 hargument a ha)
    · rw [hgiven hnamed]
      intro p hp hout
      obtain ⟨d, hd, hparams⟩ := hdefault p hp hout
      exact ⟨_, defaultValue_of_names hd hparams⟩

/-- The same of the given arguments as a whole, where it does not matter how they are given. -/
structure Assigns (c : Caller) (s : Signature) (given : List (String × Expr)) : Prop where
  once : (given.map (·.1)).Nodup
  known : ∀ a ∈ given, a.1 ∈ s.paramNames
  inScope : ∀ a ∈ given, a.2.Over c.signature.paramNames []
  default : ∀ p ∈ s.params, p.name ∉ given.map (·.1) →
    ∃ d, p.default = some d ∧ ∀ n ∈ d.params, n ∈ given.map (·.1)

theorem Assigns.perm {given others : List (String × Expr)} (h : c.Assigns s given)
    (hperm : others.Perm given) : c.Assigns s others := by
  have hnames := fun n => (hperm.map (·.1)).mem_iff (a := n)
  refine ⟨(hperm.map _).nodup_iff.2 h.once, fun a ha => h.known a (hperm.mem_iff.1 ha),
    fun a ha => h.inScope a (hperm.mem_iff.1 ha), fun p hp hout => ?_⟩
  obtain ⟨d, hd, hparams⟩ := h.default p hp (by rwa [← hnames])
  exact ⟨d, hd, fun n hn => (hnames n).2 (hparams n hn)⟩

theorem permits_iff (hs : s.paramNames.Nodup) :
    c.Permits s inst ↔ inst.args.length ≤ s.params.length ∧ c.Assigns s (inst.given s) := by
  constructor
  · rintro ⟨harity, hknown, hfree, honce, hargument, hdefault⟩
    refine ⟨harity, ?_, ?_, ?_, hdefault⟩
    · rw [Instantiation.names_given, List.nodup_append]
      refine ⟨hs.sublist (List.take_sublist _ _), honce, ?_⟩
      rintro n hn m hm rfl
      obtain ⟨a, ha, rfl⟩ := List.mem_map.1 hm
      exact hfree a ha hn
    · intro a ha
      rcases List.mem_append.1 ha with ha | ha
      · exact (List.of_mem_zip ha).1
      · exact hknown a ha
    · rwa [← Instantiation.args_given harity, List.forall_mem_map] at hargument
  · rintro ⟨harity, honce, hknown, hinScope, hdefault⟩
    rw [Instantiation.names_given, List.nodup_append] at honce
    obtain ⟨-, honce, hdisjoint⟩ := honce
    refine ⟨harity, fun a ha => hknown a (List.mem_append_right _ ha), fun a ha htake => ?_, honce, ?_,
      hdefault⟩
    · exact hdisjoint a.1 htake a.1 (List.mem_map_of_mem ha) rfl
    · rwa [← Instantiation.args_given harity, List.forall_mem_map]

/-- Where the arguments are in order, each parameter is bound once, to what it stands for in simplified
form. -/
theorem bindParameters_of_permits (hv : s.Valid) (h : c.Permits s inst) :
    ∃ bindings, c.bindParameters s inst = .ok (bindings, []) ∧ (bindings.map (·.1)).Perm s.paramNames ∧
      ∀ b ∈ bindings, ∃ e, s.Stands (inst.given s) b.1 e ∧ e.Over c.signature.paramNames [] ∧
        e.simplified = .ok b.2 := by
  obtain ⟨-, hassigns⟩ := (permits_iff hv.params_nodup).1 h
  rcases bindParameters_cases c s inst with ⟨hnot, -⟩ | ⟨hclean, given, values, hvalues, hf⟩
  · exact absurd (clean_iff.2 h) hnot
  obtain rfl : given = inst.given s := by
    rw [hvalues.given_eq, (givenArguments_spec c s inst).2 hclean.named]
  have hstands : ∀ a ∈ values, s.Stands (inst.given s) a.1 a.2 ∧ a.2.Over c.signature.paramNames [] := by
    intro a ha
    rcases hvalues.source a ha with hgiven | ⟨hout, p, hp, hname, hvalue⟩
    · exact ⟨.argument hgiven, hassigns.inScope a hgiven⟩
    · obtain ⟨d, hd, hparams, he⟩ := defaultValue_eq_ok hvalue
      rw [← hname] at hout ⊢
      rw [he]
      exact ⟨.default hp hout hd, ((hv.default p hp d hd).subst hparams hassigns.inScope).1⟩
  have hsucceeds : Succeeds (c.bindParameters s inst) := by
    rw [hf]
    refine Succeeds.bind (.mapM fun a ha => ?_) fun _ _ => succeeds_pure _
    exact (hstands a ha).2.linear.succeeds_simplified.mapError.bind fun _ _ => succeeds_pure _
  obtain ⟨⟨bindings, found⟩, hok⟩ := hsucceeds
  obtain ⟨rfl, hsimplified⟩ := simplified_eq_ok_iff.1 (hf ▸ hok)
  refine ⟨bindings, hok, ?_, fun b hb => ?_⟩
  · have hnames : bindings.map (·.1) = values.map (·.1) := by
      rw [← List.forall₂_eq_eq_eq, List.forall₂_map_left_iff, List.forall₂_map_right_iff]
      exact hsimplified.flip.imp fun _ _ h => h.1
    rw [hnames, hvalues.names]
    refine (List.perm_ext_iff_of_nodup ?_ hv.params_nodup).2 fun n => ?_
    · refine List.Nodup.append hassigns.once (hv.params_nodup.filter _) ?_
      intro n hn hfilter
      simp [hn] at hfilter
    · rw [List.mem_append, List.mem_filter]
      constructor
      · rintro (hn | hn)
        · obtain ⟨a, ha, rfl⟩ := List.mem_map.1 hn
          exact hassigns.known a ha
        · exact hn.1
      · intro hn
        by_cases hgiven : n ∈ (inst.given s).map (·.1)
        · exact .inl hgiven
        · exact .inr ⟨hn, by simpa using hgiven⟩
  · obtain ⟨a, ha, hname, he⟩ := exists_left_of_forall₂ hsimplified hb
    rw [hname]
    exact ⟨a.2, (hstands a ha).1, (hstands a ha).2, he⟩

theorem bindParameters_of_not_permits (h : ¬ c.Permits s inst) :
    ∃ found, found ≠ [] ∧ c.bindParameters s inst = .ok ([], found) := by
  rcases bindParameters_cases c s inst with ⟨-, found, hne, -, hf⟩ | ⟨hclean, -⟩
  · exact ⟨found, hne, hf⟩
  · exact absurd (clean_iff.1 hclean) h

structure Settles (c : Caller) (s : Signature) (inst : Instantiation) (bindings : List (String × Expr)) :
    Prop where
  names : (bindings.map (·.1)).Perm s.paramNames
  once : (bindings.map (·.1)).Nodup
  inScope : ∀ b ∈ bindings, b.2.Over c.signature.paramNames []
  argument : ∀ a ∈ inst.given s, ∃ b, bindings.lookup a.1 = some b ∧ ∀ ρ, b.eval ρ = a.2.eval ρ
  default : ∀ p ∈ s.params, p.name ∉ (inst.given s).map (·.1) → ∃ d b, p.default = some d ∧
    bindings.lookup p.name = some b ∧ ∀ ρ, b.eval ρ = d.eval (Expr.valuesOf (inst.given s) ρ)

theorem settles_of_stands (hv : s.Valid) (h : c.Permits s inst) {bindings : List (String × Expr)}
    (hnames : (bindings.map (·.1)).Perm s.paramNames)
    (hstands : ∀ b ∈ bindings, ∃ e, s.Stands (inst.given s) b.1 e ∧ e.Over c.signature.paramNames [] ∧
      e.simplified = .ok b.2) : c.Settles s inst bindings := by
  obtain ⟨-, hassigns⟩ := (permits_iff hv.params_nodup).1 h
  have hbound : ∀ n e, n ∈ s.paramNames → s.Stands (inst.given s) n e →
      ∃ b, bindings.lookup n = some b ∧ ∀ ρ, b.eval ρ = e.eval ρ := by
    intro n e hn he
    obtain ⟨b, hb⟩ := Association.exists_lookup (hnames.mem_iff.2 hn)
    obtain ⟨e', he', -, hsimplified⟩ := hstands _ (Association.mem_of_lookup hb)
    obtain rfl := he.unique hv.params_nodup hassigns.once he'
    exact ⟨b, hb, Expr.eval_simplified hsimplified⟩
  refine ⟨hnames, hnames.nodup_iff.2 hv.params_nodup, fun b hb => ?_, fun a ha => ?_, fun p hp hout => ?_⟩
  · obtain ⟨e, -, hover, hsimplified⟩ := hstands b hb
    exact hover.simplified hsimplified
  · exact hbound a.1 a.2 (hassigns.known a ha) (.argument ha)
  · obtain ⟨d, hd, hparams⟩ := hassigns.default p hp hout
    obtain ⟨b, hb, heval⟩ := hbound p.name _ (List.mem_map_of_mem hp) (.default hp hout hd)
    refine ⟨d, b, hd, hb, fun ρ => ?_⟩
    rw [heval, ((hv.default p hp d hd).subst hparams hassigns.inScope).2]

theorem settles_of_bindParameters (hv : s.Valid) {bindings : List (String × Expr)}
    (h : c.bindParameters s inst = .ok (bindings, [])) : c.Permits s inst ∧ c.Settles s inst bindings := by
  by_cases hp : c.Permits s inst
  · obtain ⟨bindings', hbind, hnames, hstands⟩ := bindParameters_of_permits hv hp
    obtain rfl : bindings' = bindings := by simpa [hbind] using h
    exact ⟨hp, settles_of_stands hv hp hnames hstands⟩
  · obtain ⟨found, hne, hbind⟩ := bindParameters_of_not_permits hp
    rw [hbind] at h
    cases h
    exact absurd rfl hne

/-- Arguments that are given in another way are bound in the same way. -/
theorem bindParameters_perm (inst' : Instantiation) (hv : s.Valid) (h : c.Permits s inst)
    (harity : inst'.args.length ≤ s.params.length) (hperm : (inst'.given s).Perm (inst.given s)) :
    ∃ bindings bindings', c.bindParameters s inst = .ok (bindings, []) ∧
      c.bindParameters s inst' = .ok (bindings', []) ∧ ∀ n, bindings'.lookup n = bindings.lookup n := by
  obtain ⟨-, hassigns⟩ := (permits_iff hv.params_nodup).1 h
  have h' : c.Permits s inst' := (permits_iff hv.params_nodup).2 ⟨harity, hassigns.perm hperm⟩
  obtain ⟨bindings, hbind, hnames, hstands⟩ := bindParameters_of_permits hv h
  obtain ⟨bindings', hbind', hnames', hstands'⟩ := bindParameters_of_permits hv h'
  refine ⟨bindings, bindings', hbind, hbind', fun n => ?_⟩
  cases hb : bindings.lookup n with
  | none =>
    rw [Association.lookup_eq_none, hnames.mem_iff] at hb
    rwa [Association.lookup_eq_none, hnames'.mem_iff]
  | some b =>
    have hmem := Association.mem_of_lookup hb
    obtain ⟨b', hb'⟩ := Association.exists_lookup
      (hnames'.mem_iff.2 (hnames.mem_iff.1 (List.mem_map_of_mem hmem)))
    obtain ⟨e, he, -, hsimplified⟩ := hstands _ hmem
    obtain ⟨e', he', -, hsimplified'⟩ := hstands' _ (Association.mem_of_lookup hb')
    obtain rfl := (he.perm hassigns.once hperm).unique hv.params_nodup (hassigns.perm hperm).once he'
    rw [hsimplified] at hsimplified'
    exact hb'.trans (congrArg some (Except.ok.inj hsimplified').symm)

end Caller

theorem Instantiation.given_named {inst : Instantiation} {s : Signature} {front back : List Expr}
    (hargs : inst.args = front ++ back) (harity : inst.args.length ≤ s.params.length)
    {named : List (String × Expr)}
    (hnamed : named.Perm ((s.paramNames.drop front.length).zip back ++ inst.named)) :
    (given { inst with args := front, named } s).Perm (inst.given s) := by
  have hfront : front.length ≤ s.paramNames.length := by
    rw [hargs, List.length_append] at harity
    simp only [Signature.paramNames, List.length_map]
    omega
  simp only [given, hargs]
  rw [Association.zip_append_right back hfront, List.append_assoc]
  exact hnamed.append_left _

/-- Parameters can be bound exactly if the instantiation is permitted, and then they are bound as it says.
Arguments at the end of those by position may be moved among those by name, whatever the order there: as much
can be bound, and it is bound to the same. -/
theorem exact_binding (actions : List Table.Action) {name : String} {s : Signature}
    (hs : (Table.history actions).get? name = some s) (c : Caller) (inst : Instantiation) :
    ∃ bindings found, c.bindParameters s inst = .ok (bindings, found) ∧
      (found = [] ↔ c.Permits s inst) ∧ (found = [] → c.Settles s inst bindings) ∧
      ∀ front back named, inst.args = front ++ back → inst.args.length ≤ s.params.length →
        named.Perm ((s.paramNames.drop front.length).zip back ++ inst.named) →
        ∃ bindings' found', c.bindParameters s { inst with args := front, named } = .ok (bindings', found') ∧
          (found' = [] ↔ found = []) ∧ ∀ n, bindings'.lookup n = bindings.lookup n := by
  obtain ⟨-, hvalidate, -⟩ := (Table.consistent_of_history actions).stored name s hs
  have hv := Signature.valid_of_validate hvalidate
  have hiff : ∀ inst, c.Permits s inst ↔ _ := fun inst => Caller.permits_iff hv.params_nodup
  by_cases h : c.Permits s inst
  · obtain ⟨bindings, hbind, -⟩ := Caller.bindParameters_of_permits hv h
    refine ⟨bindings, [], hbind, iff_of_true rfl h, fun _ => (Caller.settles_of_bindParameters hv hbind).2, ?_⟩
    intro front back named hargs harity hnamed
    have hfront : front.length ≤ s.params.length := by
      rw [hargs, List.length_append] at harity
      omega
    obtain ⟨bindings₀, bindings', hbind₀, hbind', hsame⟩ := Caller.bindParameters_perm
      { inst with args := front, named } hv h hfront (Instantiation.given_named hargs harity hnamed)
    obtain rfl : bindings₀ = bindings := by simpa [hbind] using hbind₀.symm
    exact ⟨bindings', [], hbind', Iff.rfl, hsame⟩
  · obtain ⟨found, hne, hbind⟩ := Caller.bindParameters_of_not_permits h
    refine ⟨[], found, hbind, iff_of_false hne h, fun hnil => absurd hnil hne, ?_⟩
    intro front back named hargs harity hnamed
    have hperm := Instantiation.given_named hargs harity hnamed
    have h' : ¬ c.Permits s { inst with args := front, named } := by
      intro h'
      have hassigns := ((hiff _).1 h').2
      exact h ((hiff inst).2 ⟨harity, hassigns.perm hperm.symm⟩)
    obtain ⟨found', hne', hbind'⟩ := Caller.bindParameters_of_not_permits h'
    exact ⟨[], found', hbind', iff_of_false hne' hne, fun _ => rfl⟩

namespace Swap

/-- A component whose third parameter is the difference of the first two, unless it is given. -/
def callee : Signature where
  name := "Span"
  params := [{ name := "W", default := none }, { name := "V", default := none },
    { name := "D", default := some (.sub (.param "W") (.param "V")) }]
  primary := { name := "G", delay := .const 1 }
  secondary := []
  ports := []
  clauses := []

def caller : Caller := ⟨Primitives.element "Main" "" ["W", "V", "D"] 4 [] [], []⟩

def inst : Instantiation :=
  { name := "x", component := "Span", args := [.param "V", .param "W"], named := [] }

def actions : List Table.Action := [.register callee]

theorem registered : (Table.history actions).get? "Span" = some callee := by decide +kernel

theorem bound : ((caller.bindParameters callee inst).toOption.map (·.2.isEmpty)) = some true := by
  decide +kernel

end Swap

/-- What is bound to the third parameter is the second one of the caller less its first, and it is the same if the
second argument is given by name. -/
theorem exact_binding_swap : ∃ bindings bindings',
    Swap.caller.bindParameters Swap.callee Swap.inst = .ok (bindings, []) ∧
    (∃ d, bindings.lookup "D" = some d ∧ ∀ ρ, d.eval ρ = ρ "V" - ρ "W") ∧
    Swap.caller.bindParameters Swap.callee
      { Swap.inst with args := [.param "V"], named := [("V", .param "W")] } = .ok (bindings', []) ∧
    ∀ n, bindings'.lookup n = bindings.lookup n := by
  obtain ⟨bindings, found, hbind, -, hsettles, hmoved⟩ :=
    exact_binding Swap.actions Swap.registered Swap.caller Swap.inst
  obtain rfl : found = [] := by simpa [hbind, Except.toOption] using Swap.bound
  obtain ⟨bindings', found', hbind', hfound', hsame⟩ :=
    hmoved [.param "V"] [.param "W"] [("V", .param "W")] rfl (by decide) (List.Perm.refl _)
  obtain rfl := hfound'.2 rfl
  obtain ⟨d, b, hd, hb, heval⟩ := (hsettles rfl).default
    { name := "D", default := some (.sub (.param "W") (.param "V")) } (by simp [Swap.callee]) (by decide)
  refine ⟨bindings, bindings', hbind, ⟨b, hb, fun ρ => ?_⟩, hbind', hsame⟩
  cases hd
  rw [heval]
  rfl

end Chronogram
